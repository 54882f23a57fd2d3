import Ocfs2Test.Lib.Segments
import Ocfs2Test.Lib.RbTree

/-!
# The chunk tree of verify_holes

`vh_insert_chunk` over any rbtree that keeps the order of its nodes. The search
goes down by offset, so it finds every chunk that meets the new one only while
the chunks are in order. A chunk of length zero breaks the order when it lands
where another chunk begins or inside one: it is linked behind that chunk, and a
later search that turns right at it passes that chunk by.
-/

namespace Ocfs2Test.Holes

open Lib Lib.Segment

/-- `struct fh_write_unit`: `w_char`, `w_offset` and `w_len`. -/
abbrev WriteUnit := Segment UInt8

/-- The length is an `unsigned int`, and the end an `unsigned long`. -/
structure WellFormed (wu : WriteUnit) : Prop where
  len : wu.len < 2 ^ 32
  stop : wu.off + wu.len < 2 ^ 64

/-- `w_offset + w_len` in an `unsigned long`. -/
def endOf (wu : WriteUnit) : Nat := (wu.off + wu.len) % 2 ^ 64

inductive Fault
  /-- The recursion level is above two. -/
  | abort
  | outOfFuel
  deriving DecidableEq, Repr

/-- How the new chunk meets the one at a node. -/
inductive Meets
  | encompasses
  | inMiddle
  | leftStraddle
  | rightStraddle
  deriving DecidableEq, Repr

def meets (chunk tmp : WriteUnit) : Option Meets :=
  if chunk.off ≤ tmp.off ∧ endOf chunk ≥ endOf tmp then some .encompasses
  else if chunk.off > tmp.off ∧ endOf chunk < endOf tmp then some .inMiddle
  else if chunk.off ≤ tmp.off ∧ endOf chunk ≤ endOf tmp ∧ endOf chunk > tmp.off then
    some .leftStraddle
  else if chunk.off > tmp.off ∧ chunk.off < endOf tmp ∧ endOf chunk ≥ endOf tmp then
    some .rightStraddle
  else none

/-- Where the `while` of `vh_insert_chunk` ends: at an empty place, or at a node
that the chunk meets. -/
inductive Found
  | place (path : RbPath WriteUnit)
  | node (how : Meets) (path : RbPath WriteUnit) (color : Color) (left : RbTree WriteUnit)
      (tmp : WriteUnit) (right : RbTree WriteUnit)

def search (chunk : WriteUnit) : RbTree WriteUnit → RbPath WriteUnit → Found
  | .nil, path => .place path
  | .node color l tmp r, path =>
    match meets chunk tmp with
    | some how => .node how path color l tmp r
    | none =>
      if chunk.off < tmp.off then search chunk l (.left color tmp r :: path)
      else search chunk r (.right l color tmp :: path)

def leftRest (chunk tmp : WriteUnit) : WriteUnit :=
  { tmp with len := (chunk.off - tmp.off) % 2 ^ 32 }

def rightRest (chunk tmp : WriteUnit) : WriteUnit :=
  { tmp with off := endOf chunk, len := (endOf tmp - endOf chunk) % 2 ^ 32 }

/-- The branch taken at a node, once the node is erased: what is left of `tmp`
goes back in by a nested call. -/
def trim (insert : WriteUnit → RbTree WriteUnit → Except Fault (RbTree WriteUnit))
    (chunk tmp : WriteUnit) (how : Meets) (t : RbTree WriteUnit) : Except Fault (RbTree WriteUnit) :=
  match how with
  | .encompasses => .ok t
  | .inMiddle => do
    let t ← insert (leftRest chunk tmp) t
    insert (rightRest chunk tmp) t
  | .leftStraddle => insert (rightRest chunk tmp) t
  | .rightStraddle => insert (leftRest chunk tmp) t

/-- `vh_insert_chunk` at a recursion level. A unit of fuel is spent on each
restart of the search and each nested call. -/
def insertAt (rb : Rebalance WriteUnit) :
    Nat → Nat → WriteUnit → RbTree WriteUnit → Except Fault (RbTree WriteUnit)
  | 0, _, _, _ => .error .outOfFuel
  | fuel + 1, level, chunk, t =>
    if level > 2 then .error .abort
    else
      match search chunk t [] with
      | .place path => .ok (rb.insert path chunk)
      | .node how path color l tmp r => do
        let t ← trim (insertAt rb fuel (level + 1)) chunk tmp how (rb.erase path color l r)
        insertAt rb fuel level chunk t

/-- `vh_insert_chunk`, called from outside. Each restart takes one more chunk
out of the way of the new one, so twice the number of chunks is fuel enough. -/
def insertChunk (rb : Rebalance WriteUnit) (chunk : WriteUnit) (t : RbTree WriteUnit) :
    Except Fault (RbTree WriteUnit) :=
  insertAt rb (2 * t.size + 1) 1 chunk t

/-- The chunk of `vh_init_tree`: `w_len` takes the low 32 bits of the size. -/
def initChunk (size : Nat) : WriteUnit := ⟨0, 0, size % 2 ^ 32⟩

def initTree (rb : Rebalance WriteUnit) (size : Nat) : Except Fault (RbTree WriteUnit) :=
  insertChunk rb (initChunk size) .nil

/-- `vh_init_tree` and then one insert after the other. -/
def buildTree (rb : Rebalance WriteUnit) (size : Nat) (chunks : List WriteUnit) :
    Except Fault (RbTree WriteUnit) := do
  let t ← initTree rb size
  chunks.foldlM (fun t chunk => insertChunk rb chunk t) t

-- ---------------------------------------------------------------------------
-- The search
-- ---------------------------------------------------------------------------

section
variable {chunk tmp : WriteUnit} {rb : Rebalance WriteUnit} {t t' : RbTree WriteUnit}

theorem WellFormed.endOf (h : WellFormed tmp) : endOf tmp = tmp.stop :=
  Nat.mod_eq_of_lt h.stop

/-- What the four tests say, with the ends as they are. -/
def Meets.Rel (chunk tmp : WriteUnit) : Meets → Prop
  | .encompasses => chunk.off ≤ tmp.off ∧ tmp.stop ≤ chunk.stop
  | .inMiddle => tmp.off < chunk.off ∧ chunk.stop < tmp.stop
  | .leftStraddle => chunk.off ≤ tmp.off ∧ tmp.off < chunk.stop ∧ chunk.stop < tmp.stop
  | .rightStraddle => tmp.off < chunk.off ∧ chunk.off < tmp.stop ∧ tmp.stop ≤ chunk.stop

theorem meets_rel (hc : WellFormed chunk) (ht : WellFormed tmp)
    (h : meets chunk tmp = some how) : how.Rel chunk tmp := by
  unfold meets at h
  rw [hc.endOf, ht.endOf] at h
  split at h
  · cases h
    assumption
  split at h
  · cases h
    assumption
  split at h
  · cases h
    simp only [Meets.Rel]
    omega
  split at h
  · cases h
    assumption
  · cases h

theorem search_inorder (h : search chunk t path = .node how path' color l tmp r) :
    RbPath.before path ++ t.inorder ++ RbPath.after path =
      RbPath.before path' ++ l.inorder ++ tmp :: (r.inorder ++ RbPath.after path') ∧
    meets chunk tmp = some how := by
  fun_induction search chunk t path with
  | case1 => cases h
  | case2 color' l' tmp' r' path how' hm =>
    cases h
    exact ⟨by simp, hm⟩
  | case3 color' l' tmp' r' path hm hlt ih =>
    obtain ⟨hin, hm'⟩ := ih h
    exact ⟨by simpa [Frame.before, Frame.after] using hin, hm'⟩
  | case4 color' l' tmp' r' path hm hlt ih =>
    obtain ⟨hin, hm'⟩ := ih h
    exact ⟨by simpa [Frame.before, Frame.after] using hin, hm'⟩

/-- The chunk goes where nothing but an empty chunk may begin: it has a length,
or no chunk covers its offset. -/
def Clear (chunk : WriteUnit) (xs : List WriteUnit) : Prop :=
  0 < chunk.len ∨ lookup xs chunk.off = none

/-- A node the search passes to the left, or to the right, is on the other side
of the chunk as a whole. -/
theorem sep_of_meets_none (hc : WellFormed chunk) (ht : WellFormed tmp)
    (hclear : 0 < chunk.len ∨ ¬ tmp.Covers chunk.off) (h : meets chunk tmp = none) :
    (chunk.off < tmp.off → Before chunk tmp) ∧ (¬ chunk.off < tmp.off → Before tmp chunk) := by
  unfold meets at h
  rw [hc.endOf, ht.endOf] at h
  repeat' split at h
  all_goals cases h
  unfold Before Covers at *
  simp only [stop_eq] at *
  constructor <;> intro _ <;> omega

theorem search_place (h : search chunk t path = .place path') (hc : WellFormed chunk)
    (hsep : Separated t.inorder) (hwf : ∀ x ∈ t.inorder, WellFormed x)
    (hclear : Clear chunk t.inorder)
    (hb : ∀ x ∈ RbPath.before path, Before x chunk) (ha : ∀ x ∈ RbPath.after path, Before chunk x) :
    RbPath.before path ++ t.inorder ++ RbPath.after path = RbPath.before path' ++ RbPath.after path' ∧
      (∀ x ∈ RbPath.before path', Before x chunk) ∧ ∀ x ∈ RbPath.after path', Before chunk x := by
  fun_induction search chunk t path with
  | case1 path =>
    cases h
    exact ⟨by simp, hb, ha⟩
  | case2 => cases h
  | case3 color l tmp r path hm hlt ih =>
    simp only [RbTree.inorder_node] at hsep hwf hclear
    obtain ⟨hl, hr, hlr⟩ := List.pairwise_append.mp hsep
    have hclear' : Clear chunk l.inorder ∧ (0 < chunk.len ∨ ¬ tmp.Covers chunk.off) := by
      simp only [Clear, lookup_eq_none, List.mem_append, List.mem_cons] at hclear ⊢
      grind
    have hs := (sep_of_meets_none hc (hwf tmp (by simp)) hclear'.2 hm).1 hlt
    obtain ⟨hin, hrest⟩ := ih h hl (fun x hx => hwf x (by simp [hx])) hclear'.1
      (by simpa [Frame.before] using hb) (by
      intro x hx
      simp only [RbPath.after_cons, Frame.after, List.cons_append, List.mem_cons, List.mem_append] at hx
      rcases hx with rfl | hx | hx
      · exact hs
      · exact hs.trans ((List.pairwise_cons.mp hr).1 x hx)
      · exact ha x hx)
    exact ⟨by simpa [Frame.before, Frame.after] using hin, hrest⟩
  | case4 color l tmp r path hm hlt ih =>
    simp only [RbTree.inorder_node] at hsep hwf hclear
    obtain ⟨hl, hr, hlr⟩ := List.pairwise_append.mp hsep
    have hclear' : Clear chunk r.inorder ∧ (0 < chunk.len ∨ ¬ tmp.Covers chunk.off) := by
      simp only [Clear, lookup_eq_none, List.mem_append, List.mem_cons] at hclear ⊢
      grind
    have hs := (sep_of_meets_none hc (hwf tmp (by simp)) hclear'.2 hm).2 hlt
    obtain ⟨hin, hrest⟩ := ih h (List.pairwise_cons.mp hr).2 (fun x hx => hwf x (by simp [hx]))
      hclear'.1 (by
      intro x hx
      simp only [RbPath.before_cons, Frame.before, List.mem_append, List.mem_singleton] at hx
      rcases hx with hx | hx | rfl
      · exact hb x hx
      · exact (hlr x hx tmp (by simp)).trans hs
      · exact hs) ha
    exact ⟨by simpa [Frame.before, Frame.after] using hin, hrest⟩

-- ---------------------------------------------------------------------------
-- Insertion into a free range
-- ---------------------------------------------------------------------------

structure ChunksOk (xs : List WriteUnit) : Prop where
  separated : Separated xs
  wellFormed : ∀ x ∈ xs, WellFormed x

theorem ChunksOk.sublist (h : ChunksOk xs) (hs : ys.Sublist xs) : ChunksOk ys :=
  ⟨h.separated.sublist hs, fun x hx => h.wellFormed x (hs.subset hx)⟩

theorem ChunksOk.insert (h : ChunksOk (xs ++ ys)) (hc : WellFormed chunk)
    (hxs : ∀ x ∈ xs, Before x chunk) (hys : ∀ y ∈ ys, Before chunk y) :
    ChunksOk (xs ++ chunk :: ys) := by
  refine ⟨separated_insert h.separated hxs hys, fun x hx => ?_⟩
  simp only [List.mem_append, List.mem_cons] at hx
  rcases hx with hx | rfl | hx
  · exact h.wellFormed x (by simp [hx])
  · exact hc
  · exact h.wellFormed x (by simp [hx])

/-- Of the chunks behind the new one the search can only stop at an empty one. -/
theorem meets_behind (hc : WellFormed chunk) (ht : WellFormed tmp) (h : Before chunk tmp)
    (hm : meets chunk tmp = some how) : how = .encompasses ∧ tmp.len = 0 := by
  have hrel := meets_rel hc ht hm
  unfold Before at h
  cases how <;> simp only [Meets.Rel, stop_eq] at hrel h
  case encompasses => exact ⟨rfl, by omega⟩
  all_goals omega

theorem not_meets_ahead (hc : WellFormed chunk) (ht : WellFormed tmp) (h : Before tmp chunk) :
    meets chunk tmp = none := by
  cases hm : meets chunk tmp with
  | none => rfl
  | some how =>
    have hrel := meets_rel hc ht hm
    unfold Before at h
    cases how <;> simp only [Meets.Rel, stop_eq] at hrel h <;> omega

theorem search_root (h : search chunk t [] = .place path) (hc : WellFormed chunk)
    (hok : ChunksOk t.inorder) (hclear : Clear chunk t.inorder) :
    t.inorder = RbPath.before path ++ RbPath.after path ∧
      (∀ x ∈ RbPath.before path, Before x chunk) ∧ ∀ x ∈ RbPath.after path, Before chunk x := by
  simpa using search_place h hc hok.separated hok.wellFormed hclear (by simp) (by simp)

/-- A chunk between `xs` and `ys` is linked there. On the way the search may
come upon an empty chunk where the new one ends, and erases it. -/
theorem insertAt_between (rb : Rebalance WriteUnit) (hlevel : level ≤ 2) (hc : WellFormed chunk)
    (hok : ChunksOk (xs ++ ys)) (hin : t.inorder = xs ++ ys) (hxs : ∀ x ∈ xs, Before x chunk)
    (hys : ∀ y ∈ ys, Before chunk y) (hfuel : ys.length < fuel) :
    ∃ t' ys', insertAt rb fuel level chunk t = .ok t' ∧ t'.inorder = xs ++ chunk :: ys' ∧
      ys'.Sublist ys ∧ ∀ y ∈ ys, 0 < y.len → y ∈ ys' := by
  induction fuel generalizing t ys with
  | zero => omega
  | succ fuel ih =>
    have hclear : Clear chunk t.inorder := by
      refine .inr (lookup_eq_none.mpr fun x hx hcov => ?_)
      rw [hin, List.mem_append] at hx
      unfold Covers at hcov
      rcases hx with hx | hx
      · have := (hxs x hx).1
        omega
      · have := (hys x hx).2
        omega
    rw [insertAt, if_neg (by omega)]
    cases hs : search chunk t [] with
    | place path =>
      obtain ⟨hpath, hb, ha⟩ := search_root hs hc (hin ▸ hok) hclear
      obtain ⟨rfl, rfl⟩ := split_unique (hpath.symm.trans hin) hb ha hxs hys
      exact ⟨_, _, rfl, rb.inorder_insert path chunk, List.Sublist.refl _, fun y hy _ => hy⟩
    | node how path color l tmp r =>
      obtain ⟨hpath, hm⟩ := search_inorder hs
      simp only [RbPath.before_nil, RbPath.after_nil, List.nil_append, List.append_nil, hin] at hpath
      have htmp : tmp ∈ xs ++ ys := by simp [hpath]
      have htmpy : tmp ∈ ys := by
        rcases List.mem_append.mp htmp with hx | hy
        · rw [not_meets_ahead hc (hok.wellFormed tmp htmp) (hxs tmp hx)] at hm
          cases hm
        · exact hy
      obtain ⟨rfl, hempty⟩ := meets_behind hc (hok.wellFormed tmp htmp) (hys tmp htmpy) hm
      obtain ⟨ys₁, ys₂, rfl⟩ := List.append_of_mem htmpy
      -- the erased chunk comes out of `ys`
      have herase : (rb.erase path color l r).inorder = xs ++ (ys₁ ++ ys₂) := by
        rw [← List.append_assoc] at hok hpath
        obtain ⟨hl, hr⟩ := hok.separated.cut_unique hpath
        rw [rb.inorder_erase, ← hl, List.append_assoc, ← hr, List.append_assoc]
      have hsub : (ys₁ ++ ys₂).Sublist (ys₁ ++ tmp :: ys₂) := by simp
      simp only [trim, bind, Except.bind]
      obtain ⟨t', ys', hins, hin', hsub', hkeep⟩ := ih (hok.sublist (hsub.append_left xs)) herase
        (fun y hy => hys y (hsub.subset hy)) (by simp at hfuel ⊢; omega)
      refine ⟨t', ys', hins, hin', hsub'.trans hsub, fun y hy hpos => hkeep y ?_ hpos⟩
      have hne : y ≠ tmp := by
        rintro rfl
        omega
      simpa [hne] using hy

-- ---------------------------------------------------------------------------
-- Insertion anywhere
-- ---------------------------------------------------------------------------

def weight (chunk x : WriteUnit) : Nat :=
  if Before x chunk then 0 else if Before chunk x then 1 else 2

def work (chunk : WriteUnit) (xs : List WriteUnit) : Nat := (xs.map (weight chunk)).sum

@[simp] theorem work_nil : work chunk [] = 0 := rfl

@[simp] theorem work_cons (x : WriteUnit) (xs : List WriteUnit) :
    work chunk (x :: xs) = weight chunk x + work chunk xs := by simp [work]

@[simp] theorem work_append (xs ys : List WriteUnit) :
    work chunk (xs ++ ys) = work chunk xs + work chunk ys := by simp [work]

theorem weight_eq_zero (h : Before x chunk) : weight chunk x = 0 := if_pos h

theorem weight_pos (h : ¬ Before x chunk) : 1 ≤ weight chunk x := by
  unfold weight
  rw [if_neg h]
  split <;> omega

theorem weight_le_one (h : Before chunk x) : weight chunk x ≤ 1 := by
  unfold weight
  rw [if_pos h]
  split <;> omega

theorem weight_eq_two (h : ¬ Before x chunk) (h' : ¬ Before chunk x) : weight chunk x = 2 := by
  rw [weight, if_neg h, if_neg h']

theorem work_le (chunk : WriteUnit) (xs : List WriteUnit) : work chunk xs ≤ 2 * xs.length := by
  induction xs with
  | nil => simp
  | cons x xs ih =>
    have : weight chunk x ≤ 2 := by
      unfold weight
      repeat' split
      all_goals omega
    simp only [work_cons, List.length_cons]
    omega

theorem work_sublist (chunk : WriteUnit) (h : ys.Sublist xs) : work chunk ys ≤ work chunk xs := by
  induction h with
  | slnil => exact Nat.le_refl _
  | cons x _ ih =>
    rw [work_cons]
    omega
  | cons_cons x _ ih =>
    rw [work_cons, work_cons]
    omega

theorem length_le_work (h : ∀ y ∈ ys, ¬ Before y chunk) : ys.length ≤ work chunk ys := by
  induction ys with
  | nil => simp
  | cons y ys ih =>
    have hy := weight_pos (h y (by simp))
    have := ih fun z hz => h z (by simp [hz])
    simp only [work_cons, List.length_cons]
    omega

structure Restart (chunk : WriteUnit) (xs xs' : List WriteUnit) : Prop where
  ok : ChunksOk xs'
  less : work chunk xs' < work chunk xs
  clear : Clear chunk xs'
  same : ∀ pos, ¬ chunk.Covers pos → lookup xs' pos = lookup xs pos

structure Piece (p tmp : WriteUnit) : Prop where
  val : p.val = tmp.val
  off : tmp.off ≤ p.off
  start : p.off < tmp.stop
  stop : p.stop ≤ tmp.stop

theorem leftRest_piece (ht : WellFormed tmp) (hlt : tmp.off < chunk.off)
    (hle : chunk.off ≤ tmp.stop) :
    Piece (leftRest chunk tmp) tmp ∧ (leftRest chunk tmp).off = tmp.off ∧
      (leftRest chunk tmp).stop = chunk.off := by
  have := ht.len
  have heq : leftRest chunk tmp = ⟨tmp.val, tmp.off, chunk.off - tmp.off⟩ := by
    rw [leftRest, Nat.mod_eq_of_lt (by unfold Segment.stop at hle; omega)]
  rw [heq]
  refine ⟨⟨rfl, Nat.le_refl _, ?_, ?_⟩, rfl, ?_⟩ <;> simp only [stop_eq] at * <;> omega

theorem rightRest_piece (hc : WellFormed chunk) (ht : WellFormed tmp) (hlt : chunk.stop < tmp.stop)
    (hle : tmp.off ≤ chunk.stop) :
    Piece (rightRest chunk tmp) tmp ∧ (rightRest chunk tmp).off = chunk.stop ∧
      (rightRest chunk tmp).stop = tmp.stop := by
  have := ht.len
  have heq : rightRest chunk tmp = ⟨tmp.val, chunk.stop, tmp.stop - chunk.stop⟩ := by
    rw [rightRest, hc.endOf, ht.endOf, Nat.mod_eq_of_lt (by unfold Segment.stop at *; omega)]
  rw [heq]
  refine ⟨⟨rfl, hle, hlt, ?_⟩, rfl, ?_⟩ <;> simp only [stop_eq] at * <;> omega

theorem Piece.wellFormed (h : Piece p tmp) (ht : WellFormed tmp) : WellFormed p := by
  have := h.off
  have := h.stop
  have := ht.len
  have := ht.stop
  unfold Segment.stop at *
  exact ⟨by omega, by omega⟩

variable {xs ys ys' ps : List WriteUnit}

theorem restart_erase (hok : ChunksOk (xs ++ tmp :: ys)) (hclear : Clear chunk (xs ++ tmp :: ys))
    (h : Meets.encompasses.Rel chunk tmp) : Restart chunk (xs ++ tmp :: ys) (xs ++ ys) where
  ok := hok.sublist (by simp)
  less := by
    have hw : 1 ≤ weight chunk tmp := weight_pos (by simp only [Meets.Rel, Before] at *; omega)
    simp only [work_append, work_cons]
    omega
  clear := by
    refine hclear.imp id fun hn => ?_
    rw [lookup_eq_none] at hn ⊢
    intro x hx
    simp only [List.mem_append] at hx
    exact hn x (by simp only [List.mem_append, List.mem_cons]; exact hx.imp id .inr)
  same pos hpos := by
    have hsep : Separated (xs ++ [] ++ ys) := by simpa using hok.separated.around.2.2
    have hcov : tmp.Covers pos ↔ ∃ p ∈ ([] : List WriteUnit), p.Covers pos := by
      simp only [List.not_mem_nil, false_and, exists_false, iff_false]
      simp only [Covers, Meets.Rel] at *
      omega
    have := lookup_replace hok.separated hsep (List.Sublist.refl ys) (fun y hy _ => hy) (by simp)
      hcov
    simpa using this

theorem restart_pieces (hok : ChunksOk (xs ++ tmp :: ys)) (hok' : ChunksOk (xs ++ ps ++ ys'))
    (hlen : 0 < chunk.len) (hsub : ys'.Sublist ys) (hkeep : ∀ y ∈ ys, 0 < y.len → y ∈ ys')
    (hless : work chunk ps < weight chunk tmp) (hval : ∀ p ∈ ps, p.val = tmp.val)
    (hcov : ∀ pos, ¬ chunk.Covers pos → (tmp.Covers pos ↔ ∃ p ∈ ps, p.Covers pos)) :
    Restart chunk (xs ++ tmp :: ys) (xs ++ ps ++ ys') where
  ok := hok'
  less := by
    have := work_sublist chunk hsub
    simp only [work_append, work_cons]
    omega
  clear := .inl hlen
  same pos hpos := lookup_replace hok.separated hok'.separated hsub hkeep hval (hcov pos hpos)

theorem Piece.between (h : Piece p tmp) (hok : ChunksOk (xs ++ tmp :: ys)) :
    (∀ x ∈ xs, Before x p) ∧ ∀ y ∈ ys, Before p y := by
  obtain ⟨hxs, hys, -⟩ := hok.separated.around
  obtain ⟨-, hoff, hstart, hstop⟩ := h
  constructor
  · intro x hx
    have := hxs x hx
    unfold Before at *
    omega
  · intro y hy
    have := hys y hy
    unfold Before at *
    omega

theorem Meets.Rel.overlap {how : Meets} (h : how.Rel chunk tmp) (hne : how ≠ .encompasses)
    (hclear : 0 < chunk.len ∨ ¬ tmp.Covers chunk.off) :
    0 < chunk.len ∧ chunk.off < tmp.stop ∧ weight chunk tmp = 2 := by
  have hlen : 0 < chunk.len ∧ chunk.off < tmp.stop ∧ tmp.off < chunk.stop := by
    unfold Covers at hclear
    cases how <;> simp only [Meets.Rel, stop_eq, ne_eq, not_true_eq_false] at * <;> omega
  refine ⟨hlen.1, hlen.2.1, weight_eq_two ?_ ?_⟩ <;> unfold Before <;> omega

theorem behind_length_le (hok : ChunksOk (xs ++ tmp :: ys)) (hlt : chunk.off < tmp.stop) :
    ys.length ≤ work chunk ys := by
  refine length_le_work fun y hy hb => ?_
  have := (hok.separated.around).2.1 y hy
  unfold Before at *
  omega

theorem insertAt_piece (rb : Rebalance WriteUnit) (hp : Piece p tmp)
    (hok : ChunksOk (xs ++ tmp :: ys)) (hin : t.inorder = xs ++ ys) (hfuel : ys.length < fuel) :
    ∃ t' ys', insertAt rb fuel 2 p t = .ok t' ∧ t'.inorder = xs ++ [p] ++ ys' ∧
      ChunksOk (xs ++ [p] ++ ys') ∧ ys'.Sublist ys ∧ ∀ y ∈ ys, 0 < y.len → y ∈ ys' := by
  have hwf := hp.wellFormed (hok.wellFormed tmp (by simp))
  have hok₀ : ChunksOk (xs ++ ys) := hok.sublist (by simp)
  obtain ⟨hxs, hys⟩ := hp.between hok
  obtain ⟨t', ys', hins, hin', hsub, hkeep⟩ := insertAt_between rb (Nat.le_refl 2)
    hwf hok₀ hin hxs hys hfuel
  have hok' := (hok₀.sublist (hsub.append_left xs)).insert hwf hxs fun y hy => hys y (hsub.subset hy)
  exact ⟨t', ys', hins, by simpa using hin', by simpa using hok', hsub, hkeep⟩

theorem trim_spec (rb : Rebalance WriteUnit) (hc : WellFormed chunk) (hok : ChunksOk (xs ++ tmp :: ys))
    (hclear : Clear chunk (xs ++ tmp :: ys)) (hrel : how.Rel chunk tmp)
    (hin : t.inorder = xs ++ ys) (hfuel : work chunk (xs ++ tmp :: ys) ≤ fuel) :
    ∃ t', trim (insertAt rb fuel 2) chunk tmp how t = .ok t' ∧
      Restart chunk (xs ++ tmp :: ys) t'.inorder := by
  by_cases hne : how = .encompasses
  · subst hne
    exact ⟨t, rfl, hin ▸ restart_erase hok hclear hrel⟩
  have ht : WellFormed tmp := hok.wellFormed tmp (by simp)
  have hclear' : 0 < chunk.len ∨ ¬ tmp.Covers chunk.off :=
    hclear.imp id fun hn => lookup_eq_none.mp hn tmp (by simp)
  obtain ⟨hlen, hlt, hw⟩ := hrel.overlap hne hclear'
  have hbehind := behind_length_le hok hlt
  simp only [work_append, work_cons] at hfuel
  have hleft (h : tmp.off < chunk.off) : weight chunk (leftRest chunk tmp) = 0 := by
    obtain ⟨-, hoff, hstop⟩ := leftRest_piece ht h (by omega)
    exact weight_eq_zero (by unfold Before; omega)
  have hright (h : chunk.stop < tmp.stop) (h' : tmp.off ≤ chunk.stop) :
      weight chunk (rightRest chunk tmp) ≤ 1 := by
    obtain ⟨-, hoff, hstop⟩ := rightRest_piece hc ht h h'
    exact weight_le_one (by unfold Before stop at *; omega)
  cases how with
  | encompasses => exact absurd rfl hne
  | rightStraddle =>
    obtain ⟨h₁, h₂, h₃⟩ := hrel
    obtain ⟨hp, hoff, hstop⟩ := leftRest_piece ht h₁ (by omega)
    obtain ⟨t', ys', hins, hin', hok', hsub, hkeep⟩ := insertAt_piece rb hp hok hin
      (show ys.length < fuel by omega)
    refine ⟨t', hins, hin' ▸ restart_pieces hok hok' hlen hsub hkeep ?_ (by simp [hp.val]) ?_⟩
    · simp [hleft h₁, hw]
    · intro pos hpos
      simp only [List.mem_singleton, exists_eq_left, Covers] at *
      omega
  | leftStraddle =>
    obtain ⟨h₁, h₂, h₃⟩ := hrel
    obtain ⟨hp, hoff, hstop⟩ := rightRest_piece hc ht h₃ (by omega)
    obtain ⟨t', ys', hins, hin', hok', hsub, hkeep⟩ := insertAt_piece rb hp hok hin
      (show ys.length < fuel by omega)
    refine ⟨t', hins, hin' ▸ restart_pieces hok hok' hlen hsub hkeep ?_ (by simp [hp.val]) ?_⟩
    · have := hright h₃ (by omega)
      simp only [work_cons, work_nil]
      omega
    · intro pos hpos
      simp only [List.mem_singleton, exists_eq_left, Covers] at *
      omega
  | inMiddle =>
    obtain ⟨h₁, h₂⟩ := hrel
    have hcs : chunk.stop = chunk.off + chunk.len := rfl
    obtain ⟨hp₁, hoff₁, hstop₁⟩ := leftRest_piece ht h₁ (by omega)
    obtain ⟨hp₂, hoff₂, hstop₂⟩ := rightRest_piece hc ht h₂ (by omega)
    obtain ⟨t₁, ys₁, hins₁, hin₁, hok₁, hsub₁, hkeep₁⟩ := insertAt_piece rb hp₁ hok
      hin (show ys.length < fuel by omega)
    -- the second piece comes behind the first, in front of what is behind `tmp`
    obtain ⟨hxs₂, hys₂⟩ := hp₂.between hok
    have hwf₂ := hp₂.wellFormed ht
    have hfront : ∀ x ∈ xs ++ [leftRest chunk tmp], Before x (rightRest chunk tmp) := by
      intro x hx
      rcases List.mem_append.mp hx with hx | hx
      · exact hxs₂ x hx
      · rw [List.mem_singleton.mp hx]
        unfold Before
        omega
    have hback : ∀ y ∈ ys₁, Before (rightRest chunk tmp) y := fun y hy => hys₂ y (hsub₁.subset hy)
    obtain ⟨t₂, ys₂, hins₂, hin₂, hsub₂, hkeep₂⟩ := insertAt_between rb (Nat.le_refl 2)
      hwf₂ hok₁ hin₁ hfront hback (show ys₁.length < fuel by have := hsub₁.length_le; omega)
    have hok₂ := (hok₁.sublist (hsub₂.append_left _)).insert hwf₂ hfront
      fun y hy => hback y (hsub₂.subset hy)
    have hlist : xs ++ [leftRest chunk tmp] ++ rightRest chunk tmp :: ys₂ =
        xs ++ [leftRest chunk tmp, rightRest chunk tmp] ++ ys₂ := by simp
    rw [hlist] at hin₂ hok₂
    refine ⟨t₂, by simp only [trim, hins₁, bind, Except.bind]; exact hins₂,
      hin₂ ▸ restart_pieces hok hok₂ hlen (hsub₂.trans hsub₁)
        (fun y hy hpos => hkeep₂ y (hkeep₁ y hy hpos) hpos) ?_ (by simp [hp₁.val, hp₂.val]) ?_⟩
    · have := hright h₂ (by omega)
      simp only [work_cons, work_nil, hleft h₁]
      omega
    · intro pos hpos
      simp only [List.mem_cons, List.not_mem_nil, or_false, exists_eq_or_imp, exists_eq_left,
        Covers] at *
      omega

theorem insertAt_spec (rb : Rebalance WriteUnit) (hc : WellFormed chunk) (hok : ChunksOk t.inorder)
    (hclear : Clear chunk t.inorder) (hfuel : work chunk t.inorder < fuel) :
    ∃ t', insertAt rb fuel 1 chunk t = .ok t' ∧ ChunksOk t'.inorder ∧
      lookup t'.inorder = override (lookup t.inorder) chunk := by
  induction fuel generalizing t with
  | zero => omega
  | succ fuel ih =>
    rw [insertAt, if_neg (by omega)]
    cases hs : search chunk t [] with
    | place path =>
      obtain ⟨hpath, hb, ha⟩ := search_root hs hc hok hclear
      rw [hpath] at hok
      refine ⟨_, rfl, ?_, ?_⟩
      · rw [rb.inorder_insert]
        exact hok.insert hc hb ha
      · rw [rb.inorder_insert, hpath]
        exact lookup_insert hok.separated hb ha
    | node how path color l tmp r =>
      obtain ⟨hpath, hm⟩ := search_inorder hs
      simp only [RbPath.before_nil, RbPath.after_nil, List.nil_append, List.append_nil] at hpath
      rw [hpath] at hok hclear hfuel
      have hrel := meets_rel hc (hok.wellFormed tmp (by simp)) hm
      obtain ⟨t₁, htrim, hrestart⟩ := trim_spec rb (t := rb.erase path color l r) hc hok
        hclear hrel (by rw [rb.inorder_erase, List.append_assoc]) (Nat.lt_succ_iff.mp hfuel)
      have hless := hrestart.less
      obtain ⟨t', hins, hok', hlook⟩ := ih hrestart.ok hrestart.clear (by omega)
      refine ⟨t', by simp only [htrim, bind, Except.bind]; exact hins, hok', ?_⟩
      rw [hlook, hpath]
      funext pos
      unfold override
      split
      · rfl
      · next hpos => exact hrestart.same pos hpos

theorem insertChunk_spec (rb : Rebalance WriteUnit) (hc : WellFormed chunk) (hok : ChunksOk t.inorder)
    (hclear : Clear chunk t.inorder) :
    ∃ t', insertChunk rb chunk t = .ok t' ∧ ChunksOk t'.inorder ∧
      lookup t'.inorder = override (lookup t.inorder) chunk := by
  refine insertAt_spec rb hc hok hclear ?_
  have := work_le chunk t.inorder
  rw [RbTree.length_inorder] at this
  omega

end

-- ---------------------------------------------------------------------------
-- Runs
-- ---------------------------------------------------------------------------

def initMap (size : Nat) : Nat → Option UInt8 := override (fun _ => none) (initChunk size)

/-- What the chunks mean: each is written over what was there before. -/
def writtenMap (size : Nat) (chunks : List WriteUnit) : Nat → Option UInt8 :=
  chunks.foldl override (initMap size)

/-- Every chunk of the run has a length or an offset that nothing covers yet. -/
def ClearRun (f : Nat → Option UInt8) : List WriteUnit → Prop
  | [] => True
  | chunk :: chunks => (0 < chunk.len ∨ f chunk.off = none) ∧ ClearRun (override f chunk) chunks

/-- In order the chunks are sorted and share no byte. -/
structure InOrder (t : RbTree WriteUnit) : Prop where
  sorted : t.inorder.Pairwise fun x y => x.off ≤ y.off
  disjoint : t.inorder.Pairwise fun x y => ∀ pos, ¬ (x.Covers pos ∧ y.Covers pos)

theorem ChunksOk.inOrder {t : RbTree WriteUnit} (h : ChunksOk t.inorder) : InOrder t where
  sorted := h.separated.imp fun hb => Nat.le_of_lt hb.2
  disjoint := h.separated.imp fun hb _ hc => hb.not_covers_both hc.1 hc.2

section
variable (rb : Rebalance WriteUnit) {t : RbTree WriteUnit} {chunks : List WriteUnit}

theorem insertChunks_spec (hwf : ∀ chunk ∈ chunks, WellFormed chunk) (hok : ChunksOk t.inorder)
    (hclear : ClearRun (lookup t.inorder) chunks) :
    ∃ t', chunks.foldlM (fun t chunk => insertChunk rb chunk t) t = .ok t' ∧
      ChunksOk t'.inorder ∧ lookup t'.inorder = chunks.foldl override (lookup t.inorder) := by
  induction chunks generalizing t with
  | nil => exact ⟨t, rfl, hok, rfl⟩
  | cons chunk chunks ih =>
    obtain ⟨t₁, hins, hok₁, hlook₁⟩ := insertChunk_spec rb (hwf chunk (by simp)) hok hclear.1
    obtain ⟨t', hrun, hok', hlook⟩ := ih (fun c hc => hwf c (by simp [hc])) hok₁
      (hlook₁ ▸ hclear.2)
    refine ⟨t', ?_, hok', by rw [hlook, hlook₁, List.foldl_cons]⟩
    rw [List.foldlM_cons, hins]
    exact hrun

theorem initTree_spec (size : Nat) :
    ∃ t, initTree rb size = .ok t ∧ ChunksOk t.inorder ∧ lookup t.inorder = initMap size := by
  have hlen : size % 2 ^ 32 < 2 ^ 32 := Nat.mod_lt _ (by decide)
  refine insertChunk_spec rb (t := .nil) ⟨hlen, ?_⟩ ⟨.nil, by simp⟩ (.inr rfl)
  simp only [initChunk]
  omega

theorem buildTree_spec (size : Nat) (hwf : ∀ chunk ∈ chunks, WellFormed chunk)
    (hclear : ClearRun (initMap size) chunks) :
    ∃ t, buildTree rb size chunks = .ok t ∧ ChunksOk t.inorder ∧
      lookup t.inorder = writtenMap size chunks := by
  obtain ⟨t₀, hinit, hok₀, hlook₀⟩ := initTree_spec rb size
  obtain ⟨t, hrun, hok, hlook⟩ := insertChunks_spec rb hwf hok₀ (hlook₀ ▸ hclear)
  refine ⟨t, ?_, hok, by rw [hlook, hlook₀, writtenMap]⟩
  rw [buildTree, hinit]
  exact hrun

end

/-- After any run of inserts: the tree exists, so no call aborted, it is in
order, and it says what the chunks say. The next insert overrides its map. -/
def RunOk (rb : Rebalance WriteUnit) (size : Nat) (chunks : List WriteUnit)
    (Next : (Nat → Option UInt8) → WriteUnit → Prop) : Prop :=
  ∃ t, buildTree rb size chunks = .ok t ∧ InOrder t ∧
    lookup t.inorder = writtenMap size chunks ∧
    ∀ chunk, WellFormed chunk → Next (lookup t.inorder) chunk →
      ∃ t', insertChunk rb chunk t = .ok t' ∧ InOrder t' ∧
        lookup t'.inorder = override (lookup t.inorder) chunk

/-- Chunks that are not empty where another one is written keep the tree right. -/
theorem insertChunk_runOk (rb : Rebalance WriteUnit) (size : Nat) (chunks : List WriteUnit)
    (hwf : ∀ chunk ∈ chunks, WellFormed chunk) (hclear : ClearRun (initMap size) chunks) :
    RunOk rb size chunks fun f chunk => 0 < chunk.len ∨ f chunk.off = none := by
  obtain ⟨t, hbuild, hok, hlook⟩ := buildTree_spec rb size hwf hclear
  refine ⟨t, hbuild, hok.inOrder, hlook, fun chunk hc hnext => ?_⟩
  obtain ⟨t', hins, hok', hlook'⟩ := insertChunk_spec rb hc hok hnext
  exact ⟨t', hins, hok'.inOrder, hlook'⟩

theorem insertChunk_runOk_overlaps :
    ∃ t, buildTree kernelRb 100 [⟨65, 10, 50⟩, ⟨66, 30, 10⟩, ⟨67, 0, 20⟩] = .ok t ∧ InOrder t := by
  obtain ⟨t, ht, ho, -⟩ := insertChunk_runOk kernelRb 100 [⟨65, 10, 50⟩, ⟨66, 30, 10⟩, ⟨67, 0, 20⟩]
    (by simp only [List.forall_mem_cons]; exact ⟨⟨by decide, by decide⟩, ⟨by decide, by decide⟩,
      ⟨by decide, by decide⟩, by simp⟩)
    ⟨.inl (by decide), .inl (by decide), .inl (by decide), trivial⟩
  exact ⟨t, ht, ho⟩

/-- An empty chunk at offset 0 of a file of 100 bytes goes behind the chunk that
begins there, and to the root when the next one comes. A chunk at 50 then turns
right at it and is linked beside the first, which covers 50 too. -/
theorem emptyChunk_overlap :
    ¬ RunOk kernelRb 100 [⟨65, 0, 0⟩, ⟨66, 100, 10⟩, ⟨67, 50, 10⟩] fun _ _ => True := by
  rintro ⟨t, ht, ho, -⟩
  have : buildTree kernelRb 100 [⟨65, 0, 0⟩, ⟨66, 100, 10⟩, ⟨67, 50, 10⟩] =
      .ok (.node .black (.node .black .nil ⟨0, 0, 100⟩ .nil) ⟨65, 0, 0⟩
        (.node .black (.node .red .nil ⟨67, 50, 10⟩ .nil) ⟨66, 100, 10⟩ .nil)) := by decide
  rw [this] at ht
  cases ht
  have hd := ho.disjoint
  simp only [RbTree.inorder, List.nil_append, List.singleton_append, List.pairwise_cons] at hd
  exact hd.1 ⟨67, 50, 10⟩ (by simp) 50 ⟨by decide, by decide⟩

end Ocfs2Test.Holes
