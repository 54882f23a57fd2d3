import Mathlib

/-!
# Binary search trees with a place

A node is reached from the root by a path of frames, the last step first. The
path says what comes before and after the place in order. `Rebalance` is what a
user of the kernel's rbtree relies on: taking out the node at a place, or
linking one there, keeps the order of all others, however the tree is turned.
`kernelRb` is the rebalancing of the kernel itself.
-/

namespace Lib

inductive Color
  | red
  | black
  deriving DecidableEq, Repr

inductive RbTree (α : Type u)
  | nil
  | node (color : Color) (left : RbTree α) (val : α) (right : RbTree α)
  deriving DecidableEq, Repr

/-- One step down: to the left or to the right child of a node. -/
inductive Frame (α : Type u)
  | left (color : Color) (val : α) (right : RbTree α)
  | right (left : RbTree α) (color : Color) (val : α)

namespace RbTree

def inorder : RbTree α → List α
  | nil => []
  | node _ l x r => l.inorder ++ x :: r.inorder

def size : RbTree α → Nat
  | nil => 0
  | node _ l _ r => l.size + r.size + 1

def Red : RbTree α → Bool
  | node .red _ _ _ => true
  | _ => false

def paint (color : Color) : RbTree α → RbTree α
  | nil => nil
  | node _ l x r => node color l x r

@[simp] theorem inorder_nil : (nil : RbTree α).inorder = [] := rfl

@[simp] theorem inorder_node (color : Color) (l : RbTree α) (x : α) (r : RbTree α) :
    (node color l x r).inorder = l.inorder ++ x :: r.inorder := rfl

@[simp] theorem inorder_paint (t : RbTree α) : (t.paint color).inorder = t.inorder := by
  cases t <;> rfl

theorem length_inorder (t : RbTree α) : t.inorder.length = t.size := by
  induction t with
  | nil => rfl
  | node _ l x r ihl ihr =>
    simp only [inorder_node, List.length_append, List.length_cons, ihl, ihr, size]
    omega

end RbTree

namespace Frame

def fill (t : RbTree α) : Frame α → RbTree α
  | left color x r => .node color t x r
  | right l color x => .node color l x t

def before : Frame α → List α
  | left _ _ _ => []
  | right l _ x => l.inorder ++ [x]

def after : Frame α → List α
  | left _ x r => x :: r.inorder
  | right _ _ _ => []

def color : Frame α → Color
  | left c _ _ => c
  | right _ c _ => c

@[simp] theorem inorder_fill (t : RbTree α) (f : Frame α) :
    (f.fill t).inorder = f.before ++ t.inorder ++ f.after := by
  cases f <;> simp [fill, before, after]

def sibling : Frame α → RbTree α
  | left _ _ r => r
  | right l _ _ => l

end Frame

/-- The frames from a place up to the root. -/
abbrev RbPath (α : Type u) := List (Frame α)

namespace RbPath

def fill (t : RbTree α) : RbPath α → RbTree α
  | [] => t
  | f :: fs => fill (f.fill t) fs

def before : RbPath α → List α
  | [] => []
  | f :: fs => before fs ++ f.before

def after : RbPath α → List α
  | [] => []
  | f :: fs => f.after ++ after fs

@[simp] theorem before_nil : before ([] : RbPath α) = [] := rfl

@[simp] theorem after_nil : after ([] : RbPath α) = [] := rfl

@[simp] theorem before_cons (f : Frame α) (fs : RbPath α) :
    before (f :: fs) = before fs ++ f.before := rfl

@[simp] theorem after_cons (f : Frame α) (fs : RbPath α) :
    after (f :: fs) = f.after ++ after fs := rfl

theorem before_append (p q : RbPath α) : before (p ++ q) = before q ++ before p := by
  induction p with
  | nil => simp
  | cons f fs ih => simp [ih]

theorem after_append (p q : RbPath α) : after (p ++ q) = after p ++ after q := by
  induction p with
  | nil => simp
  | cons f fs ih => simp [ih]

@[simp] theorem inorder_fill (t : RbTree α) (path : RbPath α) :
    (path.fill t).inorder = path.before ++ t.inorder ++ path.after := by
  induction path generalizing t with
  | nil => simp [fill]
  | cons f fs ih => simp [fill, ih]

end RbPath

/-- `rb_erase` and `rb_insert_color` with the order they keep. -/
structure Rebalance (α : Type u) where
  /-- The tree after `rb_erase` of the node at a path. -/
  erase : RbPath α → Color → RbTree α → RbTree α → RbTree α
  /-- The tree after `rb_link_node` at a path and `rb_insert_color`. -/
  insert : RbPath α → α → RbTree α
  inorder_erase : ∀ path color l r,
    (erase path color l r).inorder = path.before ++ l.inorder ++ r.inorder ++ path.after
  inorder_insert : ∀ path x, (insert path x).inorder = path.before ++ x :: path.after

-- ---------------------------------------------------------------------------
-- The kernel's rebalancing
-- ---------------------------------------------------------------------------

namespace KernelRb

open RbTree RbPath

/-- `rb_insert_color` above the red node `t`. -/
def insertColor (t : RbTree α) : RbPath α → RbTree α
  | [] => t.paint .black
  | [f] => (f.fill t).paint .black
  | f :: g :: path =>
    if f.color = .black then (RbPath.fill t (f :: g :: path)).paint .black
    else if g.sibling.Red then
      -- a red uncle: both of the parent's generation turn black
      match g with
      | .left _ y u => insertColor (node .red ((f.fill t).paint .black) y (u.paint .black)) path
      | .right u _ y => insertColor (node .red (u.paint .black) y ((f.fill t).paint .black)) path
    else
      match f, g with
      | .left _ x b, .left _ y c =>
        (RbPath.fill (node .black t x (node .red b y c)) path).paint .black
      | .right a _ x, .right u _ y =>
        (RbPath.fill (node .black (node .red u y a) x t) path).paint .black
      | .right a _ x, .left _ y c =>
        match t with
        | nil => RbPath.fill t (f :: g :: path)
        | node _ b z d =>
          (RbPath.fill (node .black (node .red a x b) z (node .red d y c)) path).paint .black
      | .left _ x b, .right u _ y =>
        match t with
        | nil => RbPath.fill t (f :: g :: path)
        | node _ a z d =>
          (RbPath.fill (node .black (node .red u y a) z (node .red d x b)) path).paint .black

/-- One round of `__rb_erase_color` with a black sibling: the new subtree, and
whether it still lacks a black node. `t` is the left child. -/
def fixLeft (color : Color) (t : RbTree α) (x : α) (w : RbTree α) : RbTree α × Bool :=
  match w with
  | nil => (node color t x nil, true)
  | node _ wl y wr =>
    if wl.Red = false ∧ wr.Red = false then (node color t x (node .red wl y wr), true)
    else if wr.Red then (node color (node .black t x wl) y (wr.paint .black), false)
    else
      match wl with
      | nil => (node color t x w, false)
      | node _ a z b => (node color (node .black t x a) z (node .black b y wr), false)

/-- The mirror image, with `t` the right child. -/
def fixRight (color : Color) (w : RbTree α) (x : α) (t : RbTree α) : RbTree α × Bool :=
  match w with
  | nil => (node color nil x t, true)
  | node _ wl y wr =>
    if wl.Red = false ∧ wr.Red = false then (node color (node .red wl y wr) x t, true)
    else if wl.Red then (node color (wl.paint .black) y (node .black wr x t), false)
    else
      match wr with
      | nil => (node color w x t, false)
      | node _ a z b => (node color (node .black wl y a) z (node .black b x t), false)

/-- `__rb_erase_color`: the subtree `t` at the path lacks a black node. -/
def eraseColor (t : RbTree α) : RbPath α → RbTree α
  | [] => t.paint .black
  | f :: path =>
    if t.Red then RbPath.fill (t.paint .black) (f :: path)
    else
      match f with
      | .left _ x (node .red wl y wr) =>
        -- a red sibling goes up; below it the parent is red and can be painted
        let (u, short) := fixLeft .red t x wl
        RbPath.fill (node .black (if short then u.paint .black else u) y wr) path
      | .left color x w =>
        let (u, short) := fixLeft color t x w
        if short then eraseColor u path else RbPath.fill u path
      | .right (node .red wl y wr) _ x =>
        let (u, short) := fixRight .red wr x t
        RbPath.fill (node .black wl y (if short then u.paint .black else u)) path
      | .right w color x =>
        let (u, short) := fixRight color w x t
        if short then eraseColor u path else RbPath.fill u path

def eraseNode (color : Color) (child : RbTree α) (path : RbPath α) : RbTree α :=
  if color = .black then eraseColor child path else path.fill child

/-- The leftmost node of a non-empty tree: its value, colour, right child and
the path to it. -/
def leftmost (color : Color) (x : α) (r : RbTree α) : RbTree α → RbPath α → α × Color × RbTree α × RbPath α
  | nil, path => (x, color, r, path)
  | node c l y s, path => leftmost c y s l (.left color x r :: path)

/-- `rb_erase`: a node with two children gives its place to its successor. -/
def erase (path : RbPath α) (color : Color) (l r : RbTree α) : RbTree α :=
  match l, r with
  | nil, r => eraseNode color r path
  | l, nil => eraseNode color l path
  | l, node c rl x rr =>
    let (y, c', child, below) := leftmost c x rr rl []
    eraseNode c' child (below ++ .right l color y :: path)

-- Every turn keeps the order, whatever the colours are.

theorem inorder_insertColor (t : RbTree α) (path : RbPath α) :
    (insertColor t path).inorder = RbPath.before path ++ t.inorder ++ RbPath.after path := by
  fun_induction insertColor t path
  all_goals simp_all [Frame.before, Frame.after]

theorem inorder_fixLeft (h : fixLeft color t x w = (u, short)) :
    u.inorder = t.inorder ++ x :: w.inorder := by
  unfold fixLeft at h
  repeat' split at h
  all_goals
    cases h
    simp

theorem inorder_fixRight (h : fixRight color w x t = (u, short)) :
    u.inorder = w.inorder ++ x :: t.inorder := by
  unfold fixRight at h
  repeat' split at h
  all_goals
    cases h
    simp

theorem inorder_paint_if (short : Bool) (u : RbTree α) :
    (if short then u.paint .black else u).inorder = u.inorder := by
  cases short <;> simp

theorem inorder_eraseColor (t : RbTree α) (path : RbPath α) :
    (eraseColor t path).inorder = RbPath.before path ++ t.inorder ++ RbPath.after path := by
  fun_induction eraseColor t path
  all_goals simp_all [Frame.before, Frame.after, inorder_paint_if]
  case case3 | case4 | case5 => simp [inorder_fixLeft ‹fixLeft _ _ _ _ = _›]
  case case6 | case7 | case8 => simp [inorder_fixRight ‹fixRight _ _ _ _ = _›]

theorem inorder_eraseNode (color : Color) (child : RbTree α) (path : RbPath α) :
    (eraseNode color child path).inorder =
      RbPath.before path ++ child.inorder ++ RbPath.after path := by
  unfold eraseNode
  split
  · exact inorder_eraseColor child path
  · simp

theorem inorder_leftmost (h : leftmost color x r t path = (y, c, child, below)) :
    RbPath.before below = RbPath.before path ∧
      y :: (child.inorder ++ RbPath.after below) = t.inorder ++ x :: r.inorder ++ RbPath.after path := by
  induction t generalizing color x r path with
  | nil =>
    cases h
    simp
  | node c' l z s ihl =>
    have := ihl h
    simpa [Frame.before, Frame.after] using this

theorem inorder_erase (path : RbPath α) (color : Color) (l r : RbTree α) :
    (erase path color l r).inorder =
      RbPath.before path ++ l.inorder ++ r.inorder ++ RbPath.after path := by
  unfold erase
  split
  · simp [inorder_eraseNode]
  · simp [inorder_eraseNode]
  · next c rl x rr hne =>
    obtain ⟨⟨y, c', child, below⟩, h⟩ : ∃ z, leftmost c x rr rl [] = z := ⟨_, rfl⟩
    obtain ⟨hb, ha⟩ := inorder_leftmost h
    simp only [before_nil, after_nil, List.append_nil] at hb ha
    simp only [h, inorder_eraseNode, before_append, after_append, hb]
    simp [Frame.before, Frame.after, ← ha]

end KernelRb

def kernelRb : Rebalance α where
  erase := KernelRb.erase
  insert path x := KernelRb.insertColor (.node .red .nil x .nil) path
  inorder_erase := KernelRb.inorder_erase
  inorder_insert path x := by simp [KernelRb.inorder_insertColor]

end Lib
