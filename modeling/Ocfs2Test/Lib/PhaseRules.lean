import Ocfs2Test.Lib.Phases

/-!
# Rules for phases

`M.Triple F script F'` says of ranks that have `script` to do, in a store of `F`, that
none fails, that some rank can always go on, and that they leave a store of `F'`. A
list of such phases neither fails nor deadlocks (`Seq.correct`), and can always come
to its end (`Seq.reachable_append`).
-/

namespace Lib.Phased

variable {ι : Type v} {Op : Type w} {σ : Type u} [DecidableEq ι]

structure Invariant (M : Phased ι Op σ) (F : σ → Prop) (script : ι → List Op) (F' : σ → Prop)
    (I : (ι → List Op) → σ → Prop) : Prop where
  start : ∀ t, F t → I script t
  step : ∀ todo t p op ops, I todo t → todo p = op :: ops →
    (∃ t', M.exec p op t = .next t' ∧ I (Function.update todo p ops) t') ∨
      M.exec p op t = .blocked
  live : ∀ todo t, I todo t → (∃ p, todo p ≠ []) →
    ∃ p op ops t', todo p = op :: ops ∧ M.exec p op t = .next t'
  done : ∀ t, I (fun _ => []) t → F' t

def Triple (M : Phased ι Op σ) (F : σ → Prop) (script : ι → List Op) (F' : σ → Prop) : Prop :=
  ∃ I, M.Invariant F script F' I

variable {M : Phased ι Op σ} {Init F F' : σ → Prop} {script todo : ι → List Op} {t : σ}
  {s : State ι Op σ} {I : (ι → List Op) → σ → Prop} {p : ι} {op : Op} {ops : List Op} {n k : Nat}

/-- A program of phases one behind the other. -/
theorem correct [Nonempty ι] {F : Nat → σ → Prop} (hinit : ∀ t, Init t → F 0 t)
    (htriples : ∀ k ≤ M.last, M.Triple (F k) (M.script k) (F (k + 1)))
    (h : (M.system Init).Reachable s) :
    s.failed = false ∧ ¬ (M.system Init).Deadlocked M.Finished s := by
  choose! J hJ using htriples
  have hplan : M.Plan Init J :=
    { init := fun t ht => (hJ 0 (Nat.zero_le _)).start t (hinit t ht)
      step := fun k todo t p op ops hk => (hJ k hk).step todo t p op ops
      next := fun k t hk hnil => (hJ (k + 1) hk).start t ((hJ k (Nat.le_of_lt hk)).done t hnil) }
  obtain ⟨k, hf⟩ := hplan.reachable h
  exact ⟨hf.running, hplan.not_deadlocked (fun k todo t hk => (hJ k hk).live todo t) h⟩

/-- What the ranks share once all have come to their ends. -/
theorem finished_store [Nonempty ι] {F : Nat → σ → Prop} (hinit : ∀ t, Init t → F 0 t)
    (htriples : ∀ k ≤ M.last, M.Triple (F k) (M.script k) (F (k + 1)))
    (h : (M.system Init).Reachable s) (hfinished : M.Finished s) : F (M.last + 1) s.store := by
  choose! J hJ using htriples
  have hplan : M.Plan Init J :=
    { init := fun t ht => (hJ 0 (Nat.zero_le _)).start t (hinit t ht)
      step := fun k todo t p op ops hk => (hJ k hk).step todo t p op ops
      next := fun k t hk hnil => (hJ (k + 1) hk).start t ((hJ k (Nat.le_of_lt hk)).done t hnil) }
  obtain ⟨k, hf⟩ := hplan.reachable h
  obtain ⟨p⟩ := ‹Nonempty ι›
  have hk : k = M.last := by
    have hle := hf.le_last
    have hp := (hfinished p).1
    rcases hf.near p with hnear | ⟨hnear, -⟩ <;> omega
  subst hk
  have hnil : M.pending s M.last = fun _ => [] := by
    funext q
    rw [pending_eq (hfinished q).1, (hfinished q).2]
  exact (hJ _ le_rfl).done s.store (hnil ▸ hf.holds)

/-- A phase in which `p` has an operation that never comes through is never left. -/
theorem phase_le_of_stuck {K : σ → Prop} (hinit : ∀ t, Init t → K t)
    (hkeep : ∀ q op t t', K t → M.exec q op t = .next t' → K t')
    (hop : op ∈ M.script k p) (hstuck : ∀ t t', K t → M.exec p op t ≠ .next t')
    (h : (M.system Init).Reachable s) :
    (∀ q, s.phase q ≤ k) ∧ (s.phase p = k → op ∈ s.todo p) ∧ K s.store := by
  refine h.invariant
    (P := fun s => (∀ q, s.phase q ≤ k) ∧ (s.phase p = k → op ∈ s.todo p) ∧ K s.store) ?_ ?_
  · rintro s ⟨t, ht, rfl⟩
    refine ⟨fun _ => Nat.zero_le k, fun hk => ?_, hinit t ht⟩
    obtain rfl : 0 = k := hk
    exact hop
  · rintro s s' - ⟨hle, htodo, hK⟩ hstep
    cases hstep with
    | @next q op' ops t hrun hq hexec =>
      refine ⟨hle, fun hk => ?_, hkeep q op' _ _ hK hexec⟩
      rcases Decidable.em (p = q) with rfl | hne
      · have hmem := htodo hk
        rw [hq] at hmem
        simp only [Function.update_self]
        refine (List.mem_cons.mp hmem).resolve_left fun heq => ?_
        exact hstuck _ _ hK (heq ▸ hexec)
      · simp only [Function.update_of_ne hne]
        exact htodo hk
    | fail hrun hq hexec => exact ⟨hle, htodo, hK⟩
    | @pass q hrun hlast hall =>
      have hlt : s.phase q < k := by
        refine Nat.lt_of_le_of_ne (hle q) fun hq => ?_
        rcases hall p with hlater | ⟨hsame, hnil⟩
        · exact absurd (hle p) (by omega)
        · exact absurd (htodo (hsame.trans hq)) (by rw [hnil]; exact List.not_mem_nil)
      refine ⟨fun r => ?_, fun hk => ?_, hK⟩
      · rcases Decidable.em (r = q) with rfl | hne
        · simp only [Function.update_self]
          exact hlt
        · simp only [Function.update_of_ne hne]
          exact hle r
      · rcases Decidable.em (p = q) with rfl | hne
        · simp only [Function.update_self] at hk ⊢
          exact hk ▸ hop
        · simp only [Function.update_of_ne hne] at hk ⊢
          exact htodo hk

-- ---------------------------------------------------------------------------
-- The end of a phase
-- ---------------------------------------------------------------------------

/-- `p` does `ops` while the others wait. -/
theorem reachable_doing {phase : ι → Nat} {todo : ι → List Op} {ops rest : List Op} {t t' : σ}
    (hs : (M.system Init).Reachable ⟨phase, todo, t, false⟩) (htodo : todo p = ops ++ rest)
    (h : M.alone p ops t = some t') :
    (M.system Init).Reachable ⟨phase, Function.update todo p rest, t', false⟩ :=
  hs.steps (steps_alone rfl htodo h)

section
variable [Fintype ι]

def remaining (todo : ι → List Op) : Nat := ∑ p, (todo p).length

theorem remaining_update (htodo : todo p = op :: ops) :
    remaining todo = remaining (Function.update todo p ops) + 1 := by
  have hsum := sum_update todo List.length p ops
  rw [htodo, List.length_cons] at hsum
  simp only [remaining]
  omega

theorem Invariant.steps (h : M.Invariant F script F' I) (hI : I todo t) (k : Nat) :
    ∃ t', F' t' ∧ Relation.ReflTransGen M.Step ⟨fun _ => k, todo, t, false⟩
      ⟨fun _ => k, fun _ => [], t', false⟩ := by
  induction hn : remaining todo generalizing todo t with
  | zero =>
    have hnil : todo = fun _ => [] := by
      funext q
      exact List.length_eq_zero_iff.mp (Finset.sum_eq_zero_iff.mp hn q (Finset.mem_univ q))
    subst hnil
    exact ⟨t, h.done t hI, .refl⟩
  | succ n ih =>
    have hsome : ∃ p, todo p ≠ [] := by
      by_contra hnone
      push Not at hnone
      simp [remaining, hnone] at hn
    obtain ⟨p, op, ops, t₁, htodo, hexec⟩ := h.live todo t hI hsome
    have hI₁ : I (Function.update todo p ops) t₁ := by
      rcases h.step todo t p op ops hI htodo with ⟨t₂, hexec₂, hI₂⟩ | hblocked
      · cases hexec.symm.trans hexec₂
        exact hI₂
      · cases hexec.symm.trans hblocked
    have hless := remaining_update htodo
    obtain ⟨t', hF', hsteps⟩ := ih hI₁ (by omega)
    exact ⟨t', hF', .head (.next rfl htodo hexec) hsteps⟩

/-- Some run comes to phase `n`. -/
theorem reachable_atPhase {F : Nat → σ → Prop} (ht : Init t) (hF : F 0 t) (hn : n ≤ M.last)
    (htriples : ∀ k < n, M.Triple (F k) (M.script k) (F (k + 1))) :
    ∃ t', (M.system Init).Reachable (M.atPhase n t') ∧ F n t' := by
  induction n with
  | zero => exact ⟨t, .init ⟨t, ht, rfl⟩, hF⟩
  | succ n ih =>
    obtain ⟨t₁, hs, hF₁⟩ := ih (Nat.le_of_succ_le hn) fun k hk =>
      htriples k (Nat.lt_succ_of_lt hk)
    obtain ⟨I, hI⟩ := htriples n (Nat.lt_succ_self n)
    obtain ⟨t₂, hF₂, hsteps⟩ := hI.steps (hI.start t₁ hF₁) n
    exact ⟨t₂, (hs.steps hsteps).steps (steps_pass hn), hF₂⟩

/-- A phase that no rank can complete ends in a deadlock. -/
theorem exists_deadlocked
    (hstep : ∀ todo t p op ops, I todo t → todo p = op :: ops →
      (∃ t', M.exec p op t = .next t' ∧ I (Function.update todo p ops) t') ∨
        M.exec p op t = .blocked)
    (hunfinished : ∀ todo t, I todo t → ∃ p, todo p ≠ []) (hI : I todo t)
    (hs : (M.system Init).Reachable ⟨fun _ => k, todo, t, false⟩) :
    ∃ s, (M.system Init).Reachable s ∧ (M.system Init).Deadlocked M.Finished s := by
  induction hn : remaining todo using Nat.strong_induction_on generalizing todo t with
  | _ n ih =>
  by_cases hsome : ∃ p op ops t', todo p = op :: ops ∧ M.exec p op t = .next t'
  · obtain ⟨p, op, ops, t', htodo, hexec⟩ := hsome
    have hI' : I (Function.update todo p ops) t' := by
      rcases hstep todo t p op ops hI htodo with ⟨t₂, hexec₂, hI₂⟩ | hblocked
      · cases hexec.symm.trans hexec₂
        exact hI₂
      · cases hexec.symm.trans hblocked
    have hless := remaining_update htodo
    exact ih _ (by omega) hI' (hs.step (.next rfl htodo hexec)) rfl
  · refine ⟨_, hs, fun hfinished => ?_, fun s' hs' => ?_⟩
    · obtain ⟨p, hp⟩ := hunfinished todo t hI
      exact hp (hfinished p).2
    · cases hs' with
      | next hrun htodo hexec => exact hsome ⟨_, _, _, _, htodo, hexec⟩
      | fail hrun htodo hexec =>
        rcases hstep todo t _ _ _ hI htodo with ⟨t', hexec', -⟩ | hblocked
        · cases hexec.symm.trans hexec'
        · cases hexec.symm.trans hblocked
      | pass hrun hlast hall =>
        obtain ⟨q, hq⟩ := hunfinished todo t hI
        rcases hall q with hlt | ⟨-, hnil⟩
        · exact lt_irrefl k hlt
        · exact hq hnil

end

-- ---------------------------------------------------------------------------
-- Rules
-- ---------------------------------------------------------------------------

theorem Triple.mono {F₁ F₁' : σ → Prop} (h : M.Triple F script F') (hpre : ∀ t, F₁ t → F t)
    (hpost : ∀ t, F' t → F₁' t) : M.Triple F₁ script F₁' := by
  obtain ⟨I, hI⟩ := h
  exact ⟨I, fun t ht => hI.start t (hpre t ht), hI.step, hI.live, fun t ht => hpost t (hI.done t ht)⟩

/-- A phase in which no operation changes anything. -/
theorem Triple.readOnly (h : ∀ t, F t → ∀ p, ∀ op ∈ script p, M.exec p op t = .next t) :
    M.Triple F script F := by
  refine ⟨fun todo t => F t ∧ ∀ p, ∀ op ∈ todo p, op ∈ script p, ?_, ?_, ?_, ?_⟩
  · exact fun t ht => ⟨ht, fun p op hop => hop⟩
  · rintro todo t p op ops ⟨ht, hsub⟩ htodo
    have hop : op ∈ todo p := htodo ▸ List.mem_cons_self
    refine .inl ⟨t, h t ht p op (hsub p op hop), ht, fun q op' hop' => ?_⟩
    rcases update_cases (P := fun l => op' ∈ l) hop' with ⟨rfl, hrest⟩ | ⟨-, hq⟩
    · exact hsub q op' (htodo ▸ List.mem_cons_of_mem op hrest)
    · exact hsub q op' hq
  · rintro todo t ⟨ht, hsub⟩ ⟨p, hp⟩
    obtain ⟨op, ops, htodo⟩ := List.exists_cons_of_ne_nil hp
    exact ⟨p, op, ops, t, htodo, h t ht p op (hsub p op (htodo ▸ List.mem_cons_self))⟩
  · exact fun t ht => ht.1

theorem Triple.idle : M.Triple F (fun _ => []) F := .readOnly fun _ _ _ => nofun

/-- A phase in which every rank has one operation, and none disturbs another. -/
theorem Triple.each {G G' : ι → σ → Prop} {f : ι → Op}
    (h : ∀ t p, G p t → ∃ t', M.exec p (f p) t = .next t' ∧ G' p t' ∧
      ∀ q, q ≠ p → (G q t → G q t') ∧ (G' q t → G' q t')) :
    M.Triple (fun t => ∀ p, G p t) (fun p => [f p]) fun t => ∀ p, G' p t := by
  refine ⟨fun todo t => ∀ p, todo p = [f p] ∧ G p t ∨ todo p = [] ∧ G' p t, ?_, ?_, ?_, ?_⟩
  · exact fun t ht p => .inl ⟨rfl, ht p⟩
  · intro todo t p op ops hI htodo
    rcases hI p with ⟨hp, hG⟩ | ⟨hp, -⟩
    · cases hp.symm.trans htodo
      obtain ⟨t', hexec, hG', hothers⟩ := h t p hG
      refine .inl ⟨t', hexec, fun q => ?_⟩
      by_cases hq : q = p
      · subst hq
        exact .inr ⟨Function.update_self .., hG'⟩
      · rw [Function.update_of_ne hq]
        exact (hI q).imp (And.imp_right (hothers q hq).1) (And.imp_right (hothers q hq).2)
    · cases hp.symm.trans htodo
  · rintro todo t hI ⟨p, hp⟩
    obtain ⟨htodo, hG⟩ := (hI p).resolve_right fun hc => hp hc.1
    obtain ⟨t', hexec, -⟩ := h t p hG
    exact ⟨p, f p, [], t', htodo, hexec⟩
  · exact fun t ht p => ((ht p).resolve_left fun hc => by cases hc.1).2

/-- A phase in which each rank changes nothing but its own part of what they share. `next`
is what an operation does to this part, as long as `K` holds of the whole. -/
theorem Triple.separate {V : Type*} {view : ι → σ → V} {v₀ v₁ : ι → V} {K : σ → Prop}
    {next : ι → Op → V → Option V}
    (hexec : ∀ p, ∀ op ∈ script p, ∀ t v, K t → next p op (view p t) = some v →
      ∃ t', M.exec p op t = .next t' ∧ K t' ∧ view p t' = v ∧ ∀ q, q ≠ p → view q t' = view q t)
    (hrun : ∀ p, (script p).foldlM (fun v op => next p op v) (v₀ p) = some (v₁ p)) :
    M.Triple (fun t => K t ∧ ∀ p, view p t = v₀ p) script fun t => K t ∧ ∀ p, view p t = v₁ p := by
  have hhead : ∀ todo t p op ops, K t → (∀ p, todo p <:+ script p ∧
      (todo p).foldlM (fun v op => next p op v) (view p t) = some (v₁ p)) → todo p = op :: ops →
      ∃ t', M.exec p op t = .next t' ∧ K t' ∧ ∀ q, Function.update todo p ops q <:+ script q ∧
        (Function.update todo p ops q).foldlM (fun v op => next q op v) (view q t') =
          some (v₁ q) := by
    intro todo t p op ops hK hI htodo
    obtain ⟨hsuffix, hrest⟩ := hI p
    rw [htodo, List.foldlM_cons] at hrest
    obtain ⟨v, hv, hrest⟩ := Option.bind_eq_some_iff.mp hrest
    rw [htodo] at hsuffix
    obtain ⟨t', hexec, hK', hview, hothers⟩ :=
      hexec p op (hsuffix.subset List.mem_cons_self) t v hK hv
    refine ⟨t', hexec, hK', fun q => ?_⟩
    rcases Decidable.em (q = p) with rfl | hne
    · rw [Function.update_self, hview]
      exact ⟨(List.suffix_cons op ops).trans hsuffix, hrest⟩
    · rw [Function.update_of_ne hne, hothers q hne]
      exact hI q
  refine ⟨fun todo t => K t ∧ ∀ p, todo p <:+ script p ∧
    (todo p).foldlM (fun v op => next p op v) (view p t) = some (v₁ p), ?_, ?_, ?_, ?_⟩
  · rintro t ⟨hK, hview⟩
    exact ⟨hK, fun p => ⟨List.suffix_refl _, by rw [hview]; exact hrun p⟩⟩
  · rintro todo t p op ops ⟨hK, hI⟩ htodo
    exact .inl (hhead todo t p op ops hK hI htodo)
  · rintro todo t ⟨hK, hI⟩ ⟨p, hp⟩
    obtain ⟨op, ops, htodo⟩ := List.exists_cons_of_ne_nil hp
    obtain ⟨t', hexec, -⟩ := hhead todo t p op ops hK hI htodo
    exact ⟨p, op, ops, t', htodo, hexec⟩
  · rintro t ⟨hK, hI⟩
    exact ⟨hK, fun p => Option.some.inj (hI p).2⟩

theorem Triple.exists {α : Type*} {G G' : α → σ → Prop} (h : ∀ x, M.Triple (G x) script (G' x)) :
    M.Triple (fun t => ∃ x, G x t) script fun t => ∃ x, G' x t := by
  choose J hJ using h
  refine ⟨fun todo t => ∃ x, J x todo t, ?_, ?_, ?_, ?_⟩
  · rintro t ⟨x, hx⟩
    exact ⟨x, (hJ x).start t hx⟩
  · rintro todo t p op ops ⟨x, hx⟩ htodo
    exact ((hJ x).step todo t p op ops hx htodo).imp_left fun ⟨t', hexec, hx'⟩ =>
      ⟨t', hexec, x, hx'⟩
  · rintro todo t ⟨x, hx⟩ hsome
    exact (hJ x).live todo t hx hsome
  · rintro t ⟨x, hx⟩
    exact ⟨x, (hJ x).done t hx⟩

/-- `p` does `lead` before anybody else can start. -/
theorem Triple.lead {G K : σ → Prop} {lead : List Op} (h : M.Triple G script F')
    (hK : ∀ t, F t → K t) (hkeep : ∀ t t', ∀ op ∈ lead, K t → M.exec p op t = .next t' → K t')
    (hothers : ∀ t, K t → ∀ q, q ≠ p → ∀ op ops, script q = op :: ops → M.exec q op t = .blocked)
    (hrun : ∀ t, F t → ∃ t', M.alone p lead t = some t' ∧ G t') :
    M.Triple F (Function.update script p (lead ++ script p)) F' := by
  obtain ⟨J, hJ⟩ := h
  refine ⟨fun todo t => (∃ ops t', ops ≠ [] ∧ ops <:+ lead ∧ K t ∧
    todo = Function.update script p (ops ++ script p) ∧ M.alone p ops t = some t' ∧ G t') ∨
      J todo t, ?_, ?_, ?_, ?_⟩
  · intro t ht
    obtain ⟨t', hrun, hG⟩ := hrun t ht
    cases lead with
    | nil =>
      cases hrun
      right
      rw [List.nil_append, Function.update_eq_self]
      exact hJ.start t hG
    | cons op lead =>
      exact .inl ⟨_, t', List.cons_ne_nil op lead, List.suffix_refl _, hK t ht, rfl, hrun, hG⟩
  · rintro todo t q op ops (⟨head, t', hne, hsuffix, hKt, rfl, halone, hG⟩ | hJt) htodo
    · by_cases hq : q = p
      · subst hq
        rw [Function.update_self] at htodo
        obtain ⟨op', head, rfl⟩ := List.exists_cons_of_ne_nil hne
        cases htodo
        rw [alone] at halone
        split at halone
        · next t₁ hexec =>
          have hmem : op ∈ lead := hsuffix.subset List.mem_cons_self
          refine .inl ⟨t₁, hexec, ?_⟩
          rw [Function.update_idem]
          cases head with
          | nil =>
            cases halone
            right
            show J (Function.update script q (script q)) t'
            rw [Function.update_eq_self]
            exact hJ.start t' hG
          | cons op' head =>
            exact .inl ⟨_, t', List.cons_ne_nil op' head, (List.suffix_cons ..).trans hsuffix,
              hkeep t t₁ op hmem hKt hexec, rfl, halone, hG⟩
        · cases halone
      · rw [Function.update_of_ne hq] at htodo
        exact .inr (hothers t hKt q hq op ops htodo)
    · refine (hJ.step todo t q op ops hJt htodo).imp_left ?_
      rintro ⟨t', hexec, hJ'⟩
      exact ⟨t', hexec, .inr hJ'⟩
  · rintro todo t (⟨head, t', hne, -, -, rfl, halone, -⟩ | hJt) hsome
    · obtain ⟨op, head, rfl⟩ := List.exists_cons_of_ne_nil hne
      rw [alone] at halone
      split at halone
      · next t₁ hexec => exact ⟨p, op, head ++ script p, t₁, Function.update_self .., hexec⟩
      · cases halone
    · exact hJ.live todo t hJt hsome
  · rintro t (⟨head, t', hne, -, -, htodo, -⟩ | hJt)
    · have hp := congrFun htodo p
      rw [Function.update_self] at hp
      exact absurd (List.append_eq_nil_iff.mp hp.symm).1 hne
    · exact hJ.done t hJt

/-- A phase in which only `p` has something to do. -/
theorem Triple.solo (h : ∀ t, F t → ∃ t', M.alone p ops t = some t' ∧ F' t') :
    M.Triple F (fun q => if q = p then ops else []) F' := by
  have hscript : (fun q => if q = p then ops else []) =
      Function.update (fun _ => []) p (ops ++ []) := by
    funext q
    rw [List.append_nil, Function.update_apply]
  rw [hscript]
  refine .lead (K := fun _ => True) .idle (fun _ _ => trivial) (fun _ _ _ _ _ _ => trivial) ?_ h
  rintro t - q - op ops hnil
  cases hnil

-- ---------------------------------------------------------------------------
-- Lists of phases
-- ---------------------------------------------------------------------------

def ofList (scripts : List (ι → List Op)) (exec : ι → Op → σ → Outcome σ) : Phased ι Op σ where
  last := scripts.length - 1
  script k := (scripts[k]?).getD fun _ => []
  exec := exec

omit [DecidableEq ι] in
theorem ofList_script (first rest : List (ι → List Op)) (script : ι → List Op)
    (exec : ι → Op → σ → Outcome σ) :
    (ofList (first ++ script :: rest) exec).script first.length = script := by
  simp [ofList]

inductive Seq (M : Phased ι Op σ) : (σ → Prop) → List (ι → List Op) → (σ → Prop) → Prop
  | nil {F F' : σ → Prop} (h : ∀ t, F t → F' t) : Seq M F [] F'
  | cons {F G F' : σ → Prop} {script : ι → List Op} {scripts : List (ι → List Op)}
      (h : M.Triple F script G) (hrest : Seq M G scripts F') : Seq M F (script :: scripts) F'

theorem Seq.mono {G : σ → Prop} {scripts : List (ι → List Op)} (h : M.Seq G scripts F')
    (hpre : ∀ t, F t → G t) : M.Seq F scripts F' := by
  cases h with
  | nil h => exact .nil fun t ht => h t (hpre t ht)
  | cons h hrest => exact .cons (h.mono hpre fun t ht => ht) hrest

theorem Seq.append {G : σ → Prop} {first second : List (ι → List Op)} (h : M.Seq F first G)
    (hsecond : M.Seq G second F') : M.Seq F (first ++ second) F' := by
  induction h with
  | nil h => exact hsecond.mono h
  | cons h _ ih => exact .cons h (ih hsecond)

/-- What holds at the start of each phase of a list. -/
theorem Seq.exists_triples {scripts : List (ι → List Op)} (h : M.Seq F scripts F') :
    ∃ G : Nat → σ → Prop, G 0 = F ∧ (∀ t, G scripts.length t → F' t) ∧
      ∀ k (hk : k < scripts.length), M.Triple (G k) scripts[k] (G (k + 1)) := by
  induction h with
  | @nil F F' h => exact ⟨fun _ => F, rfl, h, fun k hk => absurd hk (Nat.not_lt_zero k)⟩
  | @cons F G F' script scripts h _ ih =>
    obtain ⟨H, hzero, hend, htriples⟩ := ih
    refine ⟨fun k => k.casesOn F H, rfl, hend, fun k hk => ?_⟩
    cases k with
    | zero =>
      simp only [hzero]
      exact h
    | succ k => exact htriples k (Nat.lt_of_succ_lt_succ hk)

theorem Seq.correct [Nonempty ι] {scripts : List (ι → List Op)} {exec : ι → Op → σ → Outcome σ}
    (h : (ofList scripts exec).Seq Init scripts F')
    (hs : ((ofList scripts exec).system Init).Reachable s) :
    s.failed = false ∧
      ¬ ((ofList scripts exec).system Init).Deadlocked (ofList scripts exec).Finished s := by
  obtain ⟨G, rfl, -, htriples⟩ := h.exists_triples
  cases scripts with
  | nil => exact Phased.correct (F := fun _ => G 0) (fun t ht => ht) (fun k _ => .idle) hs
  | cons script scripts =>
    refine Phased.correct (F := G) (fun t ht => ht) (fun k hk => ?_) hs
    have hlt : k < (script :: scripts).length := Nat.lt_succ_of_le hk
    have hscript : (ofList (script :: scripts) exec).script k = (script :: scripts)[k] := by
      simp only [ofList, List.getElem?_eq_getElem hlt, Option.getD_some]
    rw [hscript]
    exact htriples k hlt

/-- The program comes to the phase behind `first`. -/
theorem Seq.reachable_append [Fintype ι] {first rest : List (ι → List Op)}
    {exec : ι → Op → σ → Outcome σ} (hrest : rest ≠ [])
    (h : (ofList (first ++ rest) exec).Seq Init first F') (ht : Init t) :
    ∃ t', ((ofList (first ++ rest) exec).system Init).Reachable
      ((ofList (first ++ rest) exec).atPhase first.length t') ∧ F' t' := by
  obtain ⟨G, rfl, hend, htriples⟩ := h.exists_triples
  have hpos : 0 < rest.length := List.length_pos_iff.mpr hrest
  have hlast : first.length ≤ (ofList (first ++ rest) exec).last := by
    simp only [ofList, List.length_append]
    omega
  obtain ⟨t', hs, hG⟩ := reachable_atPhase (F := G) ht ht hlast fun k hk => by
    have hscript : (ofList (first ++ rest) exec).script k = first[k] := by
      simp only [ofList, List.getElem?_append_left hk, List.getElem?_eq_getElem hk,
        Option.getD_some]
    rw [hscript]
    exact htriples k hk
  exact ⟨t', hs, hend t' hG⟩

end Lib.Phased
