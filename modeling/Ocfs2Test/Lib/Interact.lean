import Mathlib

/-!
# Programs that ask and check

A program that asks its environment one question at a time and may stop with an
error. Any state machine can be the environment. `Checks` says of a program that
it tests each answer against the one of an ideal environment: it goes on while
they agree, and once they differ it stops whatever the later answers are. Such a
program ends well exactly when every answer was the ideal one.
-/

namespace Lib

/-- `A c` are the answers to the question `c`, and `ε` are the reasons to stop. -/
inductive Prog (C : Type) (A : C → Type) (ε α : Type)
  | pure (a : α)
  | stop (e : ε)
  | call (c : C) (k : A c → Prog C A ε α)

abbrev Device (C : Type) (A : C → Type) (σ : Type) := σ → (c : C) → A c × σ

namespace Prog

variable {C : Type} {A : C → Type} {ε α β σ μ : Type}

def bind : Prog C A ε α → (α → Prog C A ε β) → Prog C A ε β
  | .pure a, f => f a
  | .stop e, _ => .stop e
  | .call c k, f => .call c fun a => (k a).bind f

instance : Monad (Prog C A ε) where
  pure := .pure
  bind := .bind

def ask (c : C) : Prog C A ε (A c) := .call c .pure

def require (c : C) (test : A c → Bool) (failed : A c → ε) : Prog C A ε Unit :=
  .call c fun a => if test a then .pure () else .stop (failed a)

/-- `f` over and over, `n` times. -/
def iterate (f : α → Prog C A ε α) : Nat → α → Prog C A ε α
  | 0, a => .pure a
  | n + 1, a => (f a).bind (iterate f n)

-- ---------------------------------------------------------------------------
-- Runs
-- ---------------------------------------------------------------------------

/-- What a run leaves behind: how it ended, every question with its answer, and
the state of the environment. -/
structure Played (C : Type) (A : C → Type) (ε α σ : Type) where
  outcome : Except ε α
  events : List ((c : C) × A c)
  device : σ

def play (device : Device C A σ) : Prog C A ε α → σ → Played C A ε α σ
  | .pure a, s => ⟨.ok a, [], s⟩
  | .stop e, s => ⟨.error e, [], s⟩
  | .call c k, s =>
    let answer := device s c
    let rest := (k answer.1).play device answer.2
    { rest with events := ⟨c, answer.1⟩ :: rest.events }

/-- Every answer is the one `ideal` gives after the same questions. -/
def Conforms (ideal : Device C A μ) : μ → List ((c : C) × A c) → Prop
  | _, [] => True
  | m, ⟨c, a⟩ :: events => a = (ideal m c).1 ∧ Conforms ideal (ideal m c).2 events

/-- The state of `ideal` after the questions of a run. -/
def replay (ideal : Device C A μ) (m : μ) (events : List ((c : C) × A c)) : μ :=
  events.foldl (fun m event => (ideal m event.1).2) m

theorem conforms_play (ideal : Device C A μ) (p : Prog C A ε α) (m : μ) :
    Conforms ideal m (p.play ideal m).events := by
  induction p generalizing m with
  | pure a => trivial
  | stop e => trivial
  | call c k ih => exact ⟨rfl, ih _ _⟩

theorem replay_play (ideal : Device C A μ) (p : Prog C A ε α) (m : μ) :
    replay ideal m (p.play ideal m).events = (p.play ideal m).device := by
  induction p generalizing m with
  | pure a => rfl
  | stop e => rfl
  | call c k ih => exact ih _ _

-- ---------------------------------------------------------------------------
-- Checking programs
-- ---------------------------------------------------------------------------

/-- The program stops for a reason in `Bad`, whatever it is told. -/
def Doomed (Bad : ε → Prop) : Prog C A ε α → Prop
  | .pure _ => False
  | .stop e => Bad e
  | .call _ k => ∀ a, (k a).Doomed Bad

/-- From the ideal state `m` the program goes on exactly while the answers are
the ideal ones, and then ends with `Q`. -/
def Checks (ideal : Device C A μ) (Bad : ε → Prop) (Q : α → μ → Prop) :
    Prog C A ε α → μ → Prop
  | .pure a, m => Q a m
  | .stop _, _ => False
  | .call c k, m =>
    (k (ideal m c).1).Checks ideal Bad Q (ideal m c).2 ∧
      ∀ a, a ≠ (ideal m c).1 → (k a).Doomed Bad

variable {ideal : Device C A μ} {Bad : ε → Prop} {Q : α → μ → Prop} {R : β → μ → Prop}
  {p : Prog C A ε α} {f : α → Prog C A ε β} {m : μ}

theorem Doomed.bind (h : p.Doomed Bad) : (p.bind f).Doomed Bad := by
  induction p with
  | pure a => exact h.elim
  | stop e => exact h
  | call c k ih => exact fun a => ih a (h a)

theorem Doomed.ask {k : A c → Prog C A ε β} (h : ∀ a, (k a).Doomed Bad) :
    ((Prog.ask c).bind k).Doomed Bad := h

theorem Doomed.require {test : A c → Bool} {failed : A c → ε} {k : Unit → Prog C A ε β}
    (hbad : ∀ a, Bad (failed a)) (h : (k ()).Doomed Bad) :
    ((Prog.require c test failed).bind k).Doomed Bad := by
  intro a
  simp only
  split
  · exact h
  · exact hbad a

theorem Checks.ask {k : A c → Prog C A ε β}
    (hright : (k (ideal m c).1).Checks ideal Bad R (ideal m c).2)
    (hwrong : ∀ a, a ≠ (ideal m c).1 → (k a).Doomed Bad) :
    ((Prog.ask c).bind k).Checks ideal Bad R m := ⟨hright, hwrong⟩

theorem Checks.bind (h : p.Checks ideal Bad Q m)
    (hf : ∀ a m, Q a m → (f a).Checks ideal Bad R m) : (p.bind f).Checks ideal Bad R m := by
  induction p generalizing m with
  | pure a => exact hf a m h
  | stop e => exact h.elim
  | call c k ih => exact ⟨ih _ h.1, fun a ha => (h.2 a ha).bind⟩

theorem Checks.require {test : A c → Bool} {failed : A c → ε} {Q : Unit → μ → Prop}
    (hright : test (ideal m c).1 = true) (honly : ∀ a, test a = true → a = (ideal m c).1)
    (hbad : ∀ a, Bad (failed a)) (hq : Q () (ideal m c).2) :
    (Prog.require c test failed).Checks ideal Bad Q m := by
  refine ⟨?_, fun a ha => ?_⟩
  · simp only [hright, if_true]
    exact hq
  · have hfails : ¬ test a = true := fun h => ha (honly a h)
    simp only [if_neg hfails]
    exact hbad a

/-- What one round keeps is kept by any number of them. -/
theorem Checks.iterate {f : α → Prog C A ε α} {I : Nat → α → μ → Prop}
    (hf : ∀ i a m, I i a m → (f a).Checks ideal Bad (I (i + 1)) m) (h : I i a m) :
    (Prog.iterate f n a).Checks ideal Bad (I (i + n)) m := by
  induction n generalizing i a m with
  | zero => exact h
  | succ n ih =>
    refine (hf i a m h).bind fun a m hm => ?_
    have hrest := ih hm
    rwa [Nat.add_right_comm] at hrest

theorem Doomed.outcome (h : p.Doomed Bad) (device : Device C A σ) (s : σ) :
    ∃ e, (p.play device s).outcome = .error e ∧ Bad e := by
  induction p generalizing s with
  | pure a => exact h.elim
  | stop e => exact ⟨e, rfl, h⟩
  | call c k ih => exact ih _ (h _) _

/-- Either every answer was right and the program ended with `Q`, or one was not
and it stopped. -/
theorem Checks.outcome (h : p.Checks ideal Bad Q m) (device : Device C A σ) (s : σ) :
    let run := p.play device s
    (Conforms ideal m run.events ∧ ∃ a, run.outcome = .ok a ∧ Q a (replay ideal m run.events)) ∨
      (¬ Conforms ideal m run.events ∧ ∃ e, run.outcome = .error e ∧ Bad e) := by
  induction p generalizing m s with
  | pure a => exact .inl ⟨trivial, a, rfl, h⟩
  | stop e => exact h.elim
  | call c k ih =>
    by_cases ha : (device s c).1 = (ideal m c).1
    · have hk := h.1
      rw [← ha] at hk
      rcases ih _ hk (device s c).2 with ⟨hconf, hend⟩ | ⟨hconf, hend⟩
      · exact .inl ⟨⟨ha, hconf⟩, hend⟩
      · exact .inr ⟨fun hc => hconf hc.2, hend⟩
    · exact .inr ⟨fun hc => ha hc.1, (h.2 _ ha).outcome device _⟩

-- ---------------------------------------------------------------------------
-- In the ideal environment
-- ---------------------------------------------------------------------------

/-- In `device`, from the state `s`, the program ends with `Q`. -/
def Passes (device : Device C A σ) (Q : α → σ → Prop) (p : Prog C A ε α) (s : σ) : Prop :=
  ∃ a, (p.play device s).outcome = .ok a ∧ Q a (p.play device s).device

variable {device : Device C A σ} {s : σ}

theorem Passes.ask {Q : β → σ → Prop} {k : A c → Prog C A ε β}
    (h : (k (device s c).1).Passes device Q (device s c).2) :
    ((Prog.ask c).bind k).Passes device Q s := h

theorem Passes.require {Q : β → σ → Prop} {test : A c → Bool} {failed : A c → ε}
    {k : Unit → Prog C A ε β} (hright : test (device s c).1 = true)
    (h : (k ()).Passes device Q (device s c).2) :
    ((Prog.require c test failed).bind k).Passes device Q s := by
  have hcall : ((Prog.require c test failed).bind k).play device s =
      { (k ()).play device (device s c).2 with
        events := ⟨c, (device s c).1⟩ :: ((k ()).play device (device s c).2).events } := by
    simp only [Prog.require, Prog.bind, play, hright, if_true]
  rw [Passes, hcall]
  exact h

/-- A checking program passes in the environment it checks against. -/
theorem Checks.passes (h : p.Checks ideal Bad Q m) : p.Passes ideal Q m := by
  rcases h.outcome ideal m with ⟨-, a, ha, hq⟩ | ⟨hconf, -⟩
  · exact ⟨a, ha, replay_play ideal p m ▸ hq⟩
  · exact absurd (conforms_play ideal p m) hconf

-- ---------------------------------------------------------------------------
-- In any environment of a kind
-- ---------------------------------------------------------------------------

/-- From `m` the program ends with `Q`, whatever it is told within `spec`, which says
what answer a state may give and what the state is then. -/
def Under (spec : μ → (c : C) → A c → μ → Prop) (Q : α → μ → Prop) : Prog C A ε α → μ → Prop
  | .pure a, m => Q a m
  | .stop _, _ => False
  | .call c k, m => ∀ a m', spec m c a m' → (k a).Under spec Q m'

variable {spec : μ → (c : C) → A c → μ → Prop}

theorem Under.mono {Q' : α → μ → Prop} (h : p.Under spec Q m) (hq : ∀ a m, Q a m → Q' a m) :
    p.Under spec Q' m := by
  induction p generalizing m with
  | pure a => exact hq a m h
  | stop e => exact h
  | call c k ih => exact fun a m' hs => ih a (h a m' hs)

theorem Under.bind (h : p.Under spec Q m) (hf : ∀ a m, Q a m → (f a).Under spec R m) :
    (p.bind f).Under spec R m := by
  induction p generalizing m with
  | pure a => exact hf a m h
  | stop e => exact h.elim
  | call c k ih => exact fun a m' hs => ih a (h a m' hs)

theorem Under.ask {k : A c → Prog C A ε β}
    (h : ∀ a m', spec m c a m' → (k a).Under spec R m') :
    ((Prog.ask c).bind k).Under spec R m := h

/-- A device that keeps to `spec` brings the program to its end. -/
theorem Under.passes {rel : σ → μ → Prop} {s : σ} {device : Device C A σ}
    (h : p.Under spec Q m) (hrel : rel s m)
    (hspec : ∀ s m c, rel s m → ∃ m', spec m c (device s c).1 m' ∧ rel (device s c).2 m') :
    p.Passes device (fun a s => ∃ m, rel s m ∧ Q a m) s := by
  induction p generalizing m s with
  | pure a => exact ⟨a, rfl, m, hrel, h⟩
  | stop e => exact h.elim
  | call c k ih =>
    obtain ⟨m', hstep, hrel'⟩ := hspec s m c hrel
    exact ih _ (h _ m' hstep) hrel'

end Prog

end Lib
