/-!
# Comparing two runs

Rules for showing that two pieces of a program do the same, each in a state of its own. The builder
of call trees and the machine are both programs that change a state and may fail, so one set of
rules serves them.

**Coupling.** Two runs are compared by a relation between their states. The first run may also get
*lost*: something has happened in it that the comparison does not cover, and its answer is no longer
claimed to be that of the second. Getting lost has to last, so a run that strays must still have a
partner for the rules to go on with.

**Invariants.** A property of the states of one run is a coupling of the run with itself. What the run may
fail with belongs to the coupling, because a failure that is recovered from leaves no other trace.
-/

namespace BlockLang

variable {ε σ τ α β γ δ : Type}

/-- The two answers are the same failure, or related. -/
def SameAnswer (P : α → β → Prop) : Except ε α → Except ε β → Prop
  | .ok a, .ok b => P a b
  | .error e, .error e' => e = e'
  | _, _ => False

namespace SameAnswer

theorem mono {P Q : α → β → Prop} (h : ∀ a b, P a b → Q a b) {r : Except ε α} {q : Except ε β}
    (hr : SameAnswer P r q) : SameAnswer Q r q := by
  cases r <;> cases q <;> simp_all [SameAnswer]

theorem eq {r q : Except ε α} (h : SameAnswer Eq r q) : r = q := by
  cases r <;> cases q <;> simp_all [SameAnswer]

protected theorem refl {P : α → α → Prop} {r : Except ε α} (h : ∀ a, r = .ok a → P a a) :
    SameAnswer P r r := by
  cases r with
  | ok a => exact h a rfl
  | error e => rfl

end SameAnswer

/-- How the states of two runs are compared. -/
structure Coupling (ε σ τ : Type) where
  alike : σ → τ → Prop
  /-- The answers of the first run are no longer compared. -/
  lost : σ → Prop := fun _ => False
  /-- What the first run may fail with. -/
  halts : ε → Prop := fun _ => True

namespace Coupling

/-- An answer that is a failure is one that the run may fail with. -/
def Halts (C : Coupling ε σ τ) (r : Except ε α) : Prop := ∀ e, r = .error e → C.halts e

theorem halts_ok {C : Coupling ε σ τ} {a : α} : C.Halts (.ok a) := nofun

theorem halts_error {C : Coupling ε σ τ} {e : ε} (he : C.halts e) :
    C.Halts (.error e : Except ε α) := fun _ h => Except.error.inj h ▸ he

/-- Two runs end with the same answer, in states that are alike. -/
structure Agrees (C : Coupling ε σ τ) (P : α → β → Prop) (r : Except ε α × σ)
    (q : Except ε β × τ) : Prop where
  alike : C.alike r.2 q.2
  answer : SameAnswer P r.1 q.1
  halts : C.Halts r.1

/-- A run ends lost. Some state is still like its own, and some answer is related to its own. -/
def Strays (C : Coupling ε σ τ) (P : α → β → Prop) (r : Except ε α × σ) : Prop :=
  C.lost r.2 ∧ ∃ q : Except ε β × τ, C.Agrees P r q

end Coupling

/-- Two programs simulate each other from the given states: they end alike, unless the first is lost
or gets lost. -/
def SimAt (C : Coupling ε σ τ) (P : α → β → Prop) (x : ExceptT ε (StateM σ) α)
    (y : ExceptT ε (StateM τ) β) (s : σ) (t : τ) : Prop :=
  ¬ C.lost s ∧ C.Agrees P (x.run.run s) (y.run.run t) ∨ C.Strays P (x.run.run s)

/-- Two programs simulate each other from all states that are alike. -/
def Sim (C : Coupling ε σ τ) (P : α → β → Prop) (x : ExceptT ε (StateM σ) α)
    (y : ExceptT ε (StateM τ) β) : Prop :=
  ∀ s t, C.alike s t → SimAt C P x y s t

theorem run_bind (x : ExceptT ε (StateM σ) α) (f : α → ExceptT ε (StateM σ) γ) (s : σ) :
    (x >>= f).run.run s =
      match x.run.run s with
      | (.ok a, s') => (f a).run.run s'
      | (.error e, s') => (.error e, s') := by
  change (match x s with | (r, s') => ExceptT.bindCont f r s') =
    match x s with | (.ok a, s') => (f a) s' | (.error e, s') => (.error e, s')
  rcases x s with ⟨_ | _, _⟩ <;> rfl

theorem run_bind_of_ok {x : ExceptT ε (StateM σ) α} {f : α → ExceptT ε (StateM σ) γ} {s s' : σ}
    {a : α} (h : x.run.run s = (.ok a, s')) : (x >>= f).run.run s = (f a).run.run s' := by
  rw [run_bind, h]

theorem run_bind_of_error {x : ExceptT ε (StateM σ) α} {f : α → ExceptT ε (StateM σ) γ} {s s' : σ}
    {e : ε} (h : x.run.run s = (.error e, s')) : (x >>= f).run.run s = (.error e, s') := by
  rw [run_bind, h]

theorem run_get_bind (f : σ → ExceptT ε (StateM σ) α) (s : σ) :
    (get >>= f).run.run s = (f s).run.run s := rfl

theorem run_modify (f : σ → σ) (s : σ) :
    (modify f : ExceptT ε (StateM σ) PUnit).run.run s = (.ok ⟨⟩, f s) := rfl

theorem run_modifyGet (f : σ → α × σ) (s : σ) :
    (modifyGet f : ExceptT ε (StateM σ) α).run.run s = (.ok (f s).1, (f s).2) := rfl

theorem run_map (f : α → γ) (x : ExceptT ε (StateM σ) α) (s : σ) :
    (f <$> x).run.run s = ((x.run.run s).1.map f, (x.run.run s).2) := by
  rw [map_eq_pure_bind, run_bind]
  rcases x.run.run s with ⟨_ | _, _⟩ <;> rfl

theorem run_lift (x : StateM σ α) (s : σ) :
    (ExceptT.lift x : ExceptT ε (StateM σ) α).run.run s = (.ok (x.run s).1, (x.run s).2) := rfl

theorem run_liftM (r : Except ε α) (s : σ) :
    (liftM r : ExceptT ε (StateM σ) α).run.run s = (r, s) := by
  cases r <;> rfl

namespace Sim

open Coupling (halts_ok halts_error)

variable {C : Coupling ε σ τ} {P P' : α → β → Prop} {Q : γ → δ → Prop}
  {x : ExceptT ε (StateM σ) α} {y : ExceptT ε (StateM τ) β}

/-- A step that always agrees, and that does not find back. -/
theorem of_agrees (h : ∀ s t, C.alike s t → C.Agrees P (x.run.run s) (y.run.run t))
    (hl : ∀ s t, C.alike s t → C.lost s → C.lost (x.run.run s).2) : Sim C P x y := by
  intro s t hst
  by_cases hs : C.lost s
  · exact .inr ⟨hl s t hst hs, _, h s t hst⟩
  · exact .inl ⟨hs, h s t hst⟩

/-- A run that is not lost at its end has agreed. -/
theorem agrees (h : Sim C P x y) {s : σ} {t : τ} (hst : C.alike s t)
    (hl : ¬ C.lost (x.run.run s).2) : C.Agrees P (x.run.run s) (y.run.run t) := by
  rcases h s t hst with h | h
  · exact h.2
  · exact absurd h.1 hl

protected theorem mono (h : Sim C P x y) (hP : ∀ a b, P a b → P' a b) : Sim C P' x y := by
  intro s t hst
  rcases h s t hst with ⟨hs, hst', hr, he⟩ | ⟨hs, q, hq, hr, he⟩
  · exact .inl ⟨hs, hst', hr.mono hP, he⟩
  · exact .inr ⟨hs, q, hq, hr.mono hP, he⟩

protected theorem pure {a : α} {b : β} (h : P a b) :
    Sim C P (pure a : ExceptT ε (StateM σ) α) (pure b) :=
  of_agrees (fun _ _ hst => ⟨hst, h, halts_ok⟩) fun _ _ _ hs => hs

protected theorem throw {e : ε} (he : C.halts e) :
    Sim C P (throw e : ExceptT ε (StateM σ) α) (throw e : ExceptT ε (StateM τ) β) :=
  of_agrees (fun _ _ hst => ⟨hst, rfl, halts_error he⟩) fun _ _ _ hs => hs

/-- A run that is lost stays lost, whatever it goes on with. -/
theorem strays_of {f : α → ExceptT ε (StateM σ) γ} {g : β → ExceptT ε (StateM τ) δ}
    (hf : ∀ a b, P a b → Sim C Q (f a) (g b)) {a : α} {s : σ} {t : τ} {q : Except ε β}
    (hs : C.lost s) (hst : C.alike s t) (hq : SameAnswer P (.ok a : Except ε α) q) :
    C.Strays Q ((f a).run.run s) := by
  cases q with
  | error e => cases hq
  | ok b => exact (hf a b hq s t hst).resolve_left fun h => h.1 hs

/-- What follows only has to be simulated, whatever the states are by then. -/
protected theorem bindAt {f : α → ExceptT ε (StateM σ) γ} {g : β → ExceptT ε (StateM τ) δ} {s : σ}
    {t : τ} (h : SimAt C P x y s t) (hf : ∀ a b, P a b → Sim C Q (f a) (g b)) :
    SimAt C Q (x >>= f) (y >>= g) s t := by
  rw [SimAt, run_bind, run_bind]
  rw [SimAt] at h
  revert h
  rcases x.run.run s with ⟨e | a, s'⟩ <;> rcases y.run.run t with ⟨e' | b, t'⟩ <;>
    rintro (⟨hs, hst', hr, he⟩ | ⟨hs', ⟨q, t''⟩, hq, hr, he⟩)
  · exact .inl ⟨hs, hst', hr, halts_error (he _ rfl)⟩
  · exact .inr ⟨hs', (.error e, t''), hq, rfl, halts_error (he _ rfl)⟩
  · cases hr
  · exact .inr ⟨hs', (.error e, t''), hq, rfl, halts_error (he _ rfl)⟩
  · cases hr
  · exact .inr (strays_of hf hs' hq hr)
  · exact (hf a b hr s' t' hst').imp (fun h => ⟨hs, h.2⟩) id
  · exact .inr (strays_of hf hs' hq hr)

protected theorem bind {f : α → ExceptT ε (StateM σ) γ} {g : β → ExceptT ε (StateM τ) δ}
    (hx : Sim C P x y) (hf : ∀ a b, P a b → Sim C Q (f a) (g b)) :
    Sim C Q (x >>= f) (y >>= g) := fun s t hst => Sim.bindAt (hx s t hst) hf

/-- After a step with the same answer on both sides, only that answer has to be considered. -/
protected theorem bindEq {x : ExceptT ε (StateM σ) α} {y : ExceptT ε (StateM τ) α}
    {f : α → ExceptT ε (StateM σ) γ} {g : α → ExceptT ε (StateM τ) δ} (hx : Sim C Eq x y)
    (hf : ∀ a, Sim C Q (f a) (g a)) : Sim C Q (x >>= f) (y >>= g) := by
  refine hx.bind fun a b hab => ?_
  subst hab
  exact hf a

/-- The same, when something is known of the answer. -/
protected theorem bindSame {A : α → Prop} {x : ExceptT ε (StateM σ) α}
    {y : ExceptT ε (StateM τ) α} {f : α → ExceptT ε (StateM σ) γ}
    {g : α → ExceptT ε (StateM τ) δ} (hx : Sim C (fun a b => a = b ∧ A a) x y)
    (hf : ∀ a, A a → Sim C Q (f a) (g a)) : Sim C Q (x >>= f) (y >>= g) := by
  refine hx.bind fun a b hab => ?_
  obtain ⟨rfl, ha⟩ := hab
  exact hf a ha

protected theorem get : Sim C C.alike (get : ExceptT ε (StateM σ) σ) get :=
  of_agrees (fun _ _ hst => ⟨hst, hst, halts_ok⟩) fun _ _ _ hs => hs

protected theorem modify {f : σ → σ} {g : τ → τ} {u : PUnit → PUnit → Prop} (hu : u ⟨⟩ ⟨⟩)
    (h : ∀ s t, C.alike s t → C.alike (f s) (g t)) (hl : ∀ s, C.lost s → C.lost (f s)) :
    Sim C u (modify f : ExceptT ε (StateM σ) PUnit) (modify g) :=
  of_agrees (fun s t hst => ⟨h s t hst, hu, halts_ok⟩) fun s _ _ hs => hl s hs

protected theorem modifyGet {f : σ → α × σ} {g : τ → β × τ}
    (h : ∀ s t, C.alike s t → C.alike (f s).2 (g t).2 ∧ P (f s).1 (g t).1)
    (hl : ∀ s, C.lost s → C.lost (f s).2) :
    Sim C P (modifyGet f : ExceptT ε (StateM σ) α) (modifyGet g) :=
  of_agrees (fun s t hst => ⟨(h s t hst).1, (h s t hst).2, halts_ok⟩) fun s _ _ hs => hl s hs

/-- Looking at the outcome of a piece instead of failing with it. -/
protected theorem lift (h : Sim C P x y) :
    Sim C (fun r q => SameAnswer P r q ∧ C.Halts r)
      (ExceptT.lift x.run : ExceptT ε (StateM σ) _) (ExceptT.lift y.run) := by
  intro s t hst
  rw [SimAt, run_lift, run_lift]
  rcases h s t hst with ⟨hs, hq⟩ | ⟨hs, q, hq⟩
  · exact .inl ⟨hs, hq.alike, ⟨hq.answer, hq.halts⟩, halts_ok⟩
  · exact .inr ⟨hs, (.ok q.1, q.2), hq.alike, ⟨hq.answer, hq.halts⟩, halts_ok⟩

protected theorem liftM {r : Except ε α} {q : Except ε β} (h : SameAnswer P r q)
    (he : C.Halts r) : Sim C P (liftM r : ExceptT ε (StateM σ) α) (liftM q) := by
  refine of_agrees (fun s t hst => ?_) fun s _ _ hs => ?_
  · rw [run_liftM, run_liftM]
    exact ⟨hst, h, he⟩
  · rw [run_liftM]
    exact hs

protected theorem ite {c c' : Prop} [Decidable c] [Decidable c'] {x' : ExceptT ε (StateM σ) α}
    {y' : ExceptT ε (StateM τ) β} (hc : c ↔ c') (h : c → Sim C P x y)
    (h' : ¬ c → Sim C P x' y') : Sim C P (if c then x else x') (if c' then y else y') := by
  by_cases hd : c
  · rw [if_pos hd, if_pos (hc.1 hd)]
    exact h hd
  · rw [if_neg hd, if_neg (mt hc.2 hd)]
    exact h' hd

end Sim

end BlockLang
