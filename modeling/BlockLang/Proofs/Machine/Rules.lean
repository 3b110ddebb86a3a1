import BlockLang.Proofs.Machine.Pairing

/-!
# Rules for the pieces of a run

One rule for each piece that runs are put together from: errors, operands, the world, attributes and
text. A rule says that two paired machines do the same at that piece. Only the rules for operands have
to look at what lies below: where the first machine has run out of operands and the second has not, the
error of the first is one that escapes.
-/

namespace BlockLang.Pairing

open Exec

variable {S : Pairing} {α β γ : Type} {P : α → β → Prop}

/-- The same value, which the pairing admits. -/
def SameValue (S : Pairing) (a b : Value) : Prop := a = b ∧ a.CodesIn S.known

/-- The same values, which the pairing admits. -/
def SameValues (S : Pairing) (l l' : List Value) : Prop := l = l' ∧ ∀ v ∈ l, v.CodesIn S.known

/-! ## Errors -/

/-- Any error but one about code may be raised. -/
theorem Admits.usual {e : RuntimeError} (he : e.isInvalidBytecode = false) : S.Admits e :=
  fun _ => he

theorem Lost.raise {m : Machine} (h : S.Lost m) (e : RuntimeError) :
    S.Lost { m with raised := e :: m.raised } :=
  h.imp_left fun ⟨e', he', hs⟩ => ⟨e', List.mem_cons_of_mem _ he', hs⟩

theorem Machines.raise {m n : Machine} (h : S.Machines m n) {e : RuntimeError} (he : S.Admits e)
    (raised : List RuntimeError) :
    S.Machines { m with raised := e :: m.raised } { n with raised } :=
  { h with history := List.forall_mem_cons.2 ⟨he, h.history⟩ }

theorem sim_fail {e : RuntimeError} (he : S.Admits e) :
    Sim S.coupling P (fail e : Exec α) (fail e : Exec β) := by
  refine Sim.bind (P := fun _ _ => True) ?_ fun _ _ _ => Sim.throw he
  exact Sim.modify trivial (fun m n h => h.raise he _) fun m h => h.raise e

/-- What would follow an error is never reached. -/
theorem sim_fail_bind {e : RuntimeError} (he : S.Admits e) (k : γ → Exec α) (k' : γ → Exec β) :
    Sim S.coupling P (fail e >>= k) (fail e >>= k') :=
  (sim_fail (P := fun _ _ => False) he).bind fun _ _ h => h.elim

/-- After an error that escapes the machine is lost, whatever the other one does. -/
theorem sim_escape {e : RuntimeError} (he : S.escapes e) (ha : S.Admits e) (y : Exec β) :
    Sim S.coupling P (fail e : Exec α) y := by
  intro m n h
  refine .inr ⟨.inl ⟨e, List.mem_cons_self, he⟩, (.error (.error (.runtime e)), n), ?_, rfl, ?_⟩
  · exact h.raise ha _
  · exact Coupling.halts_error ha

/-- A piece that the first machine has too few operands for. The other one has the same operands and
gets on only if there are others below. -/
theorem sim_underflow (hS : S.Lawful) {y : Exec β} (h : S.rest = [] → y = fail .stackUnderflow) :
    Sim S.coupling P (fail .stackUnderflow : Exec α) y := by
  rcases hS.short with hr | he
  · rw [h hr]
    exact sim_fail (.usual rfl)
  · exact sim_escape he.1 (.usual rfl) y

/-- A check on both sides. Where only the first machine fails, its error escapes. -/
theorem sim_check {c c' : Prop} [Decidable c] [Decidable c'] {e e' : RuntimeError}
    {k : PUnit → Exec α} {k' : PUnit → Exec β} (ha : S.Admits e) (he : c → S.escapes e ∨ c' ∧ e = e')
    (hc : ¬ c → ¬ c') (hk : ¬ c → Sim S.coupling P (k ⟨⟩) (k' ⟨⟩)) :
    Sim S.coupling P (if c then fail e >>= k else k ⟨⟩)
      (if c' then fail e' >>= k' else k' ⟨⟩) := by
  by_cases h : c
  · rw [if_pos h]
    rcases he h with he | ⟨hc', rfl⟩
    · rw [← pure_bind PUnit.unit fun _ => ite c' _ _]
      exact (sim_escape (P := fun _ _ => False) he ha _).bind fun _ _ h => h.elim
    · rw [if_pos hc']
      exact sim_fail_bind ha k k'
  · rw [if_neg h, if_neg (hc h)]
    exact hk h

theorem sim_liftM {r : Except RuntimeError α} {q : Except RuntimeError β} (he : SparesCode r)
    (h : SameAnswer P r q) : Sim S.coupling P (liftM r : Exec α) (liftM q : Exec β) := by
  cases r <;> cases q
  · cases h
    exact sim_fail (.usual (he _ rfl))
  · cases h
  · cases h
  · exact Sim.pure h

/-- The answer of a function on values, which has one and the same on both sides. -/
theorem sim_answer {Q : α → Prop} {r : Except RuntimeError α} (he : SparesCode r)
    (h : ∀ a, r = .ok a → Q a) :
    Sim S.coupling (fun a b => a = b ∧ Q a) (liftM r : Exec α) (liftM r) :=
  sim_liftM he (.refl fun a ha => ⟨rfl, h a ha⟩)

/-- A question to a function on values. -/
theorem sim_ask {r : Except RuntimeError α} (he : SparesCode r) :
    Sim S.coupling Eq (liftM r : Exec α) (liftM r) := sim_liftM he (.refl fun _ _ => rfl)

/-- The outcomes of a piece on both sides. -/
def SameOutcome (S : Pairing) (P : α → β → Prop) (r : Except Halt α) (q : Except Halt β) : Prop :=
  SameAnswer P r q ∧ S.coupling.Halts r

theorem sim_resume {r : Except Halt α} {q : Except Halt β} (h : S.SameOutcome P r q) :
    Sim S.coupling P (resume r) (resume q) := by
  obtain ⟨h, he⟩ := h
  cases r <;> cases q
  · cases h
    exact Sim.throw (he _ rfl)
  · cases h
  · cases h
  · exact Sim.pure h

/-! ## Changes of the machine -/

theorem sim_modify {f g : Machine → Machine} (h : ∀ m n, S.Machines m n → S.Machines (f m) (g n))
    (hf : ∀ m, (f m).raised = m.raised ∧ (f m).fresh = m.fresh) :
    Sim S.coupling Eq (modify f : Exec PUnit) (modify g) := by
  refine Sim.modify rfl h fun m hm => ?_
  change S.Lost (f m)
  rwa [Lost, (hf m).1, (hf m).2]

theorem sim_observe {x : Exec α} {y : Exec β} (h : Sim S.coupling P x y) :
    Sim S.coupling (S.SameOutcome P) (observe x) (observe y) := h.lift

theorem sim_afterwards {x : Exec α} {y : Exec β} {f : Machine → Machine}
    (h : Sim S.coupling P x y) (hf : ∀ m n, S.Machines m n → S.Machines (f m) (f n))
    (hr : ∀ m, (f m).raised = m.raised ∧ (f m).fresh = m.fresh) :
    Sim S.coupling P (afterwards x f) (afterwards y f) :=
  (sim_observe h).bind fun _ _ ho => (sim_modify hf hr).bind fun _ _ _ => sim_resume ho

/-- A step that is taken under a condition. -/
theorem sim_when {c : Prop} [Decidable c] {x y : Exec PUnit} {k k' : PUnit → Exec α}
    {Q : α → α → Prop} (hx : c → Sim S.coupling Eq x y) (hk : Sim S.coupling Q (k ⟨⟩) (k' ⟨⟩)) :
    Sim S.coupling Q (if c then x >>= k else k ⟨⟩) (if c then y >>= k' else k' ⟨⟩) :=
  Sim.ite Iff.rfl (fun h => (hx h).bind fun _ _ _ => hk) fun _ => hk

/-- A step that is taken unless a condition holds. -/
theorem sim_unless {c : Prop} [Decidable c] {x y : Exec PUnit} {k k' : PUnit → Exec α}
    {Q : α → α → Prop} (hx : ¬ c → Sim S.coupling Eq x y)
    (hk : Sim S.coupling Q (k ⟨⟩) (k' ⟨⟩)) :
    Sim S.coupling Q (if c then k ⟨⟩ else x >>= k) (if c then k' ⟨⟩ else y >>= k') :=
  Sim.ite Iff.rfl (fun _ => hk) fun h => (hx h).bind fun _ _ _ => hk

/-! ## The operands -/

theorem Machines.withStack {m n : Machine} (h : S.Machines m n) {stack : List Value}
    (hs : ∀ v ∈ stack, v.CodesIn S.known) :
    S.Machines { m with stack } { n with stack := stack ++ S.rest } :=
  { h with stack := rfl, operands := hs }

theorem sim_setStack {stack : List Value} (hs : ∀ v ∈ stack, v.CodesIn S.known) :
    Sim S.coupling Eq (modify ({ · with stack }) : Exec PUnit)
      (modify ({ · with stack := stack ++ S.rest })) :=
  sim_modify (fun _ _ h => h.withStack hs) fun _ => ⟨rfl, rfl⟩

theorem sim_push {v : Value} (hv : v.CodesIn S.known) :
    Sim S.coupling Eq (push v) (push v) := by
  refine sim_modify (fun m n h => ?_) fun _ => ⟨rfl, rfl⟩
  exact { h with
    stack := by simp [h.stack]
    operands := List.forall_mem_cons.2 ⟨hv, h.operands⟩ }

theorem sim_pop (hS : S.Lawful) : Sim S.coupling S.SameValue pop pop := by
  refine Sim.get.bind fun m n h => ?_
  have hstack := h.stack
  have hall := h.operands
  revert hstack hall
  rcases m.stack with _ | ⟨v, stack⟩ <;> intro hstack hall
  · refine sim_underflow hS fun hr => ?_
    rw [hstack, hr]
    rfl
  · rw [hstack]
    obtain ⟨hv, hs⟩ := List.forall_mem_cons.1 hall
    exact (sim_setStack hs).bind fun _ _ _ => Sim.pure ⟨rfl, hv⟩

theorem sim_pop₂ (hS : S.Lawful) :
    Sim S.coupling (fun r q => r = q ∧ r.1.CodesIn S.known ∧ r.2.CodesIn S.known) pop₂ pop₂ := by
  refine Sim.get.bind fun m n h => ?_
  have hstack := h.stack
  have hall := h.operands
  revert hstack hall
  rcases m.stack with _ | ⟨b, _ | ⟨a, stack⟩⟩ <;> intro hstack hall
  · refine sim_underflow hS fun hr => ?_
    rw [hstack, hr]
    rfl
  · refine sim_underflow hS fun hr => ?_
    rw [hstack, hr]
    rfl
  · rw [hstack]
    obtain ⟨hb, ha, hs⟩ : b.CodesIn _ ∧ a.CodesIn _ ∧ ∀ v ∈ stack, v.CodesIn _ := by simpa using hall
    exact (sim_setStack hs).bind fun _ _ _ => Sim.pure ⟨rfl, ha, hb⟩

theorem sim_pop₃ (hS : S.Lawful) :
    Sim S.coupling
      (fun r q => r = q ∧ r.1.CodesIn S.known ∧ r.2.1.CodesIn S.known ∧ r.2.2.CodesIn S.known)
      pop₃ pop₃ := by
  refine Sim.get.bind fun m n h => ?_
  have hstack := h.stack
  have hall := h.operands
  revert hstack hall
  rcases m.stack with _ | ⟨c, _ | ⟨b, _ | ⟨a, stack⟩⟩⟩ <;> intro hstack hall
  case cons.cons.cons =>
    rw [hstack]
    obtain ⟨hc, hb, ha, hs⟩ :
        c.CodesIn _ ∧ b.CodesIn _ ∧ a.CodesIn _ ∧ ∀ v ∈ stack, v.CodesIn _ := by simpa using hall
    exact (sim_setStack hs).bind fun _ _ _ => Sim.pure ⟨rfl, ha, hb, hc⟩
  all_goals
    refine sim_underflow hS fun hr => ?_
    rw [hstack, hr]
    rfl

theorem sim_peek (hS : S.Lawful) (i : Nat) : Sim S.coupling S.SameValue (peek i) (peek i) := by
  refine Sim.get.bind fun m n h => ?_
  cases hv : m.stack[i]? with
  | some v =>
    rw [h.stack, List.getElem?_append_left (List.getElem?_eq_some_iff.1 hv).1, hv]
    exact Sim.pure ⟨rfl, h.operands v (List.mem_of_getElem? hv)⟩
  | none =>
    refine sim_underflow hS fun hr => ?_
    rw [h.stack, hr, List.append_nil, hv]

/-- Heights differ by the number of operands below. -/
def Heights (S : Pairing) (a b : Nat) : Prop := b = a + S.rest.length

theorem Machines.height {m n : Machine} (h : S.Machines m n) :
    S.Heights m.stack.length n.stack.length := by
  rw [Heights, h.stack, List.length_append]

theorem sim_height : Sim S.coupling S.Heights height height :=
  Sim.get.bind fun _ _ h => Sim.pure h.height

variable {base base' : Nat}

theorem below_append (hb : S.Heights base base') (stack : List Value) :
    below base' (stack ++ S.rest) = below base stack ++ S.rest := by
  rw [below, below, List.length_append, hb, Nat.add_sub_add_right,
    List.drop_append_of_le_length (Nat.sub_le ..)]

theorem above_append (hb : S.Heights base base') (stack : List Value) :
    above base' (stack ++ S.rest) = above base stack := by
  rw [above, above, List.length_append, hb, Nat.add_sub_add_right,
    List.take_append_of_le_length (Nat.sub_le ..)]

theorem sim_cutTo (hb : S.Heights base base') : Sim S.coupling Eq (cutTo base) (cutTo base') := by
  refine sim_modify (fun m n h => ?_) fun _ => ⟨rfl, rfl⟩
  exact { h with
    stack := by simp only [h.stack, below_append hb]
    operands := fun v hv => h.operands v (List.mem_of_mem_drop hv) }

theorem sim_takeAbove (hb : S.Heights base base') :
    Sim S.coupling S.SameValues (takeAbove base) (takeAbove base') := by
  refine Sim.get.bind fun _ _ h => (sim_cutTo hb).bind fun _ _ _ => Sim.pure ⟨?_, ?_⟩
  · rw [h.stack, above_append hb]
  · intro v hv
    exact h.operands v (List.mem_of_mem_take (List.mem_reverse.1 hv))

/-! ## The world -/

theorem Machines.withWorld {m n : Machine} (h : S.Machines m n) {w w' : World}
    (hw : S.Worlds w w') : S.Machines { m with world := w } { n with world := w' } :=
  { h with world := hw }

theorem sim_inWorld {f : World → α × World} {g : World → β × World}
    (h : ∀ w w', S.Worlds w w' → S.Worlds (f w).2 (g w').2 ∧ P (f w).1 (g w').1) :
    Sim S.coupling P (inWorld f) (inWorld g) :=
  Sim.modifyGet
    (fun _ _ hm => ⟨hm.withWorld (h _ _ hm.world).1, (h _ _ hm.world).2⟩) fun _ h => h

theorem sim_modifyWorld {f g : World → World}
    (h : ∀ w w', S.Worlds w w' → S.Worlds (f w) (g w')) :
    Sim S.coupling Eq (modifyWorld f) (modifyWorld g) :=
  sim_modify (fun _ _ hm => hm.withWorld (h _ _ hm.world)) fun _ => ⟨rfl, rfl⟩

theorem sim_modifyScope (hS : S.Lawful) {f g : Scope → Scope}
    (h : ∀ s s', s.Paired S.known s' → (f s).Paired S.known (g s')) :
    Sim S.coupling Eq (modifyScope f) (modifyScope g) :=
  sim_modifyWorld fun _ _ hw => hw.withScope hS (h _ _ hw.scope)

theorem sim_heap :
    Sim S.coupling (fun h h' => h.Alike h' ∧ h.CodesIn S.known) Exec.heap Exec.heap :=
  Sim.get.bind fun _ _ h => Sim.pure ⟨h.world.heap, h.world.objects⟩

theorem sim_bind (hS : S.Lawful) (name : String) {v : Value} (hv : v.CodesIn S.known) :
    Sim S.coupling Eq (Exec.bind name v) (Exec.bind name v) :=
  sim_modifyWorld fun _ _ hw => hw.set hS name hv

theorem sim_bindAll (hS : S.Lawful) {bindings : List (String × Value)}
    (hb : ∀ e ∈ bindings, e.2.CodesIn S.known) :
    Sim S.coupling Eq (bindAll bindings) (bindAll bindings) :=
  sim_modifyWorld fun _ _ hw => hw.setAll hS hb

theorem sim_valueOf (name : String) :
    Sim S.coupling S.SameValue (valueOf name) (valueOf name) := by
  refine Sim.get.bind fun m n h => ?_
  dsimp only
  rw [← h.world.alike.get?]
  cases hv : m.world.get? name with
  | some v => exact Sim.pure ⟨rfl, h.world.scope.value hv⟩
  | none =>
    rw [World.undefined, World.undefined, h.world.scope.bindings]
    exact sim_fail (.usual rfl)

theorem sim_protecting (hS : S.Lawful) (names : List String) {x y : Exec α} {Q : α → α → Prop}
    (h : Sim S.coupling Q x y) :
    Sim S.coupling Q (protecting names x) (protecting names y) := by
  refine Sim.get.bind fun m n hm => (sim_observe h).bind fun r q hr => ?_
  refine (sim_modifyScope hS fun s s' hs => ?_).bind fun _ _ _ => sim_resume hr
  exact hs.restoreNames hm.world.scope names

theorem sim_read (hS : S.Lawful) (source : String) :
    Sim S.coupling S.SameValues (Exec.read source) (Exec.read source) := by
  refine Sim.bindSame (A := (· = readSource source))
    (sim_inWorld fun w w' hw => ⟨hw.read hS source, rfl, rfl⟩) fun r hr => ?_
  cases r with
  | ok items => exact Sim.pure ⟨rfl, refersIn_of_readSource hr.symm⟩
  | error e => exact Sim.throw trivial

/-! ## Attributes and text -/

theorem sim_clearAttrs : Sim S.coupling Eq clearAttrs clearAttrs := by
  refine sim_modify (fun m n h => ?_) fun _ => ⟨rfl, rfl⟩
  exact { h with attrs := rfl, given := by simp }

theorem sim_attr? (name : String) :
    Sim S.coupling (fun a b => a = b ∧ ∀ v, a = some v → v.CodesIn S.known) (attr? name)
      (attr? name) := by
  refine Sim.get.bind fun m n h => Sim.pure ⟨by rw [h.attrs], fun v hv => ?_⟩
  exact h.given _ (NameTable.mem_of_get? hv)

theorem sim_hasFlag (name : String) : Sim S.coupling Eq (hasFlag name) (hasFlag name) := by
  refine (sim_attr? name).bind fun a b h => ?_
  rw [h.1]
  exact Sim.pure rfl

theorem sim_shown (fuel : Nat) (v : Value) : Sim S.coupling Eq (shown fuel v) (shown fuel v) := by
  refine sim_heap.bind fun h h' hh => ?_
  rw [Value.display?, Value.display?, hh.1.display?]
  split
  · exact Sim.pure rfl
  · exact Sim.throw trivial

theorem sim_areEqual (fuel : Nat) (a b : Value) :
    Sim S.coupling Eq (areEqual fuel a b) (areEqual fuel a b) := by
  refine sim_heap.bind fun h h' hh => ?_
  rw [hh.1.equalWithin]
  split
  · exact Sim.pure rfl
  · exact Sim.throw trivial

theorem sim_print (s : String) : Sim S.coupling Eq (print s) (print s) := by
  refine Sim.get.bind fun m n h => ?_
  rw [← h.output]
  cases m.output with
  | collected text =>
    refine sim_modify (fun m n h => ?_) fun _ => ⟨rfl, rfl⟩
    exact { h with output := rfl }
  | refused reason => exact sim_fail (.usual rfl)

end BlockLang.Pairing
