import BlockLang.Proofs.Machine.Returning

/-!
# What one node does to the attributes

Attributes are put into a table of the machine when they are evaluated, and the table is emptied when an
operation is over and when a user function begins.

**Theorem (`Place.adds_of_becomes`).** A call leaves what it leaves, whatever was in the table before
(`Place.Leaves`): an operation nothing, a body what is pending at its end. Of the other nodes, attributes add
the operand that their tree has left, and the rest do nothing.
-/

namespace BlockLang

open CallTree Exec

variable {α β : Type} {x : Exec α} {fuel pos : Nat} {m after : Machine} {p q r : Place} {n : Located}
  {ps : List Place} {b : Builtin} {start attrs : NameTable Value} {ref : FunctionRef} {f : UserFunction}

/-! ## Calls and attributes among the nodes -/

/-- The node makes a call when it is evaluated. -/
def CallTree.makesCall : CallTree → Bool
  | call (.operation _) .. | call (.other _) .. => true
  | _ => false

/-- The tree makes no calls, and has no attributes in it; it may be an attribute itself. -/
def CallTree.IsQuiet (t : CallTree) : Prop :=
  ∀ n ∈ postorderAt [] t, n.node.makesCall = false ∧ (n.node.isAttr = true → n.place = [])

instance : DecidablePred CallTree.IsQuiet := fun t =>
  inferInstanceAs (Decidable (∀ n ∈ postorderAt [] t, _ ∧ _))

/-- A node that is evaluated, and the place of a run where that happens. -/
abbrev Visit := Located × Place

/-- An attribute with the operand that its own tree has left. -/
def Visit.given? (v : Visit) : Option (String × Value) :=
  match v.1.node with
  | .call (.attr name) .. => v.2.machine.stack.head?.map (name, ·)
  | _ => none

/-- A table after attributes have been added to it. -/
def collected (start : NameTable Value) (visits : List Visit) : NameTable Value :=
  (visits.filterMap Visit.given?).foldl (fun attrs e => attrs.insert e.1 e.2) start

/-- The attributes written on a node itself. -/
def CallTree.Located.written (n : Located) (visits : List Visit) : NameTable Value :=
  collected [] (visits.filter fun v => v.1.place.tail = n.place)

theorem collected_append (start : NameTable Value) (l l' : List Visit) :
    collected start (l ++ l') = collected (collected start l) l' := by
  simp only [collected, List.filterMap_append, List.foldl_append]

theorem Opcode.immediate?_builtin {o : Opcode} (h : b.opcode? = some o) : o.immediate? = none := by
  cases b <;> cases h <;> rfl

/-! ## Pieces that leave attributes alone -/

/-- The piece leaves the attributes as they are. -/
def Exec.SparesAttrs (x : Exec α) : Prop := ∀ m, (x.run.run m).2.attrs = m.attrs

namespace Exec

theorem SparesAttrs.bind {g : α → Exec β} (hx : SparesAttrs x) (hg : ∀ a, SparesAttrs (g a)) :
    SparesAttrs (x >>= g) :=
  Leaves.bind hx hg

theorem Leaves.plain {π : Type} {part : Machine → π} {x : Exec Unit} (hx : Leaves part x) :
    Leaves part (plain x) := hx.bind fun _ => .pure _

theorem SparesAttrs.plain {x : Exec Unit} (hx : SparesAttrs x) : SparesAttrs (plain x) :=
  Leaves.plain hx

theorem apart_attrs : Apart (·.attrs) := fun _ _ _ => rfl

theorem sparesAttrs_pop : SparesAttrs pop := Leaves.pop apart_attrs

theorem sparesAttrs_peek (i : Nat) : SparesAttrs (peek i) := Leaves.peek apart_attrs i

theorem sparesAttrs_valueOf (name : String) : SparesAttrs (valueOf name) :=
  Leaves.valueOf apart_attrs name

theorem Leaves.nameOf {π : Type} {part : Machine → π} (hp : Apart part) (pos : Nat) (v : Value) :
    Leaves part (nameOf pos v) := by
  unfold Exec.nameOf
  split
  · exact .pure _
  · exact .fail hp _

theorem sparesAttrs_nameOf (pos : Nat) (v : Value) : SparesAttrs (nameOf pos v) :=
  Leaves.nameOf apart_attrs pos v

theorem sparesAttrs_push (v : Value) : SparesAttrs (push v) := Leaves.push apart_attrs v

theorem sparesAttrs_bind (name : String) (v : Value) : SparesAttrs (Exec.bind name v) := fun _ => rfl

/-- Of the instructions that address a constant, only calls and attributes concern attributes. -/
theorem sparesAttrs_runIndexed {run : CodeRef → Exec Flow} {family : Family} (v : Value)
    (hcall : family ≠ .call) (hattr : family ≠ .attr) :
    SparesAttrs (runIndexed fuel run pos family v) := by
  cases family with
  | push => exact (sparesAttrs_push v).plain
  | store =>
    refine sparesAttrs_pop.bind fun value => (sparesAttrs_nameOf pos v).bind fun name => ?_
    exact (sparesAttrs_bind name value).plain
  | storeKeep =>
    refine (sparesAttrs_peek 0).bind fun value => (sparesAttrs_nameOf pos v).bind fun name => ?_
    exact (sparesAttrs_bind name value).plain
  | load =>
    refine (sparesAttrs_nameOf pos v).bind fun name => (sparesAttrs_valueOf name).bind fun value => ?_
    exact (sparesAttrs_push value).plain
  | call => exact absurd rfl hcall
  | attr => exact absurd rfl hattr

theorem sparesAttrs_compile (items : List Value) (dynamic : Bool) :
    SparesAttrs (compile items dynamic) := Leaves.compile (fun _ => rfl) fun _ => rfl

theorem sparesAttrs_bodyCode (body : Value) : SparesAttrs (bodyCode body) :=
  Leaves.bodyCode apart_attrs sparesAttrs_compile body

theorem sparesAttrs_functionCode (ref : FunctionRef) : SparesAttrs (functionCode ref) := by
  intro m
  rw [functionCode, run_bind_of_ok (run_heap m)]
  rcases m.world.heap.callable? ref with _ | b | ⟨f, _ | code⟩
  · rfl
  · rfl
  · dsimp only
    cases f.main with
    | block items dynamic => exact ((sparesAttrs_compile items dynamic).bind fun code _ => rfl) m
    | _ => rfl
  · rfl

end Exec

/-! ## What bodies begin with -/

/-- What the search for its code leaves is what a body begins with, one level deeper. -/
theorem part_start? {π : Type} {part : Machine → π} {code : Exec CodeRef} (hcode : Leaves part code)
    (h : Place.start? fuel code m = some p) : part p.machine = part { m with depth := m.depth + 1 } := by
  have hsame := hcode { m with depth := m.depth + 1 }
  unfold Place.start? at h
  revert hsame h
  rcases code.run.run { m with depth := m.depth + 1 } with ⟨e | found, after⟩ <;> intro h hsame
  · cases h
  · obtain rfl := Option.some.inj h
    exact hsame

theorem attrs_start? {code : Exec CodeRef} (hcode : SparesAttrs code)
    (h : Place.start? fuel code m = some p) : p.machine.attrs = m.attrs := part_start? hcode h

/-- A body in place begins with what is pending where it is run. -/
theorem Machine.Begins.attrs_eq {body : Value} (h : m.Begins fuel body p) :
    p.machine.attrs = m.attrs := attrs_start? (sparesAttrs_bodyCode body) h.2

/-- The body of a function begins with nothing. -/
theorem attrs_start?_function (h : Place.start? fuel (functionCode ref) (m.entered f) = some p) :
    p.machine.attrs = [] := attrs_start? (sparesAttrs_functionCode ref) h

theorem exists_start? {code : Exec CodeRef} {flow : Flow}
    (h : (descend (runCode fuel) code).run.run m = (.ok flow, after)) :
    ∃ p, Place.start? fuel code m = some p := by
  unfold Place.start?
  rw [descend, run_bind_of_ok (run_modify ..), run_afterwards, run_bind] at h
  rcases hcode : code.run.run { m with depth := m.depth + 1 } with ⟨e | found, n⟩
  · rw [hcode] at h
    cases h
  · exact ⟨_, rfl⟩

/-! ## What calls leave -/

/-- The next instruction is a call of a user function. -/
inductive Place.CallsUser (p : Place) (ref : FunctionRef) (f : UserFunction) : Prop
  | call {index : Nat} {c : Value} {c? : Option CodeRef}
      (hi : (decode p.unit.code p.pos).instruction? = some (.indexed .call index))
      (hc : p.unit.constants[index]? = some c) (hr : p.machine.callee? c = some ref)
      (hf : p.machine.world.heap.callable? ref = some (.user f c?))

/-- The attributes that the call at a place leaves for the next one: an operation leaves none, and neither
does a function whose result is kept; a body, which begins with none, leaves those that are pending at its
end. -/
inductive Place.Leaves (p : Place) : NameTable Value → Prop
  | operation {b : Builtin} (h : p.Operates b) : Leaves p []
  | kept {ref : FunctionRef} {f : UserFunction} {v : Value} (h : p.CallsUser ref f)
      (hk : p.machine.kept? ref f = some v) : Leaves p []
  | body {fuel : Nat} {ref : FunctionRef} {f : UserFunction} {q : Place} (hp : p.fuel = fuel + 1)
      (h : p.CallsUser ref f)
      (hq : Place.start? fuel (functionCode ref) (p.machine.entered f) = some q)
      (hbegin : q.machine.attrs = []) : Leaves p q.outcome.2.attrs

theorem attrs_callBuiltin (fuel : Nat) (b : Builtin) (m : Machine) :
    ((callBuiltin fuel (runCode fuel) b).run.run m).2.attrs = [] := by
  rw [callBuiltin, run_afterwards]

/-- A call of a user function that ends has found its result kept, or has run its body. -/
theorem attrs_callFunction {c? : Option CodeRef} {flow : Flow}
    (hf : m.world.heap.callable? ref = some (.user f c?)) (h : m.call fuel ref = (.ok flow, after)) :
    ((m.kept? ref f).isSome ∧ after.attrs = []) ∨
      ∃ q, Place.start? fuel (functionCode ref) (m.entered f) = some q ∧
        after.attrs = q.outcome.2.attrs := by
  rcases Nat.lt_or_ge m.stack.length f.params.length with hlt | hle
  · obtain ⟨raised, hrun⟩ := run_callFunction_of_lt (runCode fuel) fuel hf hlt
    cases hrun.symm.trans h
  obtain ⟨memo, hrun⟩ := run_callFunction_of_le (runCode fuel) fuel hf hle
  have hrun := h.symm.trans hrun
  cases hk : m.kept? ref f with
  | some v =>
    rw [hk] at hrun
    cases hrun
    exact .inl ⟨rfl, rfl⟩
  | none =>
    simp only [hk] at hrun
    by_cases hdeep : m.world.config.maxDepth ≤ m.depth
    · rw [if_pos hdeep] at hrun
      cases hrun
    · rw [if_neg hdeep] at hrun
      obtain ⟨hends, -, hattrs⟩ := run_inScope (runCode fuel) (m := { m with attrs := [] })
        (o := f.options ref (0 < m.tryDepth)) rfl rfl (functionCode ref) (m.callKey? ref f) hle
      rw [← hrun] at hends hattrs
      have hends : Except.ok flow = (m.body fuel ref f).1.map fun _ => .done := hends
      have hattrs : after.attrs = (m.body fuel ref f).2.attrs := hattrs
      rcases hbody : m.body fuel ref f with ⟨e | flow', last⟩
      · rw [hbody] at hends
        cases hends
      · obtain ⟨q, hq⟩ := exists_start? hbody
        refine .inr ⟨q, hq, ?_⟩
        rw [hattrs, Machine.body, run_descend_of_start? hq]

/-! ## One node -/

namespace Place

theorem next?_of_stop {next : Nat} (h : decode p.unit.code p.pos = ⟨some (.op .stop), next⟩) :
    p.next? = none := by
  obtain ⟨fuel, u, pos, m⟩ := p
  unfold next?
  simp only [h]
  cases fuel <;> rfl

/-- Behind an instruction that neither jumps nor ends the unit. -/
theorem exists_of_next? {i : Instruction} {next : Nat} (hd : decode p.unit.code p.pos = ⟨some i, next⟩)
    (hj : ∀ condition target, i ≠ .jump condition target) (h : p.next? = some q) :
    ∃ fuel, p.fuel = fuel + 1 ∧ q.unit = p.unit ∧ q.pos = next ∧
      (runInstruction fuel (runCode fuel) p.unit p.pos i).run.run p.machine = (.ok .done, q.machine) := by
  cases advances_of_next? h with
  | jump hi _ =>
    rw [hd] at hi
    exact absurd (Option.some.inj hi) (hj _ _)
  | instruction hi _ _ hr =>
    rw [hd] at hi
    obtain rfl := Option.some.inj hi
    exact ⟨_, rfl, rfl, congrArg Decoded.next hd, hr⟩

/-- What becomes of the attributes at a place where a node is evaluated: a call leaves what it leaves, and
what is no call adds its attribute, if it is one. -/
inductive Adds (p : Place) (n : Located) (attrs : NameTable Value) : Prop
  | call (hn : n.node.makesCall = true) (h : p.Leaves attrs)
  | other (hn : n.node.makesCall = false) (h : attrs = collected p.machine.attrs [(n, p)])

theorem exists_callee {run : CodeRef → Exec Flow} {c : Value} {flow : Flow}
    (h : (callValue fuel run c).run.run m = (.ok flow, after)) : ∃ ref, m.callee? c = some ref := by
  cases c with
  | function ref => exact ⟨ref, rfl⟩
  | word name =>
    rw [callValue, valueOf, bind_assoc, run_bind_of_ok (run_get m)] at h
    dsimp only at h
    cases hg : m.world.get? name with
    | none =>
      rw [hg] at h
      cases h
    | some v =>
      rw [hg] at h
      cases v with
      | function ref => exact ⟨ref, by rw [Machine.callee?, hg]⟩
      | _ => cases h
  | _ => cases h

/-- A call that comes to its end leaves what it leaves. -/
theorem leaves_of_callValue {index : Nat} {c : Value} {flow : Flow} (hp : p.fuel = fuel + 1)
    (hi : (decode p.unit.code p.pos).instruction? = some (.indexed .call index))
    (hc : p.unit.constants[index]? = some c)
    (h : (callValue fuel (runCode fuel) c).run.run p.machine = (.ok flow, after)) :
    p.Leaves after.attrs := by
  obtain ⟨ref, hr⟩ := exists_callee h
  rw [run_callValue (runCode fuel) fuel hr] at h
  rcases hf : p.machine.world.heap.callable? ref with _ | b | ⟨f, c?⟩
  · rw [callFunction, run_bind_of_ok (run_heap _)] at h
    simp only [hf] at h
    cases h
  · by_cases ha : b.arity ≤ p.machine.stack.length
    · rw [← run_callValue (runCode fuel) fuel hr, run_callValue_builtin hr hf ha] at h
      have hempty := attrs_callBuiltin fuel b p.machine
      rw [h] at hempty
      exact hempty ▸ .operation (.call hi hc hr hf ha)
    · have hlt : p.machine.stack.length < (Callable.builtin b).arity := Nat.not_le.1 ha
      rw [callFunction, run_bind_of_ok (run_heap _)] at h
      simp only [hf] at h
      rw [run_bind_of_ok (run_height _), if_pos hlt] at h
      cases h
  · have hcall : p.CallsUser ref f := .call hi hc hr hf
    rcases attrs_callFunction hf h with ⟨hk, ha⟩ | ⟨q, hq, ha⟩
    · obtain ⟨v, hv⟩ := Option.isSome_iff_exists.1 hk
      exact ha ▸ .kept hcall hv
    · exact ha ▸ .body hp hcall hq (attrs_start?_function hq)

/-- An attribute takes the operand that its tree has left. -/
theorem attrs_of_runIndexed_attr {run : CodeRef → Exec Flow} {name : String} {flow : Flow}
    (h : (runIndexed fuel run pos .attr (.word name)).run.run m = (.ok flow, after)) :
    ∃ v, m.stack.head? = some v ∧ after.attrs = m.attrs.insert name v := by
  obtain ⟨world, stack, attrs, output, depth, tryDepth, raised, fresh, built⟩ := m
  cases stack with
  | nil => cases h
  | cons v stack =>
    cases h
    exact ⟨v, rfl, rfl⟩

theorem run_indexed {run : CodeRef → Exec Flow} {u : CodeUnit} {family : Family} {index : Nat} {c : Value}
    (hc : u.constants[index]? = some c) :
    runInstruction fuel run u pos (.indexed family index) = runIndexed fuel run pos family c := by
  simp only [runInstruction, hc]

/-- A node that is no call and no attribute adds nothing, if what it stands for spares the attributes. -/
theorem adds_of_spares {x : Exec Flow} {flow : Flow} (hn : n.node.makesCall = false)
    (hgiven : Visit.given? (n, p) = none) (hx : SparesAttrs x)
    (h : x.run.run p.machine = (.ok flow, after)) : p.Adds n after.attrs := by
  have hsame := hx p.machine
  rw [h] at hsame
  exact .other hn (by rw [hsame, collected, List.filterMap_cons, hgiven]; rfl)

theorem adds_of_indexed {family : Family} {index : Nat} {v : Value} {flow : Flow}
    (hn : n.node.makesCall = false) (hgiven : Visit.given? (n, p) = none) (hcall : family ≠ .call)
    (hattr : family ≠ .attr) (hc : Holds p.unit.constants index v)
    (h : (runInstruction fuel (runCode fuel) p.unit p.pos (.indexed family index)).run.run p.machine =
      (.ok flow, after)) : p.Adds n after.attrs := by
  obtain ⟨c, hc, -⟩ := hc
  rw [run_indexed hc] at h
  exact adds_of_spares hn hgiven (sparesAttrs_runIndexed c hcall hattr) h

/-- **What one node does to the attributes.** -/
theorem adds_of_becomes {A : CodeRef → Prop} {i : Instruction} {next : Nat} (hn : n.node.WellFormed A)
    (hd : decode p.unit.code p.pos = ⟨some i, next⟩) (hb : Becomes p.unit.constants n i)
    (h : p.next? = some q) : q.unit = p.unit ∧ q.pos = next ∧ p.Adds n q.machine.attrs := by
  have hj : ∀ condition target, i ≠ .jump condition target := by
    rintro condition target rfl
    cases hb
  obtain ⟨fuel, hp, hunit, hpos, hrun⟩ := exists_of_next? hd hj h
  have hi : (decode p.unit.code p.pos).instruction? = some i := by rw [hd]
  refine ⟨hunit, hpos, ?_⟩
  cases hb with
  | immediate hc hs =>
    refine adds_of_spares rfl rfl ?_ hrun
    unfold runInstruction runOpcode
    simp only [hc]
    exact (sparesAttrs_push _).plain
  | push hc => exact adds_of_indexed rfl rfl (by decide) (by decide) hc hrun
  | load hc => exact adds_of_indexed rfl rfl (by decide) (by decide) hc hrun
  | store hc => exact adds_of_indexed rfl rfl (by decide) (by decide) hc hrun
  | storeKeep _ hc => exact adds_of_indexed rfl rfl (by decide) (by decide) hc hrun
  | attr hc =>
    obtain ⟨c, hc, hs⟩ := hc
    obtain rfl := Value.eq_word_of_same hs
    obtain ⟨v, hv, ha⟩ := attrs_of_runIndexed_attr (run_indexed hc ▸ hrun)
    exact .other rfl (by rw [ha, collected, List.filterMap_cons, Visit.given?, hv]; rfl)
  | other hc =>
    obtain ⟨c, hc, -⟩ := hc
    exact .call rfl (leaves_of_callValue hp hi hc (run_indexed hc ▸ hrun))
  | operation place o arity children =>
    cases hn with
    | call hhead _ _ =>
      obtain ⟨b, hb⟩ := hhead
      have hempty := attrs_callBuiltin fuel b p.machine
      rw [← CodeUnit.runOpcode_builtin hb fuel (runCode fuel) p.pos] at hempty
      rw [runInstruction] at hrun
      rw [hrun] at hempty
      exact .call rfl (hempty ▸ .operation (.opcode hi hb))

end Place

end BlockLang
