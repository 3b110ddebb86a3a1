import BlockLang.Proofs.Machine.Attributes
import BlockLang.Proofs.Machine.Protecting

/-!
# What a dictionary holds

A dictionary is made of the labels of a block, with what they are bound to when the block has run.

**Theorem (`gathers`).** When a dictionary is made, its block has run to its end, and the keys are those of
its labels that are bound there, with the values that they have there. Each of these values was stored in the
course of the run, or it is left of a call that bound the name, or it is the one that the name was bound to
outside.

The last case is real: labels are found among the items of the block whether or not their stores are run, and
one that is not stored lets the binding around the block show through (`label_shows_outside`).

The run of the block is followed from its beginning to its end (`Place.Passes`). One instruction changes
the binding of a name only by storing it or by a call (`Place.binding_of_next?`), and so does the whole
run.
-/

namespace BlockLang

open Exec

variable {fuel pos : Nat} {m after : Machine} {p q : Place} {ps : List Place} {name : String} {v : Value}

/-! ## One instruction -/

namespace Place

/-- The next instruction binds a name to the operand on top. -/
structure Stores (p : Place) (name : String) (v : Value) : Prop where
  instruction : ∃ family index c,
    (decode p.unit.code p.pos).instruction? = some (.indexed family index) ∧
    (family = .store ∨ family = .storeKeep) ∧ p.unit.constants[index]? = some c ∧
    c.name? = some name
  operand : p.machine.stack.head? = some v

/-- The next instruction makes a call: of an operation by its opcode, or of whatever a constant says. -/
def MakesCall (p : Place) : Prop :=
  (∃ index, (decode p.unit.code p.pos).instruction? = some (.indexed .call index)) ∨
    ∃ o b, (decode p.unit.code p.pos).instruction? = some (.op o) ∧
      Builtin.opcode? b = some o

/-- The next instruction is a call, and the call leaves a name with another binding. -/
def Rebinds (p : Place) (name : String) : Prop :=
  p.MakesCall ∧ ∃ q, p.next? = some q ∧ q.machine.world.get? name ≠ p.machine.world.get? name

end Place

namespace Exec

variable {α : Type}

/-- The piece leaves the world as it is, however it ends. -/
abbrev LeavesWorld (x : Exec α) : Prop := Leaves (·.world) x

theorem apart_world : Apart (·.world) := fun _ _ _ => rfl

theorem leavesWorld_isTaken (condition : Condition) : LeavesWorld (isTaken condition) := by
  cases condition with
  | always => exact .pure _
  | ifTrue => exact (Leaves.pop apart_world).bind fun v => Leaves.answer apart_world _
  | ifFalse =>
    exact (Leaves.pop apart_world).bind fun v => (Leaves.answer apart_world _).bind fun _ => .pure _

/-- Of the opcodes, only those of operations concern the world. -/
theorem leavesWorld_runOpcode (fuel : Nat) (run : CodeRef → Exec Flow) (pos : Nat) {o : Opcode}
    (ho : ∀ b : Builtin, b.opcode? ≠ some o) : LeavesWorld (runOpcode fuel run pos o) := by
  have hnone : Builtin.ofOpcode? o = none := by
    cases hb : Builtin.ofOpcode? o with
    | none => rfl
    | some b => exact absurd (Builtin.ofOpcode?_eq_some_iff.1 hb) (ho b)
  unfold runOpcode
  split
  · exact (Leaves.push apart_world _).plain
  · split
    · exact .pure _
    · exact Leaves.plain ((Leaves.pop apart_world).bind fun _ => .pure _)
    · exact (Leaves.peek apart_world 0).bind fun _ => (Leaves.push apart_world _).plain
    · exact (Leaves.peek apart_world 1).bind fun _ => (Leaves.push apart_world _).plain
    · refine Leaves.plain ((Leaves.pop₂ apart_world).bind fun (a, b) => ?_)
      exact (Leaves.push apart_world b).bind fun _ => Leaves.push apart_world a
    · rw [hnone]
      exact Leaves.fail apart_world _

end Exec

theorem World.get?_set (w : World) (other : String) (v : Value) (name : String) :
    (w.set other v).get? name = if name = other then some v else w.get? name :=
  congrArg Prod.fst (Scope.entry_assign w.scope other (some v) (w.impliedArity? v) name) |>.trans
    (apply_ite Prod.fst ..)

namespace Place

/-- The name of a constant is bound to a value, and other names are left alone. -/
theorem get?_bindNamed (name : String) {c : Value} {flow : Flow}
    (h : (do plain (Exec.bind (← nameOf pos c) v) : Exec Flow).run.run m = (.ok flow, after)) :
    ∃ other, c.name? = some other ∧
      after.world.get? name = if name = other then some v else m.world.get? name := by
  unfold nameOf at h
  cases hc : c.name? with
  | none =>
    rw [hc] at h
    cases h
  | some other =>
    rw [hc] at h
    cases h
    exact ⟨other, rfl, World.get?_set ..⟩

/-- An instruction that addresses a constant and is no call binds the name of its constant to the operand on
top, if it is a store, and else nothing. -/
theorem get?_runIndexed {run : CodeRef → Exec Flow} {family : Family} {c : Value} {flow : Flow}
    (hcall : family ≠ .call)
    (h : (runIndexed fuel run pos family c).run.run m = (.ok flow, after)) :
    after.world.get? name = m.world.get? name ∨
      (family = .store ∨ family = .storeKeep) ∧ c.name? = some name ∧
        ∃ v, m.stack.head? = some v ∧ after.world.get? name = some v := by
  have hleaves {x : Exec Flow} (hx : LeavesWorld x) (h : x.run.run m = (.ok flow, after)) :
      after.world.get? name = m.world.get? name := by
    have hsame := hx m
    rw [h] at hsame
    exact congrArg (World.get? · name) hsame
  have hstored {n : Machine} {family : Family} {v : Value} (hf : family = .store ∨ family = .storeKeep)
      (hs : m.stack.head? = some v) (hw : n.world = m.world)
      (h : (do plain (Exec.bind (← nameOf pos c) v) : Exec Flow).run.run n = (.ok flow, after)) :
      after.world.get? name = m.world.get? name ∨
        (family = .store ∨ family = .storeKeep) ∧ c.name? = some name ∧
          ∃ v, m.stack.head? = some v ∧ after.world.get? name = some v := by
    obtain ⟨other, hc, hv⟩ := get?_bindNamed name h
    by_cases hn : name = other
    · exact .inr ⟨hf, hn ▸ hc, v, hs, hv.trans (if_pos hn)⟩
    · exact .inl (hw ▸ hv.trans (if_neg hn))
  cases family with
  | call => exact absurd rfl hcall
  | push => exact .inl (hleaves (Leaves.push apart_world c).plain h)
  | load =>
    refine .inl (hleaves ?_ h)
    exact (Leaves.nameOf apart_world pos c).bind fun other =>
      (Leaves.valueOf apart_world other).bind fun v => (Leaves.push apart_world v).plain
  | attr =>
    refine .inl (hleaves ?_ h)
    exact (Leaves.pop apart_world).bind fun v => (Leaves.nameOf apart_world pos c).bind fun other =>
      Leaves.plain fun _ => rfl
  | store =>
    obtain ⟨world, stack, attrs, output, depth, tryDepth, raised, fresh, built⟩ := m
    cases stack with
    | nil => cases h
    | cons v stack =>
      exact hstored (n := ⟨world, stack, attrs, output, depth, tryDepth, raised, fresh, built⟩)
        (.inl rfl) rfl rfl h
  | storeKeep =>
    obtain ⟨world, stack, attrs, output, depth, tryDepth, raised, fresh, built⟩ := m
    cases stack with
    | nil => cases h
    | cons v stack => exact hstored (.inr rfl) rfl rfl h

/-- **One instruction** changes the binding of a name only by storing it or by a call. -/
theorem binding_of_next? (h : p.next? = some q) (name : String) :
    q.machine.world.get? name = p.machine.world.get? name ∨
      (∃ v, p.Stores name v ∧ q.machine.world.get? name = some v) ∨ p.Rebinds name := by
  by_cases hsame : q.machine.world.get? name = p.machine.world.get? name
  · exact .inl hsame
  have hrebinds (hcall : p.MakesCall) : p.Rebinds name := ⟨hcall, q, h, hsame⟩
  have hleaves {β : Type} {x : Exec β} {b : β} (hx : LeavesWorld x)
      (h : x.run.run p.machine = (.ok b, q.machine)) : False := by
    have hworld := hx p.machine
    rw [h] at hworld
    exact hsame (congrArg (World.get? · name) hworld)
  cases advances_of_next? h with
  | @jump fuel pos u m after condition target taken hi ht =>
    exact (hleaves (leavesWorld_isTaken condition) ht).elim
  | @instruction fuel pos u m after i hi hs hj hr =>
    cases i with
    | jump condition target => exact absurd rfl (hj condition target)
    | op o =>
      by_cases ho : ∃ b : Builtin, b.opcode? = some o
      · obtain ⟨b, hb⟩ := ho
        exact .inr (.inr (hrebinds (.inr ⟨o, b, hi, hb⟩)))
      · exact (hleaves (leavesWorld_runOpcode _ _ pos (not_exists.1 ho)) hr).elim
    | indexed family index =>
      by_cases hcall : family = .call
      · exact .inr (.inr (hrebinds (.inl ⟨index, hcall ▸ hi⟩)))
      · cases hc : u.constants[index]? with
        | none =>
          rw [runInstruction, hc] at hr
          cases hr
        | some c =>
          rw [run_indexed hc] at hr
          refine (get?_runIndexed hcall hr).imp_right fun hstored => .inl ?_
          obtain ⟨hf, hn, v, hv, hafter⟩ := hstored
          exact ⟨v, ⟨⟨family, index, c, hi, hf, hc, hn⟩, hv⟩, hafter⟩

/-! ## The whole run -/

/-- **A run** leaves a name with the value of one of its stores, or as a call has left it, or as it was. -/
theorem Passes.binding (h : p.Passes ps q) (name : String) :
    q.machine.world.get? name = p.machine.world.get? name ∨
      (∃ r ∈ ps, ∃ v, r.Stores name v ∧ q.machine.world.get? name = some v) ∨
        ∃ r ∈ ps, r.Rebinds name := by
  induction h with
  | here p => exact .inl rfl
  | next hn _ ih =>
    rcases ih with hsame | ⟨r, hr, hstored⟩ | ⟨r, hr, hcalled⟩
    · rcases binding_of_next? hn name with hfirst | ⟨v, hstores, hv⟩ | hcalls
      · exact .inl (hsame.trans hfirst)
      · exact .inr (.inl ⟨_, List.mem_cons_self, v, hstores, hsame.trans hv⟩)
      · exact .inr (.inr ⟨_, List.mem_cons_self, hcalls⟩)
    · exact .inr (.inl ⟨r, List.mem_cons_of_mem _ hr, hstored⟩)
    · exact .inr (.inr ⟨r, List.mem_cons_of_mem _ hr, hcalled⟩)

/-- The unit ends here. -/
def AtStop (p : Place) : Prop := 0 < p.fuel ∧ (decode p.unit.code p.pos).instruction? = some (.op .stop)

theorem fuel_of_next? (h : p.next? = some q) : p.fuel = q.fuel + 1 := by
  cases advances_of_next? h <;> rfl

/-- A unit that comes to its end without a next place is at its stop. -/
theorem atStop_of_next? (hn : p.next? = none) (h : p.outcome = (.ok .done, after)) :
    p.AtStop ∧ p.machine = after := by
  obtain ⟨fuel, unit, pos, m⟩ := p
  obtain _ | fuel := fuel
  · cases h
  unfold outcome at h
  unfold next? at hn
  dsimp only at h hn
  split at hn
  · next hzero => cases hzero
  · next hi _ =>
    rw [execute, hi] at h
    cases h
  · next hi _ =>
    rw [execute, hi] at h
    cases h
    exact ⟨⟨fuel.succ_pos, hi⟩, rfl⟩
  · next fuel condition target hfuel hi =>
    cases hfuel
    rw [execute, hi] at h
    dsimp only at h
    rw [run_bind] at h
    rcases hr : (isTaken condition).run.run m with ⟨halt | taken, n⟩
    · rw [hr] at h
      cases h
    · rw [hr] at hn
      cases hn
  · next fuel i hs hj hfuel hi =>
    cases hfuel
    rw [execute_instruction hi (by rintro rfl; exact hs rfl) (by rintro c t rfl; exact hj c t rfl),
      run_bind] at h
    rcases hr : (runInstruction fuel (runCode fuel) unit pos i).run.run m with ⟨halt | flow, n⟩
    · rw [hr] at h
      cases h
    · rw [hr] at h hn
      cases flow with
      | done => cases hn
      | _ => cases h

/-- A unit that comes to its end has passed places up to its stop. -/
theorem passes_of_outcome (h : p.outcome = (.ok .done, after)) :
    ∃ ps q, p.Passes ps q ∧ q.AtStop ∧ q.machine = after := by
  induction hf : p.fuel generalizing p with
  | zero =>
    rw [outcome, hf] at h
    cases h
  | succ fuel ih =>
    cases hn : p.next? with
    | some q =>
      have hq : q.fuel = fuel := Nat.succ.inj ((fuel_of_next? hn).symm.trans hf)
      obtain ⟨ps, r, hps, hr⟩ := ih (outcome_of_next? hn ▸ h) hq
      exact ⟨p :: ps, r, .next hn hps, hr⟩
    | none => exact ⟨[], p, .here p, atStop_of_next? hn h⟩

end Place

/-! ## The block of a dictionary -/

/-- Compiling a block leaves the bindings as they are. -/
theorem World.bindings_compile (w : World) (items : List Value) (dynamic : Bool) :
    (w.compile items dynamic).2.scope.bindings = w.scope.bindings := by
  obtain ⟨arities, names, heap, cache, h⟩ := exists_compile_eq w items dynamic
  rw [h]

namespace Exec

theorem leavesBindings_compile (items : List Value) (dynamic : Bool) :
    Leaves (·.world.scope.bindings) (compile items dynamic) :=
  .compile (fun _ => rfl) fun m => m.world.bindings_compile items dynamic

end Exec

/-- A body begins with the bindings that are there where it is run. -/
theorem Machine.Begins.get?_eq {body : Value} (h : m.Begins fuel body p) (name : String) :
    p.machine.world.get? name = m.world.get? name :=
  congrArg (NameTable.get? · name)
    (part_start? (Leaves.bodyCode (fun _ _ _ => rfl) leavesBindings_compile body) h.2)

/-- A body in place that comes to an end has begun, and ends as its code does. -/
theorem begins_of_runInPlace {body : Value} {flow : Flow}
    (h : (runInPlace (runCode fuel) body).run.run m = (.ok flow, after)) :
    ∃ p, m.Begins fuel body p ∧ p.outcome.1 = .ok flow ∧ after.world = p.outcome.2.world := by
  have hnone : (findKept none).run.run m = (.ok none, m) := rfl
  have himports : (bindAll []).run.run m = (.ok ⟨⟩, m) := rfl
  have hparams : (bindParameters []).run.run m = (.ok ⟨⟩, m) := rfl
  rw [runInPlace, runBlock, runScoped, run_bind_of_ok (run_get m)] at h
  dsimp only [List.length_nil, Option.map_none] at h
  rw [if_neg (Nat.not_lt_zero _), run_bind_of_ok hnone] at h
  dsimp only at h
  by_cases hdeep : m.world.config.maxDepth ≤ m.depth
  · rw [if_pos hdeep] at h
    cases h
  rw [if_neg hdeep, inScope, run_bind_of_ok (run_get m), run_bind_of_ok himports,
    run_bind_of_ok hparams, run_bind_of_ok (run_height m), run_bind_of_ok (run_observe ..)] at h
  rcases hd : (descend (runCode fuel) (bodyCode body)).run.run m with ⟨halt | flow', n⟩
  · rw [hd] at h
    cases h
  · obtain ⟨p, hp⟩ := exists_start? hd
    rw [hd] at h
    cases h
    rw [run_descend_of_start? hp] at hd
    exact ⟨p, ⟨Nat.not_le.1 hdeep, hp⟩, congrArg Prod.fst hd, congrArg (·.2.world) hd.symm⟩

theorem get?_foldl_put (w : World) (names : List String) (entries : NameTable Value) (name : String) :
    (names.foldl (fun entries name => entries.put name (w.get? name)) entries).get? name =
      if name ∈ names then w.get? name else entries.get? name := by
  induction names generalizing entries with
  | nil => simp
  | cons first names ih =>
    rw [List.foldl_cons, ih]
    by_cases h : name = first
    · subst h
      simp
    · simp [h]

theorem get?_entriesOf (w : World) (items : List Value) (name : String) (v : Value) :
    (entriesOf w (Value.labels items)).get? name = some v ↔
      .label name ∈ items ∧ w.get? name = some v := by
  rw [entriesOf, get?_foldl_put, ← Value.mem_labels]
  split
  · next h => simp [h]
  · next h => simp [h]

theorem Heap.dictionary_addDictionary (h : Heap) (entries : NameTable Value) :
    (h.addDictionary entries).2.dictionary (h.addDictionary entries).1 = entries := by
  simp [Heap.dictionary, Heap.addDictionary]

/-- The entries of the dictionary that is on top of the operands. -/
def Machine.topDictionary? (m : Machine) : Option (NameTable Value) :=
  match m.stack.head? with
  | some (.dictionary ref) => some (m.world.heap.dictionary ref)
  | _ => none

/-- A dictionary is made when its body has come to its end, and of the bindings that are there then. -/
theorem run_makeDictionary {run : CodeRef → Exec Flow} {body : Value} {rest : List Value}
    (hs : m.stack = body :: rest) (h : (makeDictionary run).run.run m = (.ok .done, after)) :
    ∃ items inner, body.items? = some items ∧
      (runInPlace run body).run.run { m with stack := rest } = (.ok .done, inner) ∧
      after.topDictionary? = some (entriesOf inner.world (Value.labels items)) := by
  rw [makeDictionary, run_bind_of_ok (run_pop_of hs)] at h
  cases hitems : body.items? with
  | none =>
    rw [hitems] at h
    cases h
  | some items =>
    rw [hitems] at h
    dsimp only at h
    rw [run_bind_of_ok (run_height _), run_bind, run_protecting _ (Prod.eta _).symm, run_bind] at h
    rcases hbody : (runInPlace run body).run.run { m with stack := rest } with ⟨halt | flow, inner⟩
    · rw [hbody] at h
      cases h
    · rw [hbody] at h
      cases flow with
      | done =>
        cases h
        exact ⟨items, inner, rfl, rfl, congrArg some (Heap.dictionary_addDictionary ..)⟩
      | _ => cases h

/-- The dictionary on top of the operands in `after` has the given entries. It was made in `m` by running the
block `items` from `start` to `stop`, through the places `ps`. -/
structure Gathers (m : Machine) (items : List Value) (start : Place) (ps : List Place) (stop : Place)
    (entries : NameTable Value) (after : Machine) : Prop where
  run : start.Passes ps stop
  atStop : stop.AtStop
  top : after.topDictionary? = some entries
  /-- The keys are the labels that are bound at the end, with the values that they have there. -/
  keys (name : String) (v : Value) :
    entries.get? name = some v ↔ .label name ∈ items ∧ stop.machine.world.get? name = some v
  /-- Each value was bound to the name outside, or it was stored in the run, or a call has bound the
  name. -/
  origin (name : String) (v : Value) : entries.get? name = some v →
    m.world.get? name = some v ∨ (∃ p ∈ ps, p.Stores name v) ∨ ∃ p ∈ ps, p.Rebinds name

/-- **A dictionary holds the labels that are bound when its block has run**, and of each the value that was
stored in the run, or that a call has left, or that was there before. -/
theorem gathers {body : Value} {rest : List Value} (hs : m.stack = body :: rest)
    (h : m.performed fuel (runCode fuel) .dictionary = (.ok .done, after)) :
    ∃ items start ps stop entries, body.items? = some items ∧
      Machine.Begins { m with stack := rest } fuel body start ∧
      Gathers m items start ps stop entries after := by
  obtain ⟨items, inner, hitems, hbody, htop⟩ := run_makeDictionary hs h
  obtain ⟨start, hstart, hdone, hworld⟩ := begins_of_runInPlace hbody
  obtain ⟨ps, stop, hrun, hstop, hlast⟩ := Place.passes_of_outcome (Prod.ext hdone rfl)
  have hkeys (name : String) (v : Value) :
      (entriesOf inner.world (Value.labels items)).get? name = some v ↔
        .label name ∈ items ∧ stop.machine.world.get? name = some v := by
    rw [get?_entriesOf, hworld, hlast]
  refine ⟨items, start, ps, stop, _, hitems, hstart, hrun, hstop, htop, hkeys, fun name v hv => ?_⟩
  have hbound := ((hkeys name v).1 hv).2
  rcases hrun.binding name with hsame | ⟨p, hp, u, hstores, hu⟩ | hcalled
  · exact .inl ((hstart.get?_eq name).symm.trans (hsame.symm.trans hbound))
  · cases hu.symm.trans hbound
    exact .inr (.inl ⟨p, hp, hstores⟩)
  · exact .inr (.inr hcalled)

/-- Of two labels, one behind an arrow, only the other is stored, and is a key. -/
theorem gathers_stored :
    let body : Value :=
      .block [.label "x", .integer 1, .symbol .arrow, .label "y", .integer 2] false
    let m : Machine := { world := World.initial {}, stack := [body] }
    ∃ items start ps stop entries after, m.performed 100 (runCode 100) .dictionary = (.ok .done, after) ∧
      Gathers m items start ps stop entries after ∧
      (entries.get? "x").bind Value.integer? = some 1 ∧ (entries.get? "y").isNone := by
  intro body m
  have hruns : (m.performed 100 (runCode 100) .dictionary).1 = .ok .done ∧
    ∃ entries ∈ (m.performed 100 (runCode 100) .dictionary).2.topDictionary?,
      (entries.get? "x").bind Value.integer? = some 1 ∧ (entries.get? "y").isNone := by
    decide +kernel
  obtain ⟨hdone, entries, htop, hx, hy⟩ := hruns
  obtain ⟨after, hafter⟩ := exists_eq_of_fst_eq hdone
  rw [hafter] at htop
  have hs : m.stack = [body] := rfl
  obtain ⟨items, start, ps, stop, entries', -, -, hgathers⟩ := gathers hs hafter
  obtain rfl := Option.some.inj (htop.symm.trans hgathers.top)
  exact ⟨items, start, ps, stop, entries, after, hafter, hgathers, hx, hy⟩

/-- A label that is not stored shows what the name is bound to outside: behind the arrow, the label is only a
part of a block that is pushed. -/
theorem label_shows_outside :
    let body : Value := .block [.symbol .arrow, .label "x", .integer 1] false
    let m : Machine := { world := (World.initial {}).set "x" (.integer 5), stack := [body] }
    ∃ start ps stop after, Machine.Begins { m with stack := [] } 100 body start ∧
      start.Passes ps stop ∧ stop.AtStop ∧ (∀ p ∈ ps, ∀ v, ¬ p.Stores "x" v) ∧
      m.performed 100 (runCode 100) .dictionary = (.ok .done, after) ∧
      ∃ entries, after.topDictionary? = some entries ∧
        (entries.get? "x").bind Value.integer? = some 5 := by
  intro body m
  have hruns : m.depth < m.world.config.maxDepth ∧
    (m.performed 100 (runCode 100) .dictionary).1 = .ok .done ∧
    (∃ entries ∈ (m.performed 100 (runCode 100) .dictionary).2.topDictionary?,
      (entries.get? "x").bind Value.integer? = some 5) ∧
    ∃ start ∈ Place.start? 100 (bodyCode body) { m with stack := [] },
    ∃ way ∈ start.walk? 1, 0 < way.2.fuel ∧
      (decode way.2.unit.code way.2.pos).instruction? = some (.op .stop) ∧
      ∀ p ∈ way.1, (decode p.unit.code p.pos).instruction? = some (.indexed .push 0) := by
    decide +kernel
  obtain ⟨hdepth, hdone, ⟨entries, htop, hx⟩, start, hstart, ⟨ps, stop⟩, hway, hfuel, hstop, hpush⟩ := hruns
  obtain ⟨after, hafter⟩ := exists_eq_of_fst_eq hdone
  rw [hafter] at htop
  refine ⟨start, ps, stop, after, ⟨hdepth, hstart⟩, Place.passes_of_walk? hway, ⟨hfuel, hstop⟩, ?_,
    hafter, entries, htop, hx⟩
  rintro p hp v ⟨⟨family, index, c, hi, hfamily, -⟩, -⟩
  cases (hpush p hp).symm.trans hi
  simp at hfamily

end BlockLang
