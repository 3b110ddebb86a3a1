import BlockLang.Proofs.CallTree.Pure
import BlockLang.Proofs.Code.Faithful
import BlockLang.Proofs.Machine.Fuel
import Mathlib.Data.List.Pairwise

/-!
# The code of pure expressions

A pure expression has a result in a world: a value, or the error of the first operation that fails
(`PureExpr.Gives`). Its code, run without attributes, leaves that value on top of the operands and
changes nothing else, or fails with that error and changes neither the world nor the output.

* `LeadsTo` — given enough fuel, one piece of a run goes on as another.
* `evaluates_of_gives` — the code of an expression with a result leads to that result.
* `exists_gives` — an expression whose code comes to any end at all has a result.

Only comparing for equality can lack a result: two dictionaries that contain themselves are compared
for ever. The second theorem is what makes the first say everything about a run.
-/

namespace BlockLang

open CallTree Exec

variable {α : Type}

/-! ## Going on -/

/-- With enough fuel, the first piece does from `m` what the second does from `m'`. -/
def Exec.LeadsTo (x : Nat → Exec α) (m : Machine) (y : Nat → Exec α) (m' : Machine) : Prop :=
  ∃ spent least, ∀ fuel, least ≤ fuel → (x (fuel + spent)).run.run m = (y fuel).run.run m'

namespace Exec.LeadsTo

variable {x y z : Nat → Exec α} {m m' m'' : Machine} {r : Except Halt α × Machine}

protected theorem trans (h : LeadsTo x m y m') (h' : LeadsTo y m' z m'') : LeadsTo x m z m'' := by
  obtain ⟨spent, least, h⟩ := h
  obtain ⟨spent', least', h'⟩ := h'
  refine ⟨spent' + spent, max least least', fun fuel hle => ?_⟩
  rw [← Nat.add_assoc, h (fuel + spent') (by omega), h' fuel (by omega)]

/-- Pieces of which one leads to the other have the same outcomes. -/
theorem ends_iff (h : LeadsTo x m y m')
    (hx : ∀ {fuel fuel'}, fuel ≤ fuel' → Within (x fuel) (x fuel'))
    (hy : ∀ {fuel fuel'}, fuel ≤ fuel' → Within (y fuel) (y fuel')) :
    Ends x m r ↔ Ends y m' r := by
  obtain ⟨spent, least, h⟩ := h
  constructor
  · intro hr
    obtain ⟨enough, he⟩ := hr.of_le hx
    refine ⟨hr.1, max least enough, ?_⟩
    rw [← h _ (Nat.le_max_left ..), he _ (by omega)]
  · intro hr
    obtain ⟨enough, he⟩ := hr.of_le hy
    refine ⟨hr.1, max least enough + spent, ?_⟩
    rw [h _ (Nat.le_max_left ..), he _ (Nat.le_max_right ..)]

end Exec.LeadsTo

/-- From `m'`, the piece goes on with the value of a result in `m`, or it fails with the error of the
result and leaves the world and the output of `m`. -/
def Exec.Concludes {β : Type} (x : Nat → Exec α) (m' : Machine) (k : β → Nat → Exec α) (m : Machine) :
    Except RuntimeError β → Prop
  | .ok b => LeadsTo x m' (k b) m
  | .error c => ∃ failed, failed.world = m.world ∧ failed.output = m.output ∧
      LeadsTo x m' (fun _ => throw (.error (.runtime c))) failed

namespace Exec.Concludes

variable {β γ : Type} {x y : Nat → Exec α} {k : β → Nat → Exec α} {k' : γ → Nat → Exec α}
  {m m' m'' : Machine} {q : Except RuntimeError β}

theorem after (h : LeadsTo x m'' y m') (hq : Concludes y m' k m q) : Concludes x m'' k m q := by
  cases q with
  | ok b => exact h.trans hq
  | error c =>
    obtain ⟨failed, hw, ho, hfailed⟩ := hq
    exact ⟨failed, hw, ho, h.trans hfailed⟩

/-- What goes on with a value may itself conclude. -/
protected theorem bind {f : β → Except RuntimeError γ} (h : Concludes x m' k m q)
    (hk : ∀ b, Concludes (k b) m k' m (f b)) : Concludes x m' k' m (q >>= f) := by
  cases q with
  | ok b => exact (hk b).after h
  | error c => exact h

theorem ends_error {c : RuntimeError} (h : Concludes x m' k m (.error c)) :
    ∃ failed, failed.world = m.world ∧ failed.output = m.output ∧
      Ends x m' (.error (.error (.runtime c)), failed) := by
  obtain ⟨failed, hw, ho, spent, least, h⟩ := h
  exact ⟨failed, hw, ho, nofun, least + spent, h least (Nat.le_refl _)⟩

end Exec.Concludes

/-! ## Instructions -/

namespace CodeUnit

variable {u : CodeUnit} {pos next stop : Nat} {m m' : Machine} {i : Instruction}
  {e : Emission} {l l' : List Emission}

/-- Reading the unit from one offset to another gives the instructions of the emissions. -/
inductive Reads (u : CodeUnit) : (pos : Nat) → List Emission → (stop : Nat) → Prop
  | nil (pos : Nat) : Reads u pos [] pos
  | cons {pos next stop : Nat} {i : Instruction} {e : Emission} {l : List Emission}
      (hd : decode u.code pos = ⟨some i, next⟩) (he : e.Assembled u.constants i)
      (hl : Reads u next l stop) : Reads u pos (e :: l) stop

theorem exists_reads_of_append (h : Reads u pos (l ++ l') stop) :
    ∃ mid, Reads u pos l mid ∧ Reads u mid l' stop := by
  induction l generalizing pos with
  | nil => exact ⟨pos, .nil pos, h⟩
  | cons e l ih =>
    cases h with
    | cons hd he hl =>
      obtain ⟨mid, h, h'⟩ := ih hl
      exact ⟨mid, .cons hd he h, h'⟩

theorem reads_of_decodes {is : List Instruction} (hd : Decodes u.code pos is stop)
    (hl : List.Forall₂ (Emission.Assembled u.constants) l is) : Reads u pos l stop := by
  induction hd generalizing l with
  | nil pos =>
    cases hl
    exact .nil pos
  | cons hi _ ih =>
    cases hl with
    | cons he hl => exact .cons hi he (ih hl)

/-- The code of call trees reads as the emissions of their nodes. -/
theorem reads_of_ofCalls {A : CodeRef → Prop} {trees : List CallTree}
    (ht : ∀ t ∈ trees, t.WellFormed A) (h : CodeUnit.ofCalls trees = .ok u) :
    Reads u 0 ((postorder trees).map Located.emission) (u.code.size - 1) := by
  obtain ⟨hc, hd, -⟩ := decodes_of_ofCalls ht h
  refine reads_of_decodes hd ?_
  rw [hc]
  exact (assembles_bodyOf trees).instructions

theorem execute_op {o : Opcode} (hd : decode u.code pos = ⟨some (.op o), next⟩) (ho : o ≠ .stop)
    (fuel : Nat) : execute (fuel + 1) u pos = (do
      match ← runOpcode fuel (runCode fuel) pos o with
      | .done => execute fuel u next
      | flow => return flow) := by
  rw [execute, hd]
  dsimp only
  split
  · contradiction
  · next h => exact absurd (Instruction.op.inj (Option.some.inj h)) ho
  · next h => cases h
  · next h =>
    cases h
    rfl

theorem execute_indexed {family : Family} {index : Nat} {c : Value}
    (hd : decode u.code pos = ⟨some (.indexed family index), next⟩)
    (hc : u.constants[index]? = some c) (fuel : Nat) : execute (fuel + 1) u pos = (do
      match ← runIndexed fuel (runCode fuel) pos family c with
      | .done => execute fuel u next
      | flow => return flow) := by
  rw [execute, hd]
  simp only [runInstruction, hc]
  rfl

/-! ## Constants -/

/-- The value that a constant of the unit pushes: that of its opcode, or else the first value of the
pool that is the same. -/
def constantFor (u : CodeUnit) (v : Value) : Value :=
  match Opcode.ofImmediate? v with
  | some o => (o.immediate?).getD v
  | none => (u.constants.toList.find? (Value.same · v)).getD v

theorem same_constantFor (u : CodeUnit) (v : Value) : Value.same (u.constantFor v) v := by
  unfold constantFor
  cases ho : Opcode.ofImmediate? v with
  | some o =>
    obtain ⟨c, hc, hs⟩ := Opcode.exists_immediate ho
    dsimp only
    rwa [hc]
  | none =>
    cases hf : u.constants.toList.find? (Value.same · v) with
    | some c => exact List.find?_some (p := (Value.same · v)) hf
    | none => exact Value.same_refl v

/-- No two constants are the same. -/
def Distinct (u : CodeUnit) : Prop := u.constants.toList.Pairwise fun a b => ¬ Value.same a b

theorem eq_of_same_constants (hu : u.Distinct) {a b : Value} (ha : a ∈ u.constants.toList)
    (hb : b ∈ u.constants.toList) (h : Value.same a b) : a = b := by
  have hsymm : Std.Symm fun a b => ¬ Value.same a b := ⟨fun _ _ h h' => h (Value.same_symm h')⟩
  by_contra hne
  exact hu.forall ha hb hne h

theorem constantFor_eq (hu : u.Distinct) {v c : Value} {index : Nat}
    (ho : Opcode.ofImmediate? v = none) (hc : u.constants[index]? = some c)
    (hs : Value.same c v) : u.constantFor v = c := by
  have hmem : c ∈ u.constants.toList :=
    Array.mem_toList_iff.2 (Array.mem_of_getElem? hc)
  unfold constantFor
  rw [ho]
  dsimp only
  cases hf : u.constants.toList.find? (Value.same · v) with
  | some d =>
    have hd : Value.same d v := List.find?_some (p := (Value.same · v)) hf
    exact eq_of_same_constants hu (List.mem_of_find?_eq_some hf) hmem
      (Value.same_trans hd (Value.same_symm hs))
  | none => exact absurd hs (List.find?_eq_none.1 hf c hmem)

end CodeUnit

theorem Value.eq_word_of_same {c : Value} {name : String} (h : same c (.word name)) :
    c = .word name := by
  cases c <;> first | cases h | exact congrArg Value.word (beq_iff_eq.1 h)

theorem Value.eq_of_same_isNumeric {c v : Value} (hv : v.isNumeric) (h : same c v) : c = v := by
  have hstatic (v : Value) (hv : v.isNumeric) : v.static = v := by
    cases v <;> first | rfl | cases hv
  have hkind : c.isNumeric := by
    cases v <;> cases hv <;> cases c <;> first | rfl | cases h
  rw [← hstatic c hkind, ← hstatic v hv]
  exact (same_iff c v).1 h

/-! ## Results -/

/-- The result of the operation on two values, if `depth` levels of nesting suffice. -/
def Binary.result? (heap : Heap) (depth : Nat) (x y : Value) :
    Binary → Option (Except RuntimeError Value)
  | arith op => some (op.apply x y)
  | bits op => some (op.apply x y)
  | both => some (Value.combine "and?" and x y)
  | either => some (Value.combine "or?" or x y)
  | ordered c => some (c.apply x y)
  | equal expected =>
    (Value.equalWithin heap depth x y).map fun b => .ok (.logical (b == expected))

theorem Binary.result?_of_le {heap : Heap} {depth depth' : Nat} (hle : depth ≤ depth') {x y : Value}
    (f : Binary) {q : Except RuntimeError Value} (h : f.result? heap depth x y = some q) :
    f.result? heap depth' x y = some q := by
  cases f with
  | equal expected =>
    obtain ⟨b, hb, rfl⟩ := Option.map_eq_some_iff.1 h
    exact Option.map_eq_some_iff.2 ⟨b, Value.equalWithin_of_le hle hb, rfl⟩
  | _ => exact h

/-- The expression has the given result in a world. What its constants stand for is given by `read`. -/
inductive PureExpr.Gives (read : Value → Value) (w : World) :
    PureExpr → Except RuntimeError Value → Prop
  | constant (v : Value) : Gives read w (constant v) (.ok (read v))
  | bound {name : String} {v : Value} (h : w.get? name = some v) : Gives read w (load name) (.ok v)
  | unbound {name : String} (h : w.get? name = none) :
      Gives read w (load name) (.error (w.undefined name))
  | unary (f : Unary) {a : PureExpr} {x : Value} (ha : Gives read w a (.ok x)) :
      Gives read w (unary f a) (f.apply x)
  | operandFails (f : Unary) {a : PureExpr} {c : RuntimeError} (ha : Gives read w a (.error c)) :
      Gives read w (unary f a) (.error c)
  | binary {f : Binary} {a b : PureExpr} {x y : Value} {q : Except RuntimeError Value} {depth : Nat}
      (ha : Gives read w a (.ok x)) (hb : Gives read w b (.ok y))
      (h : f.result? w.heap depth x y = some q) : Gives read w (binary f a b) q
  | firstFails (f : Binary) {a : PureExpr} (b : PureExpr) {c : RuntimeError}
      (ha : Gives read w a (.error c)) : Gives read w (binary f a b) (.error c)
  | secondFails (f : Binary) {a b : PureExpr} {x : Value} {c : RuntimeError}
      (ha : Gives read w a (.ok x)) (hb : Gives read w b (.error c)) :
      Gives read w (binary f a b) (.error c)

/-- What an operation that computes `q` does, once it has taken its operands. -/
def Machine.answer (m : Machine) : Except RuntimeError Value → Except Halt Flow × Machine
  | .ok v => (.ok .done, { m with stack := v :: m.stack })
  | .error c => (.error (.error (.runtime c)), { m with raised := c :: m.raised })

section

variable {m : Machine} {fuel : Nat} {run : CodeRef → Exec Flow} {x y : Value}

/-- An operation that only pushes what it computes leaves no attributes, as it was given none. -/
theorem run_callBuiltin_plain {z : Exec Unit} {b : Builtin} {m' : Machine}
    {q : Except RuntimeError Value} (hm : m.attrs = []) (hb : perform fuel run b = plain z)
    (hz : z.run.run m' = (do push (← q) : Exec Unit).run.run m) :
    (callBuiltin fuel run b).run.run m' = m.answer q := by
  have hclear (stack : List Value) (raised : List RuntimeError) :
      ({ m with stack, raised, attrs := [] } : Machine) = { m with stack, raised } := by rw [← hm]
  rw [callBuiltin, run_afterwards, hb, plain, run_bind, hz]
  cases q with
  | ok v => exact congrArg (Prod.mk _) (hclear (v :: m.stack) m.raised)
  | error c => exact congrArg (Prod.mk _) (hclear m.stack (c :: m.raised))

/-- What a pure operation on one operand does. -/
theorem run_unary (hm : m.attrs = []) (f : Unary) :
    (callBuiltin fuel run f.builtin).run.run { m with stack := x :: m.stack } =
      m.answer (f.apply x) := by
  have hpop : pop.run.run { m with stack := x :: m.stack } = (.ok x, m) := rfl
  have hb : perform fuel run f.builtin = plain (apply f.apply) := by cases f <;> rfl
  refine run_callBuiltin_plain hm hb ?_
  rw [apply, run_bind_of_ok hpop]

theorem run_pop₂ : pop₂.run.run { m with stack := y :: x :: m.stack } = (.ok (x, y), m) := rfl

theorem perform_equal (expected : Bool) :
    perform fuel run (Binary.equal expected).builtin = plain (compareEqual fuel expected) := by
  cases expected <;> rfl

/-- What a pure operation on two operands does. -/
theorem run_binary (hm : m.attrs = []) {f : Binary} {q : Except RuntimeError Value}
    (hq : f.result? m.world.heap fuel x y = some q) :
    (callBuiltin fuel run f.builtin).run.run { m with stack := y :: x :: m.stack } =
      m.answer q := by
  have happly {g : Value → Value → Except RuntimeError Value}
      (hb : perform fuel run f.builtin = plain (apply₂ g)) :
      (callBuiltin fuel run f.builtin).run.run { m with stack := y :: x :: m.stack } =
        m.answer (g x y) := by
    refine run_callBuiltin_plain hm hb ?_
    rw [apply₂, run_bind_of_ok run_pop₂]
  cases f with
  | equal expected =>
    obtain ⟨b, hb, rfl⟩ := Option.map_eq_some_iff.1 hq
    have hequal : (areEqual fuel x y).run.run m = (.ok b, m) := by rw [run_areEqual, hb]
    refine run_callBuiltin_plain hm (perform_equal expected) ?_
    rw [compareEqual, run_bind_of_ok run_pop₂, run_bind_of_ok hequal]
    rfl
  | arith op =>
    obtain rfl := Option.some.inj hq
    exact happly (by cases op <;> rfl)
  | bits op =>
    obtain rfl := Option.some.inj hq
    exact happly (by cases op <;> rfl)
  | ordered c =>
    obtain rfl := Option.some.inj hq
    exact happly (by cases c <;> rfl)
  | both | either =>
    obtain rfl := Option.some.inj hq
    exact happly rfl

variable (run) in
/-- Without a result, an operation has not had the fuel to find it. -/
theorem run_binary_of_none {f : Binary} (h : f.result? m.world.heap fuel x y = none) :
    (callBuiltin fuel run f.builtin).run.run { m with stack := y :: x :: m.stack } =
      (.error .outOfFuel, { m with attrs := [] }) := by
  cases f with
  | equal expected =>
    have hequal : (areEqual fuel x y).run.run m = (.error .outOfFuel, m) := by
      rw [run_areEqual, Option.map_eq_none_iff.1 h]
    rw [callBuiltin, run_afterwards, perform_equal, plain, compareEqual, bind_assoc,
      run_bind_of_ok run_pop₂]
    dsimp only
    rw [bind_assoc, run_bind_of_error hequal]
  | _ => cases h

end

/-! ## Code -/

namespace PureExpr

/-- The instructions of an expression. -/
def emissions : PureExpr → List Emission
  | constant v => [Located.emission ⟨[], .constant v⟩]
  | load name => [.indexed .load (.word name)]
  | unary f a => a.emissions ++ [.op f.opcode]
  | binary f a b => a.emissions ++ b.emissions ++ [.op f.opcode]

theorem emission_postorder (e : PureExpr) (place : List Nat) :
    (postorderAt place e.tree).map Located.emission = e.emissions := by
  induction e generalizing place with
  | constant v => rfl
  | load name => rfl
  | unary f a ha =>
    simp only [tree, operation, postorderAt, postorderFrom, List.append_nil, List.map_append, ha]
    rfl
  | binary f a b ha hb =>
    simp only [tree, operation, postorderAt, postorderFrom, List.append_nil, List.map_append, ha, hb]
    rfl

end PureExpr

namespace CodeUnit

variable {u : CodeUnit} {pos mid next : Nat} {m m' m'' : Machine} {q : Except RuntimeError Value}

/-- From `m'`, the unit comes from one offset to another with the given result: a value above the
operands of `m`, or an error that leaves the world and the output of `m`. -/
def Evaluates (u : CodeUnit) (pos : Nat) (m' : Machine) (next : Nat) (m : Machine) :
    Except RuntimeError Value → Prop :=
  Concludes (execute · u pos) m' (fun v fuel => push v >>= fun _ => execute fuel u next) m

/-- What leads to a value goes on with it. -/
theorem Evaluates.leadsTo {v : Value} (h : Evaluates u pos m' next m (.ok v)) :
    LeadsTo (execute · u pos) m' (execute · u next) { m with stack := v :: m.stack } := h

/-- What leads to a value has the outcomes of what follows it. -/
theorem Evaluates.ends_iff {v : Value} {r : Except Halt Flow × Machine}
    (h : Evaluates u pos m' next m (.ok v)) :
    Ends (execute · u pos) m' r ↔ Ends (execute · u next) { m with stack := v :: m.stack } r :=
  h.leadsTo.ends_iff (fun hle => within_execute hle u pos) fun hle => within_execute hle u next

/-- An instruction that answers is evaluated. -/
theorem evaluates_of_answer {piece : Nat → Exec Flow} (least : Nat)
    (hstep : ∀ fuel, execute (fuel + 1) u pos = (do
      match ← piece fuel with
      | .done => execute fuel u next
      | flow => return flow))
    (h : ∀ fuel, least ≤ fuel → (piece fuel).run.run m' = m.answer q) :
    Evaluates u pos m' next m q := by
  cases q with
  | ok v =>
    refine ⟨1, least, fun fuel hle => ?_⟩
    dsimp only
    rw [hstep, run_bind_of_ok (h fuel hle)]
    rfl
  | error c =>
    refine ⟨{ m with raised := c :: m.raised }, rfl, rfl, 1, least, fun fuel hle => ?_⟩
    dsimp only
    rw [hstep, run_bind_of_error (h fuel hle)]
    rfl

/-- The one instruction of an emission. -/
theorem exists_of_reads_one {e : Emission} (hr : Reads u pos [e] next) :
    ∃ i, decode u.code pos = ⟨some i, next⟩ ∧ e.Assembled u.constants i := by
  cases hr with
  | cons hd he hl =>
    cases hl
    exact ⟨_, hd, he⟩

theorem evaluates_op {o : Opcode} (least : Nat) (hr : Reads u pos [.op o] next) (ho : o ≠ .stop)
    (h : ∀ fuel, least ≤ fuel → (runOpcode fuel (runCode fuel) pos o).run.run m' = m.answer q) :
    Evaluates u pos m' next m q := by
  obtain ⟨i, hd, he⟩ := exists_of_reads_one hr
  cases i with
  | op o' =>
    cases he
    exact evaluates_of_answer least (execute_op hd ho) h
  | _ => cases he

/-- The constant of the instruction is the one that the unit has for the emission. -/
theorem evaluates_indexed {family : Family} {v : Value} (least : Nat)
    (hr : Reads u pos [.indexed family v] next)
    (h : ∀ (index : Nat) (c : Value), u.constants[index]? = some c → Value.same c v → ∀ fuel, least ≤ fuel →
      (runIndexed fuel (runCode fuel) pos family c).run.run m' = m.answer q) :
    Evaluates u pos m' next m q := by
  obtain ⟨i, hd, he⟩ := exists_of_reads_one hr
  cases i with
  | indexed family' index =>
    obtain ⟨rfl, c, hc, hs⟩ := he
    exact evaluates_of_answer least (execute_indexed hd hc) (h index c hc hs)
  | _ => cases he

theorem evaluates_constant {v : Value} (hu : u.Distinct)
    (hr : Reads u pos [Located.emission ⟨[], .constant v⟩] next) :
    Evaluates u pos m next m (.ok (u.constantFor v)) := by
  unfold Located.emission at hr
  dsimp only at hr
  cases ho : Opcode.ofImmediate? v with
  | some o =>
    rw [ho] at hr
    obtain ⟨c, hc, -⟩ := Opcode.exists_immediate ho
    have hcv : u.constantFor v = c := by
      unfold constantFor
      rw [ho]
      dsimp only
      rw [hc]
      rfl
    refine evaluates_op 0 hr (Opcode.isPlain_of_immediate hc).2 fun fuel _ => ?_
    unfold runOpcode
    rw [hc, hcv]
    rfl
  | none =>
    rw [ho] at hr
    refine evaluates_indexed 0 hr fun index c hc hs fuel _ => ?_
    rw [constantFor_eq hu ho hc hs]
    rfl

theorem evaluates_load {name : String} (hr : Reads u pos [.indexed .load (.word name)] next) :
    Evaluates u pos m next m
      (match m.world.get? name with
        | some v => .ok v
        | none => .error (m.world.undefined name)) := by
  refine evaluates_indexed 0 hr fun index c hc hs fuel _ => ?_
  obtain rfl := Value.eq_word_of_same hs
  have hname : (nameOf pos (.word name)).run.run m = (.ok name, m) := rfl
  unfold runIndexed
  dsimp only
  rw [run_bind_of_ok hname, run_bind, valueOf, run_bind_of_ok (run_get m)]
  dsimp only
  cases m.world.get? name <;> rfl

theorem runOpcode_builtin {b : Builtin} {o : Opcode} (hb : b.opcode? = some o) (fuel : Nat)
    (run : CodeRef → Exec Flow) (pos : Nat) :
    runOpcode fuel run pos o = callBuiltin fuel run b := by
  have hof : Builtin.ofOpcode? o = some b := Builtin.ofOpcode?_eq_some_iff.2 hb
  unfold runOpcode
  cases b <;> cases hb <;> simp only [hof] <;> rfl

theorem evaluates_unary (hm : m.attrs = []) {f : Unary} {x : Value}
    (hr : Reads u pos [.op f.opcode] next) :
    Evaluates u pos { m with stack := x :: m.stack } next m (f.apply x) := by
  have hb := f.opcode?_builtin
  refine evaluates_op 0 hr (Opcode.isPlain_of_builtin hb).2 fun fuel _ => ?_
  rw [runOpcode_builtin hb]
  exact run_unary hm f

theorem evaluates_binary (hm : m.attrs = []) {f : Binary} {x y : Value} {depth : Nat}
    (hq : f.result? m.world.heap depth x y = some q) (hr : Reads u pos [.op f.opcode] next) :
    Evaluates u pos { m with stack := y :: x :: m.stack } next m q := by
  have hb := f.opcode?_builtin
  refine evaluates_op depth hr (Opcode.isPlain_of_builtin hb).2 fun fuel hle => ?_
  rw [runOpcode_builtin hb]
  exact run_binary hm (f.result?_of_le hle hq)

/-- The fuel that an operation has ended with has sufficed to find its result. -/
theorem exists_result_of_ends {f : Binary} {x y : Value} {r : Except Halt Flow × Machine}
    (hr : Reads u pos [.op f.opcode] next)
    (h : Ends (execute · u pos) { m with stack := y :: x :: m.stack } r) :
    ∃ depth, (f.result? m.world.heap depth x y).isSome := by
  have hb := f.opcode?_builtin
  obtain ⟨i, hd, hi⟩ := exists_of_reads_one hr
  cases i with
  | op o =>
    cases hi
    obtain ⟨hne, fuel, rfl⟩ := h
    cases fuel with
    | zero => exact absurd rfl hne
    | succ fuel =>
      refine ⟨fuel, Option.isSome_iff_ne_none.2 fun hnone => hne ?_⟩
      have hout := run_binary_of_none (runCode fuel) hnone
      dsimp only
      rw [execute_op hd (Opcode.isPlain_of_builtin hb).2, runOpcode_builtin hb,
        run_bind_of_error hout]
  | _ => cases hi

end CodeUnit

/-- **The code of an expression leads to its result.** -/
theorem PureExpr.evaluates_of_gives {u : CodeUnit} {e : PureExpr} {q : Except RuntimeError Value}
    {w : World} (hu : u.Distinct) (h : e.Gives u.constantFor w q) {pos next : Nat} {m : Machine}
    (hw : m.world = w) (hm : m.attrs = []) (hr : u.Reads pos e.emissions next) :
    u.Evaluates pos m next m q := by
  induction h generalizing pos next m with
  | constant v => exact CodeUnit.evaluates_constant hu hr
  | bound h =>
    subst hw
    have he := CodeUnit.evaluates_load (m := m) hr
    rwa [h] at he
  | unbound h =>
    subst hw
    have he := CodeUnit.evaluates_load (m := m) hr
    rwa [h] at he
  | unary f _ iha =>
    obtain ⟨mid, ha, hf⟩ := CodeUnit.exists_reads_of_append hr
    exact (CodeUnit.evaluates_unary hm hf).after (iha hw hm ha).leadsTo
  | operandFails f _ iha =>
    obtain ⟨mid, ha, -⟩ := CodeUnit.exists_reads_of_append hr
    have ha' := iha hw hm ha
    exact ha'
  | @binary f a b x y q depth _ _ h iha ihb =>
    obtain ⟨mid, hab, hf⟩ := CodeUnit.exists_reads_of_append hr
    obtain ⟨half, ha, hb⟩ := CodeUnit.exists_reads_of_append hab
    subst hw
    have hb' := ihb (m := { m with stack := x :: m.stack }) rfl hm hb
    exact ((CodeUnit.evaluates_binary hm h hf).after hb'.leadsTo).after (iha rfl hm ha).leadsTo
  | firstFails f b _ iha =>
    obtain ⟨mid, hab, -⟩ := CodeUnit.exists_reads_of_append hr
    obtain ⟨half, ha, -⟩ := CodeUnit.exists_reads_of_append hab
    have ha' := iha hw hm ha
    exact ha'
  | @secondFails f a b x c _ _ iha ihb =>
    obtain ⟨mid, hab, -⟩ := CodeUnit.exists_reads_of_append hr
    obtain ⟨half, ha, hb⟩ := CodeUnit.exists_reads_of_append hab
    have hb' := ihb (m := { m with stack := x :: m.stack }) hw hm hb
    exact hb'.after (iha hw hm ha).leadsTo

/-- **An expression whose code comes to an end has a result.** -/
theorem PureExpr.exists_gives {u : CodeUnit} (e : PureExpr) (hu : u.Distinct) {pos next : Nat}
    {m : Machine} {r : Except Halt Flow × Machine} (hm : m.attrs = [])
    (hr : u.Reads pos e.emissions next) (h : Ends (execute · u pos) m r) :
    ∃ q, e.Gives u.constantFor m.world q := by
  induction e generalizing pos next m with
  | constant v => exact ⟨_, .constant v⟩
  | load name =>
    cases hv : m.world.get? name with
    | some v => exact ⟨_, .bound hv⟩
    | none => exact ⟨_, .unbound hv⟩
  | unary f a iha =>
    obtain ⟨mid, ha, -⟩ := CodeUnit.exists_reads_of_append hr
    obtain ⟨x | c, hx⟩ := iha hm ha h
    · exact ⟨_, .operandFails f hx⟩
    · exact ⟨_, .unary f hx⟩
  | binary f a b iha ihb =>
    obtain ⟨mid, hab, hf⟩ := CodeUnit.exists_reads_of_append hr
    obtain ⟨half, ha, hb⟩ := CodeUnit.exists_reads_of_append hab
    obtain ⟨c | x, hx⟩ := iha hm ha h
    · exact ⟨_, .firstFails f b hx⟩
    have h₁ := (evaluates_of_gives hu hx rfl hm ha).ends_iff.1 h
    obtain ⟨c | y, hy⟩ := ihb (m := { m with stack := x :: m.stack }) hm hb h₁
    · exact ⟨_, .secondFails f hx hy⟩
    have h₂ := (evaluates_of_gives hu hy rfl hm hb).ends_iff.1 h₁
    obtain ⟨fuel, hq⟩ := CodeUnit.exists_result_of_ends (m := m) hf h₂
    obtain ⟨q, hq⟩ := Option.isSome_iff_exists.1 hq
    exact ⟨q, .binary hx hy hq⟩

end BlockLang
