import BlockLang.Machine.Control
import BlockLang.Machine.Operation

/-!
# Running code

`execute` runs the instructions of a unit one after the other. Its fuel bounds the length of every
chain of instructions and of nested units, so a program that comes to an end has the same outcome
with any amount of fuel that suffices.

Attributes belong to the next call: they are dropped when an operation is over, and when a user
function begins.
-/

namespace BlockLang.Exec

/-- Ends an operation that runs no code. -/
def plain (x : Exec Unit) : Exec Flow := do
  x
  return .done

/-- What an operation of the language does. -/
def perform (fuel : Nat) (run : CodeRef → Exec Flow) : Builtin → Exec Flow
  | .add => plain (apply₂ Arith.add.apply)
  | .sub => plain (apply₂ Arith.sub.apply)
  | .mul => plain (apply₂ Arith.mul.apply)
  | .div => plain (apply₂ Arith.div.apply)
  | .fdiv => plain (apply₂ Arith.fdiv.apply)
  | .mod => plain (apply₂ Arith.mod.apply)
  | .pow => plain (apply₂ Arith.pow.apply)
  | .neg => plain (apply negate)
  | .inc => plain (step .add)
  | .dec => plain (step .sub)
  | .band => plain (apply₂ BitOperation.band.apply)
  | .bor => plain (apply₂ BitOperation.bor.apply)
  | .bxor => plain (apply₂ BitOperation.bxor.apply)
  | .shl => plain (apply₂ BitOperation.shl.apply)
  | .shr => plain (apply₂ BitOperation.shr.apply)
  | .bnot => plain (apply Value.complement)
  | .logicalNot => plain (apply Value.opposite)
  | .logicalAnd => plain (apply₂ (Value.combine "and?" and))
  | .logicalOr => plain (apply₂ (Value.combine "or?" or))
  | .eq => plain (compareEqual fuel true)
  | .ne => plain (compareEqual fuel false)
  | .gt => plain (apply₂ Comparison.gt.apply)
  | .ge => plain (apply₂ Comparison.ge.apply)
  | .lt => plain (apply₂ Comparison.lt.apply)
  | .le => plain (apply₂ Comparison.le.apply)
  | .ifTrue => branch run "if" true
  | .ifFalse => branch run "unless" false
  | .ifElse => branch run "else" false
  | .ifReport => branchReport run
  | .switchOn => choose run
  | .whileTrue => runWhile run fuel
  | .returnFlow => return .returned
  | .breakFlow => return .broken
  | .continueFlow => return .continued
  | .run => runValue run
  | .attempt => attempt run false
  | .attemptReport => attempt run true
  | .ensure => ensure run fuel
  | .raise => plain (raiseTop fuel)
  | .get => plain getPart
  | .set => plain setPart
  | .convert => plain (convert fuel)
  | .string => plain (toText fuel)
  | .integer => plain (apply Value.toInteger)
  | .array => makeArray run
  | .dictionary => makeDictionary run
  | .function => plain makeFunction
  | .range => plain (apply₂ Value.range)
  | .loop => traverse run .loop
  | .map => traverse run .map
  | .select => traverse run .select
  | .size => plain countItems
  | .replace => plain (replaceItems fuel)
  | .split => plain (apply Value.splitUp)
  | .join => plain (joinItems fuel)
  | .reverse => plain (apply Value.reversed)
  | .append => plain (appendItems fuel)
  | .print => plain (printTop fuel)

section

variable (fuel : Nat) (run : CodeRef → Exec Flow)

/-- Makes a call of an operation. -/
def callBuiltin (b : Builtin) : Exec Flow := afterwards (perform fuel run b) ({ · with attrs := [] })

/-! ## Calls -/

/-- Calls a function whose arguments are on the stack. -/
def callFunction (ref : FunctionRef) : Exec Flow := do
  match (← heap).callable? ref with
  | none => fail (.notCallable "function")
  | some callable =>
    let available ← height
    if available < callable.arity then
      fail (.wrongArity callable.description callable.arity available)
    match callable with
    | .builtin b => callBuiltin fuel run b
    | .user f _ =>
      clearAttrs
      runUser run ref f

/-- Calls a function, or the one bound to a word. -/
def callValue (target : Value) : Exec Flow := do
  match target with
  | .function ref => callFunction fuel run ref
  | .word name =>
    match ← valueOf name with
    | .function ref => callFunction fuel run ref
    | _ => fail (.notCallable name)
  | v => fail (.notCallable v.kind.name)

/-! ## Instructions -/

/-- The name that a constant carries. -/
def nameOf (pos : Nat) (v : Value) : Exec String :=
  match v.name? with
  | some name => return name
  | none => fail (.invalidBytecode pos)

/-- Runs an instruction that addresses the constant `v`. -/
def runIndexed (pos : Nat) (family : Family) (v : Value) : Exec Flow := do
  match family with
  | .push => plain (push v)
  | .store =>
    let value ← pop
    plain (bind (← nameOf pos v) value)
  | .storeKeep =>
    let value ← peek 0
    plain (bind (← nameOf pos v) value)
  | .load => plain (push (← valueOf (← nameOf pos v)))
  | .call => callValue fuel run v
  | .attr =>
    let value ← pop
    let name ← nameOf pos v
    plain (modify fun m => { m with attrs := m.attrs.insert name value })

/-- Swaps the top two operands. -/
def swapTop : Exec Unit := do
  let (a, b) ← pop₂
  push b
  push a

/-- Runs an opcode that neither jumps nor ends the unit. -/
def runOpcode (pos : Nat) (o : Opcode) : Exec Flow := do
  match o.immediate? with
  | some v => plain (push v)
  | none =>
    match o with
    | .nop => return .done
    | .pop => plain (discard pop)
    | .dup => plain (push (← peek 0))
    | .dupSecond => plain (push (← peek 1))
    | .swap => plain swapTop
    | o =>
      match Builtin.ofOpcode? o with
      | some b => callBuiltin fuel run b
      | none => fail (.invalidBytecode pos)

/-- Decides whether a jump is taken. -/
def isTaken (condition : Condition) : Exec Bool := do
  match condition with
  | .always => return true
  | .ifTrue => (← pop).expectLogical "jump"
  | .ifFalse => return !(← (← pop).expectLogical "jump")

/-- Runs an instruction that neither jumps nor ends the unit. -/
def runInstruction (unit : CodeUnit) (pos : Nat) (i : Instruction) : Exec Flow :=
  match i with
  | .indexed family index =>
    match unit.constants[index]? with
    | some v => runIndexed fuel run pos family v
    | none => fail (.invalidBytecode pos)
  | .op o => runOpcode fuel run pos o
  | .jump .. => return .done

end

/-! ## Units -/

/-- A unit of code. -/
def unitOf (code : CodeRef) : Exec CodeUnit := return ((← heap).unit? code).getD {}

/-- Runs a unit from offset `pos` on. -/
def execute : (fuel : Nat) → (unit : CodeUnit) → (pos : Nat) → Exec Flow
  | 0, _, _ => throw .outOfFuel
  | fuel + 1, unit, pos => do
    let decoded := decode unit.code pos
    match decoded.instruction? with
    | none => fail (.invalidBytecode pos)
    | some (.op .stop) => return .done
    | some (.jump condition target) =>
      let next := if ← isTaken condition then target.toNat else decoded.next
      execute fuel unit next
    | some i =>
      match ← runInstruction fuel (fun code => do execute fuel (← unitOf code) 0) unit pos i with
      | .done => execute fuel unit decoded.next
      | flow => return flow

/-- Runs a unit from its beginning. -/
def runCode (fuel : Nat) (code : CodeRef) : Exec Flow := do execute fuel (← unitOf code) 0

/-! ## From outside -/

/-- Runs a sequence of items at the top level. Bindings stay; a failure takes away the operands that
the run added. -/
def runItems (fuel : Nat) (items : List Value) (dynamic : Bool) : Exec Unit := do
  let base ← height
  match ← observe (do runCode fuel (← compile items dynamic)) with
  | .ok _ => return
  | .error halt =>
    cutTo base
    clearAttrs
    throw halt

/-- Reads source text and runs it at the top level. -/
def runSource (fuel : Nat) (source : String) : Exec Unit := do
  runItems fuel (← read source) false

end BlockLang.Exec
