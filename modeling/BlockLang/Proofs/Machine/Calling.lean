import BlockLang.Machine.Run

/-!
# Running code, wherever the code of functions comes from

The machine finds the code of a function with `functionCode`. Nothing else in a run depends on where that
code comes from, so here is a run with the choice left open (`code`). Made with `functionCode` it is the
run of the machine again: **Theorem (`executeBy_functionCode`)**.
-/

namespace BlockLang.Exec

variable (code : FunctionRef → Exec CodeRef)

/-! ## Calls -/

section

variable (fuel : Nat) (run : CodeRef → Exec Flow)

/-- Runs a user function whose arguments are on the stack. -/
def runUserBy (ref : FunctionRef) (f : UserFunction) : Exec Flow := do
  let options : BlockOptions := {
    params := f.params
    imports := f.imports
    exports := f.exports
    inTry := 0 < (← get).tryDepth
    exportable := f.exportable
    functionBoundary := true
    memoize := if f.memoize then some ref else none }
  runScoped run options (code ref)

/-- Calls a function whose arguments are on the stack. -/
def callFunctionBy (ref : FunctionRef) : Exec Flow := do
  match (← heap).callable? ref with
  | none => fail (.notCallable "function")
  | some callable =>
    let available ← height
    if available < callable.arity then
      fail (.wrongArity callable.description callable.arity available)
    match callable with
    | .builtin b => callBuiltin fuel run b
    | .user f _ =>
      clearAttrs
      runUserBy code run ref f

/-- Calls a function, or the one bound to a word. -/
def callValueBy (target : Value) : Exec Flow := do
  match target with
  | .function ref => callFunctionBy code fuel run ref
  | .word name =>
    match ← valueOf name with
    | .function ref => callFunctionBy code fuel run ref
    | _ => fail (.notCallable name)
  | v => fail (.notCallable v.kind.name)

/-! ## Instructions and units -/

/-- Runs an instruction that addresses the constant `v`. -/
def runIndexedBy (pos : Nat) (family : Family) (v : Value) : Exec Flow :=
  match family with
  | .call => callValueBy code fuel run v
  | family => runIndexed fuel run pos family v

/-- Runs an instruction that neither jumps nor ends the unit. -/
def runInstructionBy (unit : CodeUnit) (pos : Nat) (i : Instruction) : Exec Flow :=
  match i with
  | .indexed family index =>
    match unit.constants[index]? with
    | some v => runIndexedBy code fuel run pos family v
    | none => fail (.invalidBytecode pos)
  | i => runInstruction fuel run unit pos i

end

/-- Runs a unit from offset `pos` on. -/
def executeBy : (fuel : Nat) → (unit : CodeUnit) → (pos : Nat) → Exec Flow
  | 0, _, _ => throw .outOfFuel
  | fuel + 1, unit, pos => do
    let decoded := decode unit.code pos
    match decoded.instruction? with
    | none => fail (.invalidBytecode pos)
    | some (.op .stop) => return .done
    | some (.jump condition target) =>
      let next := if ← isTaken condition then target.toNat else decoded.next
      executeBy fuel unit next
    | some i =>
      match ← runInstructionBy code fuel (fun c => do executeBy fuel (← unitOf c) 0) unit pos i with
      | .done => executeBy fuel unit decoded.next
      | flow => return flow

/-- Runs a unit from its beginning. -/
def runCodeBy (fuel : Nat) (c : CodeRef) : Exec Flow := do executeBy code fuel (← unitOf c) 0

/-! ## The code that the machine finds -/

theorem runInstructionBy_functionCode : runInstructionBy functionCode = runInstruction := by
  funext fuel run unit pos i
  cases i with
  | indexed family index =>
    simp only [runInstructionBy, runInstruction]
    cases unit.constants[index]? with
    | some v => cases family <;> rfl
    | none => rfl
  | _ => rfl

/-- **With the code that the machine finds**, a unit is run as the machine runs it. -/
theorem executeBy_functionCode : executeBy functionCode = execute := by
  funext fuel
  induction fuel with
  | zero => rfl
  | succ fuel ih =>
    funext unit pos
    rw [executeBy, ih, runInstructionBy_functionCode]
    rfl

end BlockLang.Exec
