import BlockLang.Machine.Basic
import BlockLang.Value.Collection

/-!
# Running blocks

How a block runs relative to the bindings around it. A block in place works on them directly; any
other block gets a scope of its own, which is left behind at its end:

* the scope from before is put back, except for the exported names; or
* if the block is exportable, only its parameters are put back;
* if the block fails outside of a try, the scope from before is put back entirely.

The functions here are given `run`, which executes a unit of code.
-/

namespace BlockLang

/-- How a block runs. -/
structure BlockOptions where
  /-- The names that the top operands are bound to, the last name to the top. -/
  params : List String := []
  /-- Bindings made before the parameters are bound. -/
  imports : List (String × Value) := []
  /-- Names whose bindings outlive the block. -/
  exports : List String := []
  /-- The block works on the bindings around it. -/
  inPlace : Bool := false
  /-- A failure leaves the scope like an ordinary end. -/
  inTry : Bool := false
  /-- All bindings but the parameters outlive the block. -/
  exportable : Bool := false
  /-- Ways out end here, and at most one operand comes out. -/
  functionBoundary : Bool := false
  /-- The function that results are kept under. -/
  memoize : Option FunctionRef := none

/-- The scope that a block leaves behind: `now` is the scope at its end, `saved` the one from
before. -/
def BlockOptions.scopeAfter (o : BlockOptions) (saved now : Scope) : Scope :=
  if o.exportable then now.restoreNames saved o.params else saved.takeNames now o.exports

/-- How a pass through the body of a loop ended. -/
inductive Pass where
  /-- At its end, with the operand on top if there is one. -/
  | value (v? : Option Value)
  | skipped
  /-- The loop has to stop, with the given flow. -/
  | stop (flow : Flow)

namespace Exec

variable (run : CodeRef → Exec Flow)

/-- Binds the parameters to the top operands, the top one first. -/
def bindParameters (params : List String) : Exec Unit :=
  params.reverse.forM fun name => do bind name (← pop)

/-- Finds a result kept for a call, if there is a key that it may be kept under. -/
def findKept : Option MemoKey → Exec (Option Value)
  | some key => inWorld fun w =>
    let (v?, memo) := w.memo.get? key
    (v?, { w with memo })
  | none => return none

/-- Keeps the top operand as the result of a call, if the call left one above `base`. -/
def remember (key : MemoKey) (base : Nat) : Exec Unit := do
  let stack := (← get).stack
  if base < stack.length then
    match stack with
    | v :: _ => modifyWorld fun w => { w with memo := w.memo.insert key v }
    | [] => return

/-- Keeps the top operand of those above `base` only. -/
def keepTop (base : Nat) : Exec Unit := do
  if base < (← height) then
    let top ← pop
    cutTo base
    push top

/-- Finds code and runs it one level deeper. -/
def descend (code : Exec CodeRef) : Exec Flow := do
  modify fun m => { m with depth := m.depth + 1 }
  afterwards (do run (← code)) fun m => { m with depth := m.depth - 1 }

/-- Binds what the options ask for, runs the code, and leaves the scope. -/
def inScope (o : BlockOptions) (code : Exec CodeRef) (key? : Option MemoKey) : Exec Flow := do
  let saved := (← get).world.scope
  bindAll o.imports
  bindParameters o.params
  let base ← height
  match ← observe (descend run code) with
  | .error halt =>
    unless o.inPlace do
      modifyScope fun now => if o.inTry then o.scopeAfter saved now else saved
    throw halt
  | .ok flow =>
    if o.functionBoundary then keepTop base
    unless o.inPlace do modifyScope (o.scopeAfter saved)
    match key? with
    | some key => remember key base
    | none => pure ()
    return if o.functionBoundary then .done else flow

/-- Runs a block whose arguments are on the stack; `code` finds its code. A kept result takes the
place of the run. -/
def runScoped (o : BlockOptions) (code : Exec CodeRef) : Exec Flow := do
  let m ← get
  let count := o.params.length
  if m.stack.length < count then fail .stackUnderflow
  let key? : Option MemoKey := o.memoize.map fun ref =>
    (ref, Value.argumentFingerprint m.world.heap (m.stack.take count).reverse)
  match ← findKept key? with
  | some v =>
    modify ({ · with stack := v :: m.stack.drop count })
    return .done
  | none =>
    let limit := m.world.config.maxDepth
    if limit ≤ m.depth then fail (.stackOverflow limit)
    inScope run o code key?

/-- The code of a body. -/
def bodyCode : Value → Exec CodeRef
  | .block items dynamic => compile items dynamic
  | .inline items => compile items false
  | .bytecode ref => return ref
  | v => fail (Value.wrongType "execute" "a block" v)

/-- Runs a body as the options say. -/
def runBlock (o : BlockOptions) (body : Value) : Exec Flow := runScoped run o (bodyCode body)

/-- Runs a body in place. -/
def runInPlace (body : Value) : Exec Flow := runBlock run { inPlace := true } body

/-- Passes through the body of a loop once. -/
def runPass (body : Value) : Exec Pass := do
  let base ← height
  match ← runInPlace run body with
  | .returned => return .stop .returned
  | .broken =>
    cutTo base
    return .stop .done
  | .continued =>
    cutTo base
    return .skipped
  | .done =>
    let top? := (above base (← get).stack).head?
    cutTo base
    return .value top?

/-! ## Functions -/

/-- The code of a user function. Its body is compiled when it is first called, with the parameters
bound. -/
def functionCode (ref : FunctionRef) : Exec CodeRef := do
  match (← heap).callable? ref with
  | some (.user _ (some code)) => return code
  | some (.user f none) =>
    match f.main with
    | .block items dynamic =>
      let code ← compile items dynamic
      modifyWorld (·.setCompiled ref code)
      return code
    | v => fail (Value.wrongType "function" "a block" v)
  | _ => fail (.notCallable "function")

/-- Runs a user function whose arguments are on the stack. -/
def runUser (ref : FunctionRef) (f : UserFunction) : Exec Flow := do
  let options : BlockOptions := {
    params := f.params
    imports := f.imports
    exports := f.exports
    inTry := 0 < (← get).tryDepth
    exportable := f.exportable
    functionBoundary := true
    memoize := if f.memoize then some ref else none }
  runScoped run options (functionCode ref)

end Exec

end BlockLang
