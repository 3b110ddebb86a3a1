import BlockLang.Machine.Block

/-!
# Control forms

Operations whose operands are code. A condition has to be a truth value, and a body is a block, an
inline or compiled code; bodies run in place. A way out that a body asks for is handed on, except
that loops provide the ways out of a loop. The functions here are given `run`, which executes a unit
of code.
-/

namespace BlockLang.Exec

variable (run : CodeRef → Exec Flow)

/-! ## Branches -/

/-- Runs the body if the condition is as wanted. -/
def branch (operation : String) (wanted : Bool) : Exec Flow := do
  let (condition, body) ← pop₂
  if (← condition.expectLogical operation) = wanted then runInPlace run body else return .done

/-- Runs the body if the condition holds, and leaves the condition for an `else` that may follow. -/
def branchReport : Exec Flow := do
  let (condition, body) ← pop₂
  let holds ← condition.expectLogical "if?"
  let flow ← if holds then runInPlace run body else pure .done
  if flow = .done then push (.logical holds)
  return flow

/-- Runs a block, and pushes anything else. -/
def runOrPush (v : Value) : Exec Flow := do
  match v with
  | .block .. => runInPlace run v
  | v =>
    push v
    return .done

/-- Chooses between two values by a condition. -/
def choose : Exec Flow := do
  let (condition, yes, no) ← pop₃
  runOrPush run (if ← condition.expectLogical "switch" then yes else no)

/-! ## Running code as it is -/

/-- Runs a body, or the source text of one. -/
def runValue : Exec Flow := do
  match ← pop with
  | .string source =>
    let items ← read source
    runInPlace run (.block items false)
  | body => runInPlace run body

/-- Runs a body as a try: while it runs, calls that fail leave their scope like calls that end. -/
def trying (body : Value) : Exec (Except Halt Flow) := do
  modify fun m => { m with tryDepth := m.tryDepth + 1 }
  let outcome ← observe (runInPlace run body)
  modify fun m => { m with tryDepth := m.tryDepth - 1 }
  return outcome

/-- Runs a body and recovers from its errors; the operands that it added are dropped then. With
`report`, a truth value tells whether the body succeeded. -/
def attempt (report : Bool) : Exec Flow := do
  let body ← pop
  let base ← height
  match ← trying run body with
  | .ok flow =>
    if report && flow = .done then push (.logical true)
    return flow
  | .error (.error _) =>
    cutTo base
    if report then push (.logical false)
    return .done
  | .error .outOfFuel => throw .outOfFuel

/-- Fails unless what a condition came to holds; the error shows the condition. -/
def demand (fuel : Nat) (condition result : Value) : Exec Flow := do
  if ← result.expectLogical "ensure" then return .done
  else throw (.error (.assertion (← shown fuel condition)))

/-- The program relies on a condition, given as a truth value or as a block that leaves one. -/
def ensure (fuel : Nat) : Exec Flow := do
  let condition ← pop
  match condition with
  | .block .. =>
    let flow ← runInPlace run condition
    if flow = .done then demand fuel condition (← pop) else return flow
  | v => demand fuel condition v

/-! ## Collecting -/

/-- Runs a body and pushes a block of the operands that it leaves. -/
def collectFrom (body : Value) : Exec Flow := do
  let base ← height
  let flow ← runInPlace run body
  if flow = .done then push (.block (← takeAbove base) true)
  return flow

/-- A block of the operands that a body leaves, or of a value that is no body. -/
def makeArray : Exec Flow := do
  match ← pop with
  | body@(.block ..) | body@(.inline _) => collectFrom run body
  | v =>
    push (.block [v] true)
    return .done

/-- The bindings of names as the entries of a dictionary. -/
def entriesOf (w : World) (names : List String) : NameTable Value :=
  names.foldl (fun entries name => entries.put name (w.get? name)) []

/-- A dictionary of the labels of a body, with the values that they are bound to when the body has
run. The labels are put back afterwards. -/
def makeDictionary : Exec Flow := do
  let body ← pop
  match body.items? with
  | none => fail (Value.wrongType "dictionary" "a block" body)
  | some items =>
    let names := Value.labels items
    let base ← height
    let (flow, entries) ← protecting names do
      let flow ← runInPlace run body
      return (flow, entriesOf (← get).world names)
    cutTo base
    if flow = .done then push (← inWorld (·.addDictionary entries))
    return flow

/-! ## Loops -/

/-- Whether a condition holds, or else the way out that it asks for. The null condition always
holds. -/
def testCondition (condition : Value) : Exec (Except Flow Bool) := do
  if condition.isNull then return .ok true
  let flow ← runInPlace run condition
  if flow = .done then return .ok (← (← pop).expectLogical "while")
  return .error flow

/-- Runs a body while a condition holds. -/
def repeatWhile (condition body : Value) : (fuel : Nat) → Exec Flow
  | 0 => throw .outOfFuel
  | fuel + 1 => do
    match ← testCondition run condition with
    | .error flow => return flow
    | .ok false => return .done
    | .ok true =>
      match ← runPass run body with
      | .stop flow => return flow
      | .value _ | .skipped => repeatWhile condition body fuel

def runWhile (fuel : Nat) : Exec Flow := do
  let (condition, body) ← pop₂
  repeatWhile run condition body fuel

/-- A loop over a collection. -/
inductive Traversal where
  /-- Nothing is collected. -/
  | loop
  /-- The results of the passes are collected. -/
  | map
  /-- The items whose pass results in `true` are collected. -/
  | select
deriving DecidableEq, Repr, Inhabited

def Traversal.name : Traversal → String
  | loop => "loop"
  | map => "map"
  | select => "select"

/-- What a pass over some items with the given result adds to the collection, latest first. -/
def Traversal.collect (kind : Traversal) (items : List Value) (result? : Option Value) :
    Except RuntimeError (List Value) :=
  match kind with
  | loop => .ok []
  | map => .ok result?.toList
  | select => do
    let keep ← (result?.getD .null).expectLogical kind.name
    return if keep then items.reverse else []

/-- Passes over items, as many at a time as there are parameters, at least one; at most `count`
passes are made. What is collected is put in front of `collected`. -/
def passes (kind : Traversal) (params : List String) (body : Value) :
    (count : Nat) → (items collected : List Value) → Exec (Flow × List Value)
  | 0, _, collected => return (.done, collected)
  | _ + 1, [], collected => return (.done, collected)
  | count + 1, items, collected => do
    let width := max params.length 1
    let now := items.take width
    bindAll (params.zip now)
    match ← runPass run body with
    | .stop flow => return (flow, collected)
    | .skipped => passes kind params body count (items.drop width) collected
    | .value result? =>
      let more ← kind.collect now result?
      passes kind params body count (items.drop width) (more ++ collected)

/-- Loops over a collection. The parameters are put back afterwards. -/
def traverse (kind : Traversal) : Exec Flow := do
  let (collection, params, body) ← pop₃
  let params ← params.parameterNames kind.name
  let items ← Value.elements (← heap) kind.name collection
  let (flow, collected) ← protecting params (passes run kind params body items.length items [])
  if flow = .done && kind ≠ .loop then push (.block collected.reverse true)
  return flow

end BlockLang.Exec
