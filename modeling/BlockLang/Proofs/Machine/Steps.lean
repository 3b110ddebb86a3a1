import BlockLang.Machine.Run

/-!
# Sessions step by step

Whoever holds a machine may ask it for more than runs at the top level: to run a block as some options say,
to call a function, to perform an operation, to read, build or compile without running, and to change the
operands, the bindings and the objects by hand. A session is any sequence of such steps. A step that fails
does not end the session.
-/

namespace BlockLang

open Exec

/-- What a machine may be asked for. -/
inductive Step where
  /-- Source text is run at the top level. -/
  | source (text : String)
  /-- Items are run at the top level. -/
  | items (items : List Value) (dynamic : Bool)
  /-- A body is run as the options say. -/
  | block (o : BlockOptions) (body : Value)
  /-- A body is run in place, and the names are put back at its end. -/
  | shielded (names : List String) (body : Value)
  /-- A function is called. -/
  | call (ref : FunctionRef)
  /-- An operation is performed. -/
  | operation (b : Builtin)
  | read (text : String)
  /-- Call trees are built. -/
  | build (items : List Value)
  | compile (items : List Value) (dynamic : Bool)
  | push (v : Value)
  | pop
  /-- All operands are dropped. -/
  | clear
  | bind (name : String) (v : Value)
  | unbind (name : String)
  | addFunction (f : UserFunction)
  | addDictionary (entries : NameTable Value)
  | addUnit (u : CodeUnit)

/-- What a step answers. -/
inductive Answer where
  | done
  | flow (flow : Flow)
  | values (l : List Value)
  | trees (l : List CallTree)
  | unit (u : CodeUnit)

/-- Runs a sequence of items at the top level, given how code is run. -/
def Exec.runTop (run : CodeRef → Exec Flow) (items : List Value) (dynamic : Bool) : Exec Unit := do
  let base ← height
  match ← observe (do run (← compile items dynamic)) with
  | .ok _ => return
  | .error halt =>
    cutTo base
    clearAttrs
    throw halt

/-- The call trees of a block. -/
def Exec.build (items : List Value) : Exec (List CallTree) := do
  match ← inWorld (·.callTrees items) with
  | .ok trees => return trees
  | .error e => throw (.error (.building e))

namespace Step

/-- Takes a step, given how code is run. -/
def runBy (fuel : Nat) (run : CodeRef → Exec Flow) : Step → Exec Answer
  | source text => do
    runTop run (← Exec.read text) false
    return .done
  | items l dynamic => do
    runTop run l dynamic
    return .done
  | block o body => return .flow (← runBlock run o body)
  | shielded names body => return .flow (← protecting names (runInPlace run body))
  | call ref => return .flow (← callFunction fuel run ref)
  | operation b => return .flow (← perform fuel run b)
  | read text => return .values (← Exec.read text)
  | build l => return .trees (← Exec.build l)
  | compile l dynamic => return .unit (← unitOf (← Exec.compile l dynamic))
  | push v => do
    Exec.push v
    return .done
  | pop => return .values [← Exec.pop]
  | clear => do
    cutTo 0
    return .done
  | bind name v => do
    Exec.bind name v
    return .done
  | unbind name => do
    let old? := (← get).world.get? name
    modifyWorld (·.unset name)
    return .values old?.toList
  | addFunction f => return .values [← inWorld (·.addUser f)]
  | addDictionary entries => return .values [← inWorld (·.addDictionary entries)]
  | addUnit u => return .values [.bytecode (← inWorld (·.addUnit u))]

/-- Takes a step. -/
def run (fuel : Nat) (step : Step) : Exec Answer := step.runBy fuel (runCode fuel)

end Step

theorem runTop_runCode (fuel : Nat) (items : List Value) (dynamic : Bool) :
    runTop (runCode fuel) items dynamic = runItems fuel items dynamic := rfl

/-- What the steps of a session answer one after the other, each with the machine at its end. -/
def Machine.course (fuel : Nat) : List Step → Machine → List (Except Halt Answer × Machine)
  | [], _ => []
  | step :: steps, m =>
    (step.run fuel).run.run m :: course fuel steps ((step.run fuel).run.run m).2

end BlockLang
