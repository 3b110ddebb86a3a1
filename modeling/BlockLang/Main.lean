import BlockLang.Code.Listing
import BlockLang.Machine.Run

/-!
# The command line

Runs a script, or reads lines from a prompt and shows the operands that each of them leaves. Options
set the limits of the world, and ask for the tokens or the code of whatever is run.
-/

namespace BlockLang

/-- What the command line asks for. -/
structure Invocation where
  /-- The script to run; without one there is a prompt. -/
  script? : Option String := none
  showTokens : Bool := false
  showCode : Bool := false
  config : Config := {}

namespace Invocation

def usage : String :=
  "usage: [script] [--tokens] [--dump] [--no-cache] [--memo-capacity N] [--max-call-depth N]"

/-- The number that an option is given. -/
def number? (s : String) : Option Nat :=
  if Numeral.isDigits s.toList then some (Numeral.ofDigits s.toList) else none

/-- Reads arguments. -/
def read? (inv : Invocation) : List String → Option Invocation
  | [] => some inv
  | "--tokens" :: rest => read? { inv with showTokens := true } rest
  | "--dump" :: rest => read? { inv with showCode := true } rest
  | "--no-cache" :: rest => read? { inv with config.cacheUnits := false } rest
  | "--memo-capacity" :: n :: rest =>
    match number? n with
    | some n => read? { inv with config.memoCapacity := n } rest
    | none => none
  | "--max-call-depth" :: n :: rest =>
    match number? n with
    | some n => read? { inv with config.maxDepth := n } rest
    | none => none
  | path :: rest =>
    if path.startsWith "-" || inv.script?.isSome then none
    else read? { inv with script? := some path } rest

/-- More fuel than a run can use up. -/
def fuel : Nat := 1000000000000000

def start (inv : Invocation) : Machine := .initial inv.config

/-- A line for every lexeme of a text: its offsets, and the text or what is wrong with it. -/
def lexemeLine (l : Lexeme) : String :=
  let shown := match l.result with
    | .ok _ => Text.quoted (String.ofList l.text)
    | .error e => e.message
  s!"{l.start}..{l.stop} {shown}\n"

/-- Runs a text, and prints what the command line asks for first. -/
def evaluate (inv : Invocation) (source : String) : Exec Unit := do
  if inv.showTokens then
    Exec.print (String.join ((Token.lexemes source).map lexemeLine))
  let items ← Exec.read source
  if inv.showCode then
    let unit ← Exec.unitOf (← Exec.compile items false)
    Exec.print ((unit.listing? (← Exec.heap) fuel).getD "")
  Exec.runItems fuel items false

/-- Takes the operands, and prints them. -/
def showOperands : Exec Unit := do
  for v in ← Exec.takeAbove 0 do
    let text ← Exec.shown fuel v
    Exec.print ("= " ++ text ++ "\n")

/-- What an outcome says to the user, if it is a failure. -/
def complaint? : Except Halt Unit → Option String
  | .ok _ => none
  | .error (.error e) => some e.message
  | .error .outOfFuel => some "out of fuel"

end Invocation

/-- Takes what was printed out of a machine. -/
def Machine.takeOutput (m : Machine) : String × Machine :=
  match m.output with
  | .collected text => (text, { m with output := .collected "" })
  | .refused _ => ("", m)

/-- Runs a piece, prints its output, and reports its failure. Answers whether it succeeded. -/
def Exec.report (x : Exec Unit) (m : Machine) : IO (Bool × Machine) := do
  let (outcome, m) := x.run.run m
  let (text, m) := m.takeOutput
  IO.print text
  match Invocation.complaint? outcome with
  | some message =>
    IO.eprintln message
    return (false, m)
  | none => return (true, m)

/-- A line as it is read, without its end. -/
def withoutEnd (line : String) : String := String.ofList (line.toList.filter (· ≠ '\n'))

/-- Reads lines and runs them. -/
partial def Invocation.prompt (inv : Invocation) (input : IO.FS.Stream) (m : Machine) :
    IO Unit := do
  IO.print ">> "
  (← IO.getStdout).flush
  let line ← input.getLine
  unless line.isEmpty do
    let piece : Exec Unit := do
      inv.evaluate (withoutEnd line)
      Invocation.showOperands
    let (_, m) ← piece.report m
    inv.prompt input m

end BlockLang

open BlockLang in
def main (args : List String) : IO UInt32 := do
  match Invocation.read? {} args with
  | none =>
    IO.eprintln Invocation.usage
    return 2
  | some inv =>
    match inv.script? with
    | some path =>
      let source ← IO.FS.readFile path
      let (succeeded, _) ← (inv.evaluate source).report inv.start
      return if succeeded then 0 else 1
    | none =>
      inv.prompt (← IO.getStdin) inv.start
      return 0
