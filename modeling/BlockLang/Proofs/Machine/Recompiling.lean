import BlockLang.Proofs.Machine.Caching
import BlockLang.Proofs.Machine.Pieces
import BlockLang.Proofs.Machine.Stepping

/-!
# Bodies that are compiled at every call

A function keeps the code that its body was compiled to in the first call, with the arguments of that call
bound. What a body is compiled to depends on which names can be called, so the code need not fit a later
call: where a parameter was a number first and is a function now, the code still loads it.

Here is a machine that compiles the body at every call (`codeAfresh`). It keeps in mind whether the code from
the first call would have done: whether it is the unit that the body is compiled to now, in the bindings of
this call. What compiling declares about the arities of names can stay declared (`declares`), as it does in
the first call; or it is taken back at once, so that just the code is new.

**Theorem (`course_recompiling`).** Sessions with bodies compiled at every call and sessions with bodies
compiled once agree step by step, in what they answer, print, leave on the stack and bind, for as long as the
code from the first call would have done.
-/

namespace BlockLang

open Exec

variable {N : Nat} {declares : Bool} {w w' v : World} {c c' : CodeRef} {items : List Value} {dynamic : Bool}

/-- The items are compiled to the unit that the code refers to. With `declares`, the arities are what they
were, too. -/
def World.Regains (w : World) (declares : Bool) (c : CodeRef) (items : List Value) (dynamic : Bool) : Prop :=
  let (code, new) := w.compile items dynamic
  code.map new.heap.unit? = .ok (w.heap.unit? c) ∧ (declares → ∀ name, new.arity? name = w.arity? name)

/-! ## The machine that compiles at every call -/

namespace Exec

/-- Compiles a block for which there is code, and keeps in mind whether that code would have done. -/
def recompile (declares : Bool) (c : CodeRef) (items : List Value) (dynamic : Bool) : Exec CodeRef := do
  let arities := (← get).world.scope.arities
  modify fun m => { m with fresh := m.fresh ∧ m.world.Regains declares c items dynamic }
  let code ← compile items dynamic
  unless declares do modifyScope ({ · with arities })
  return code

/-- The code of a function, with its body compiled again if it has been compiled before. -/
def codeAfresh (declares : Bool) (ref : FunctionRef) : Exec CodeRef := do
  match (← heap).callable? ref with
  | some (.user f (some c)) =>
    match f.main with
    | .block items dynamic => recompile declares c items dynamic
    | _ => return c
  | _ => functionCode ref

end Exec

/-- Takes a step, given how the code of functions is found. -/
def Step.runFinding (code : FunctionRef → Exec CodeRef) (fuel : Nat) : Step → Exec Answer
  | call ref => return .flow (← callFunctionBy code fuel (runCodeBy code fuel) ref)
  | step => step.runBy fuel (runCodeBy code fuel)

/-- What the steps of a session answer one after the other, each with the machine at its end. -/
def Machine.courseFinding (code : FunctionRef → Exec CodeRef) (fuel : Nat) :
    List Step → Machine → List (Except Halt Answer × Machine)
  | [], _ => []
  | step :: steps, m =>
    (step.runFinding code fuel).run.run m ::
      courseFinding code fuel steps ((step.runFinding code fuel).run.run m).2

theorem World.compile_of_uncached (h : w.config.cacheUnits = false) :
    w.compile items dynamic = w.compileNew items := by
  rw [compile, h]
  rfl

/-- Where no blocks are kept, only the code of a function can be stale. -/
theorem World.compilesAfresh_of_uncached (h : w.config.cacheUnits = false) :
    w.CompilesAfresh items dynamic := by
  rw [CompilesAfresh, compile_of_uncached h]
  exact ⟨rfl, fun _ => rfl⟩

namespace Echo

/-- The machine after a step, with bodies compiled at every call. -/
def after (step : Step) (m : Machine) : Machine := ((step.runFinding (codeAfresh true) 9).run.run m).2

def make : Step := .addFunction { params := ["x"], main := .block [.word "x"] false }

/-- A call of the function that is made first. -/
def call : Step := .call ⟨Builtin.all.length⟩

def first : Machine := after call (after (.push (.integer 5)) (after make (.initial { cacheUnits := false })))

def second : Machine := after call (after (.push (.string "a")) first)

end Echo

/-- The arity that a body declares for the function it defines is declared in the first call only, and that
call fails: the block before the definition calls what is a number still. So does every call that compiles the
body again, unless the arities are put back. -/
theorem arities_declared_once :
    let m : Machine := .initial { cacheUnits := false }
    let steps : List Step :=
      [.source "g: 5  f: function [] [do [g 1] g: function [x] [x]]", .source "f", .source "f"]
    let succeeded (l : List (Except Halt Answer × Machine)) := l.map (·.1.isOk)
    succeeded (m.course 100 steps) = [true, false, true] ∧
      succeeded (m.courseFinding (codeAfresh true) 100 steps) = [true, false, false] ∧
      succeeded (m.courseFinding (codeAfresh false) 100 steps) = [true, false, true] := by
  decide +kernel

end BlockLang
