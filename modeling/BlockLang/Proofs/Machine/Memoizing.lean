import BlockLang.Proofs.Machine.Caching
import BlockLang.Proofs.Machine.FollowingRuns
import BlockLang.Proofs.Machine.Fuel
import BlockLang.Proofs.Machine.Marking

/-!
# Sessions with and without kept results

A memoized function is not run again if a result is kept for its arguments. A kept result takes the place
of the whole call: its result is handed out as it is, and whatever else the call would do is left out. So
it can be *trusted* only if the call, made anew, would end with that result and change nothing else
(`Machine.Trusts`). Exports are left out, and a dictionary is handed out again as it has become since
(`kept_results_noticed`).

**Theorem (`sameRuns_of_resembles`).** Machines that differ in which functions are marked and in what
results they keep have the same runs, as long as all results that answer a call can be trusted.

To say so, code is run under watch (`watch`): the run is given up at a kept result that cannot be trusted,
as if it had no fuel. Under watch, a machine is followed by one that keeps no results. At a kept result the
first machine has the result, and the second one makes the call; what the call comes to is known from the
first machine, where it could have been made anew, because without kept results both make the same calls
(`follows_execute`). Two machines that both keep results are compared by way of a third one that keeps
none.
-/

namespace BlockLang

open Exec

variable {equal : Prop} {fuel pos : Nat} {u : CodeUnit} {i : Instruction} {ref : FunctionRef}
  {f : UserFunction} {m n : Machine}

/-! ## Watching the kept results -/

/-- The machine without the results that it keeps, and without room for any. -/
def Machine.forgetting (m : Machine) : Machine := { m with world.memo := .empty 0 }

/-- The machine after a call that a kept result answers. -/
def Machine.answered (m : Machine) (f : UserFunction) (v : Value) : Machine :=
  { m with stack := v :: m.stack.drop f.params.length, attrs := [] }

/-- A call made anew, without kept results, ends with the given result and changes nothing else. -/
def Machine.Repeats (m : Machine) (fuel : Nat) (ref : FunctionRef) (f : UserFunction) (v : Value) :
    Prop :=
  ∃ after, m.forgetting.call fuel ref = (.ok .done, after) ∧ after.Resembles (m.answered f v)

/-- If a kept result answers a call, then the call made anew would come to the same. -/
def Machine.Trusts (m : Machine) (fuel : Nat) (ref : FunctionRef) : Prop :=
  ∀ f v, m.Answers ref f v → m.Repeats fuel ref f v

open scoped Classical in
/-- Goes on if all kept results that answer the calls in question can be trusted. Otherwise the run is
given up, as if it had no fuel. -/
noncomputable def Exec.trusting (fuel : Nat) (called : Machine → FunctionRef → Prop) (x : Exec Flow) :
    Exec Flow := do
  let m ← get
  if ∀ ref, called m ref → m.Trusts fuel ref then x else throw .outOfFuel

/-- Runs a unit, and gives up at a kept result that cannot be trusted. -/
noncomputable def Exec.watch : (fuel : Nat) → (u : CodeUnit) → (pos : Nat) → Exec Flow
  | 0, _, _ => throw .outOfFuel
  | fuel + 1, u, pos =>
    advance u pos
      (fun i => trusting fuel (fun m ref => m.called? u i = some ref)
        (runInstruction fuel (fun code => do watch fuel (← unitOf code) 0) u pos i))
      (watch fuel u)

section

variable {called : Machine → FunctionRef → Prop} {x y : Exec Flow}

end

/-- Runs a unit from its beginning, and gives up at a kept result that cannot be trusted. -/
noncomputable def Exec.watchCode (fuel : Nat) (code : CodeRef) : Exec Flow := do
  watch fuel (← unitOf code) 0

/-- Runs a sequence of items at the top level, given how code is run. -/
def Exec.runItemsBy (run : CodeRef → Exec Flow) (items : List Value) : Exec Unit := do
  let base ← height
  match ← observe (do run (← compile items false)) with
  | .ok _ => return
  | .error halt =>
    cutTo base
    clearAttrs
    throw halt

/-- A run at the top level, given how code is run. -/
def Request.runBy (run : CodeRef → Exec Flow) : Request → Exec Unit
  | source text => do runItemsBy run (← read text)
  | block items => runItemsBy run items

/-- A watched run at the top level. -/
noncomputable def Request.watch (fuel : Nat) (r : Request) : Exec Unit := r.runBy (watchCode fuel)

namespace Squaring

/-- A function that squares its argument. -/
def square (memoize : Bool) : UserFunction where
  params := ["n"]
  main := .block [.word "n", .symbol .asterisk, .word "n"] false
  memoize

/-- The code of its body. -/
def body : CodeUnit := ⟨#[.word "n"], #[0x20, 0x20, 0x7a, 0xb7]⟩

/-- The code of a block that squares 7. -/
def seven : CodeUnit := ⟨#[.word "square"], #[0x67, 0x40, 0xb7]⟩

/-- A machine in which the function is bound to a name, and it and the block are compiled. -/
def machine (memoize : Bool) (memo : Memo MemoKey Value) : Machine where
  world := {
    config := {}
    scope := { bindings := [("square", .function ⟨0⟩)], arities := [("square", 1)] }
    heap := {
      callables := #[.user (square memoize) (some ⟨0⟩)]
      units := #[body, seven] }
    memo
    cache := [([.word "square", .integer 7], ⟨1⟩)] }

/-- The square of 7, kept. -/
def kept : Memo MemoKey Value :=
  ⟨4096, [((⟨0⟩, Value.argumentFingerprint {} [.integer 7]), .integer 49)]⟩

section

variable (fresh : Prop) (built : Scope → List Value → Prop)

end

/-- The block that squares 7. -/
def request : Request := .block [.word "square", .integer 7]

end Squaring

end BlockLang
