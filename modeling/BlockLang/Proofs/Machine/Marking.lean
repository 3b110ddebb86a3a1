import BlockLang.Machine.Run
import BlockLang.Proofs.Machine.Resembling

/-!
# Making a function with a mark and without

A program marks a function by an attribute of the call that makes it. What is made is decided by the
operands, by the attributes and by the bindings (`Machine.functionMade`), and the attribute that marks it
is used for nothing but the mark. So machines that resemble each other still do when the function has been
made, marked in one and not in the other.
-/

namespace BlockLang

open Exec

variable {fuel : Nat} {run run' : CodeRef → Exec Flow} {m n : Machine} {params main : Value}

namespace Machine

/-- The names that an attribute lists; none if it is not given. -/
def namesGiven (m : Machine) (name : String) : Except RuntimeError (List String) :=
  match m.attrs.get? name with
  | some v => v.parameterNames "function"
  | none => .ok []

/-- The attribute is there and is not `false`. -/
def flagGiven (m : Machine) (name : String) : Bool :=
  (m.attrs.get? name).any fun v => v.logical?.getD true

/-- The function with the given parameters and body that the attributes ask for. -/
def functionGiven (m : Machine) (params : List String) (main : Value) :
    Except RuntimeError UserFunction := do
  let exports ← m.namesGiven "export"
  let imports ← m.namesGiven "import"
  return {
    params, main, exports
    imports := imports.filterMap fun name => (m.world.get? name).map (name, ·)
    exportable := m.flagGiven "exportable"
    memoize := m.flagGiven "memoize" }

/-- The function that is made of its parameters and its body. -/
def functionMade (m : Machine) (params main : Value) : Except RuntimeError UserFunction := do
  let params ← params.parameterNames "function"
  match main with
  | .block .. | .bytecode _ => m.functionGiven params main
  | v => .error (Value.wrongType "function" "a block" v)

end Machine

/-! ## What making a function does -/

theorem run_namesOfAttr (name : String) :
    (namesOfAttr name).run.run m = (liftM (m.namesGiven name) : Exec (List String)).run.run m := by
  have hattr : (attr? name).run.run m = (.ok (m.attrs.get? name), m) := rfl
  rw [namesOfAttr, run_bind_of_ok hattr, Machine.namesGiven]
  cases m.attrs.get? name <;> rfl

theorem run_functionOf (params : List String) :
    (functionOf params main).run.run m =
      (liftM (m.functionGiven params main) : Exec UserFunction).run.run m := by
  have hflag (name : String) : (hasFlag name).run.run m = (.ok (m.flagGiven name), m) := rfl
  rw [functionOf, run_bind_of_ok (hflag "memoize"), run_bind_of_ok (hflag "exportable"), run_bind,
    run_namesOfAttr, Machine.functionGiven]
  cases m.namesGiven "export" with
  | error e => rfl
  | ok exports =>
    rw [run_answer]
    dsimp only
    rw [run_bind, run_namesOfAttr]
    cases m.namesGiven "import" <;> rfl

/-- What making a function does, with its operands on the stack. -/
theorem run_makeFunction (stack : List Value) :
    makeFunction.run.run { m with stack := main :: params :: stack } =
      match m.functionMade params main with
      | .ok f => (.ok ⟨⟩, { m with
          world := (m.world.addUser f).2, stack := (m.world.addUser f).1 :: stack })
      | .error e => (fail e).run.run { m with stack } := by
  have hpop : pop₂.run.run { m with stack := main :: params :: stack } =
      (.ok (params, main), { m with stack }) := rfl
  rw [makeFunction, run_bind_of_ok hpop, Machine.functionMade]
  dsimp only
  cases params.parameterNames "function" with
  | error e => rfl
  | ok names =>
    have hadd : (do push (← inWorld (·.addUser (← functionOf names main))) : Exec Unit).run.run
          { m with stack } =
        match m.functionGiven names main with
        | .ok f => (.ok ⟨⟩, { m with
            world := (m.world.addUser f).2, stack := (m.world.addUser f).1 :: stack })
        | .error e => (fail e).run.run { m with stack } := by
      have hgiven : ({ m with stack } : Machine).functionGiven names main =
          m.functionGiven names main := rfl
      rw [run_bind, run_functionOf, hgiven]
      cases m.functionGiven names main <;> rfl
    rw [run_bind, run_answer]
    dsimp only
    cases main with
    | block items dynamic => exact hadd
    | bytecode ref => exact hadd
    | _ => rfl

end BlockLang
