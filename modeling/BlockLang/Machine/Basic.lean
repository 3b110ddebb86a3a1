import BlockLang.Code.Compile
import BlockLang.Value.Order

/-!
# The machine

A machine runs compiled code in a world. It has a stack of operands, the attributes that wait for
the next call, and an output.

**Exec** is a piece of a run: it changes the machine and either answers or halts. A machine halts with
an error of the language, which the program may recover from, or because its fuel is used up, which
nothing recovers from. The changes made up to that point stay in both cases.

**Flow** tells how a piece of a program ended: it came to its end, or it asked for a way out that
some construct around it has to provide.

**History.** A machine also keeps in mind what has happened in it: which errors were raised, whether
code was ever reused that no longer fits its block, and which blocks call trees were built for. No run
depends on that.
-/

namespace BlockLang

/-- How a piece of a program ended. -/
inductive Flow where
  | done
  /-- On the way out of a function. -/
  | returned
  /-- On the way out of a loop. -/
  | broken
  /-- On the way to the next pass of a loop. -/
  | continued
deriving DecidableEq, Repr, Inhabited

/-- Why a machine halts. -/
inductive Halt where
  | error (cause : Error)
  | outOfFuel
deriving DecidableEq, Repr

/-- Where printed text goes. -/
inductive Output where
  /-- The text so far. -/
  | collected (text : String)
  /-- Nothing can be printed, for the given reason. -/
  | refused (reason : String)
deriving DecidableEq, Repr, Inhabited

structure Machine where
  world : World
  /-- The operands, top first. -/
  stack : List Value := []
  /-- The attributes for the next call. -/
  attrs : NameTable Value := []
  output : Output := .collected ""
  /-- How many blocks and calls the machine is inside of. -/
  depth : Nat := 0
  /-- How many tries the machine is inside of. -/
  tryDepth : Nat := 0
  /-- The runtime errors so far, latest first, with those that were recovered from. -/
  raised : List RuntimeError := []
  /-- All code so far was what its block would have been compiled to at that moment. -/
  fresh : Prop := True
  /-- Call trees were built for these items so far, in this scope. -/
  built : Scope → List Value → Prop := fun _ _ => False

/-- A machine before its first run. -/
def Machine.initial (config : Config) : Machine := { world := World.initial config }

/-- The machine when it is about to compile a block, with that in its history. -/
def Machine.compiling (m : Machine) (items : List Value) (dynamic : Bool) : Machine :=
  { m with
    fresh := m.fresh ∧ m.world.CompilesAfresh items dynamic
    built := fun scope l => m.built scope l ∨
      scope = m.world.scope ∧ l = items ∧ m.world.Builds items dynamic }

@[simp] theorem Machine.world_compiling (m : Machine) (items : List Value) (dynamic : Bool) :
    (m.compiling items dynamic).world = m.world := rfl

/-- A piece of a run. -/
abbrev Exec := ExceptT Halt (StateM Machine)

namespace Exec

variable {α : Type}

/-! ## Errors -/

/-- Raises a runtime error. -/
def fail (e : RuntimeError) : Exec α := do
  modify fun m => { m with raised := e :: m.raised }
  throw (.error (.runtime e))

instance : MonadLift (Except RuntimeError) Exec where
  monadLift
    | .ok a => pure a
    | .error e => fail e

instance : MonadLift (Except Error) Exec where
  monadLift
    | .ok a => pure a
    | .error e => throw (.error e)

/-- Runs a piece and hands its outcome over, whatever it is. -/
def observe (x : Exec α) : Exec (Except Halt α) := ExceptT.lift x.run

/-- Goes on with an outcome. -/
def resume : Except Halt α → Exec α
  | .ok a => pure a
  | .error halt => throw halt

/-- Runs a piece, and then changes the machine whether or not the piece halted. -/
def afterwards (x : Exec α) (f : Machine → Machine) : Exec α := do
  let outcome ← observe x
  modify f
  resume outcome

/-! ## The operands -/

def push (v : Value) : Exec Unit := modify fun m => { m with stack := v :: m.stack }

/-- Takes the top operand. -/
def pop : Exec Value := do
  match (← get).stack with
  | v :: stack =>
    modify ({ · with stack })
    return v
  | [] => fail .stackUnderflow

/-- Takes the top two operands, the deeper one first. -/
def pop₂ : Exec (Value × Value) := do
  match (← get).stack with
  | b :: a :: stack =>
    modify ({ · with stack })
    return (a, b)
  | _ => fail .stackUnderflow

/-- Takes the top three operands, the deepest one first. -/
def pop₃ : Exec (Value × Value × Value) := do
  match (← get).stack with
  | c :: b :: a :: stack =>
    modify ({ · with stack })
    return (a, b, c)
  | _ => fail .stackUnderflow

/-- The operand below the given number of others. -/
def peek (i : Nat) : Exec Value := do
  match (← get).stack[i]? with
  | some v => return v
  | none => fail .stackUnderflow

/-- The number of operands. -/
def height : Exec Nat := return (← get).stack.length

/-- The part of a stack that lies above the lowest `base` operands. -/
def above (base : Nat) (stack : List Value) : List Value := stack.take (stack.length - base)

/-- The lowest `base` operands of a stack, or all if there are fewer. -/
def below (base : Nat) (stack : List Value) : List Value := stack.drop (stack.length - base)

/-- Drops what lies above the lowest `base` operands. -/
def cutTo (base : Nat) : Exec Unit := modify fun m => { m with stack := below base m.stack }

/-- Takes what lies above the lowest `base` operands, the deepest first. -/
def takeAbove (base : Nat) : Exec (List Value) := do
  let items := (above base (← get).stack).reverse
  cutTo base
  return items

/-! ## The world -/

/-- Lets the world change and answer. -/
def inWorld (f : World → α × World) : Exec α :=
  modifyGet fun m =>
    let (a, world) := f m.world
    (a, { m with world })

def modifyWorld (f : World → World) : Exec Unit := modify fun m => { m with world := f m.world }

def modifyScope (f : Scope → Scope) : Exec Unit :=
  modifyWorld fun w => { w with scope := f w.scope }

def heap : Exec Heap := return (← get).world.heap

/-- Binds a name. -/
def bind (name : String) (v : Value) : Exec Unit := modifyWorld (·.set name v)

/-- Binds names, one after the other. -/
def bindAll (bindings : List (String × Value)) : Exec Unit :=
  modifyWorld fun w => bindings.foldl (fun w (name, v) => w.set name v) w

/-- The value bound to a name. -/
def valueOf (name : String) : Exec Value := do
  let w := (← get).world
  match w.get? name with
  | some v => return v
  | none => fail (w.undefined name)

/-- Puts names back to what they are now once a piece of the run is over, whether or not it
halted. -/
def protecting (names : List String) (x : Exec α) : Exec α := do
  let saved := (← get).world.scope
  let outcome ← observe x
  modifyScope (·.restoreNames saved names)
  resume outcome

/-- Reads source text. -/
def read (source : String) : Exec (List Value) := do
  match ← inWorld (·.read source) with
  | .ok items => return items
  | .error e => throw (.error (.reading e))

/-- The code of a block. -/
def compile (items : List Value) (dynamic : Bool) : Exec CodeRef := do
  modify (·.compiling items dynamic)
  let outcome ← inWorld (·.compile items dynamic)
  outcome

/-! ## Attributes -/

def clearAttrs : Exec Unit := modify ({ · with attrs := [] })

/-- The attribute given to the call that is being made. -/
def attr? (name : String) : Exec (Option Value) := return (← get).attrs.get? name

/-- The attribute is there and is not `false`. -/
def hasFlag (name : String) : Exec Bool :=
  return (← attr? name).any fun v => v.logical?.getD true

/-! ## Text -/

/-- The display of a value. -/
def shown (fuel : Nat) (v : Value) : Exec String := do
  match v.display? (← heap) fuel with
  | some s => return s
  | none => throw .outOfFuel

/-- Whether two values are equal to a program. -/
def areEqual (fuel : Nat) (a b : Value) : Exec Bool := do
  match Value.equalWithin (← heap) fuel a b with
  | some b => return b
  | none => throw .outOfFuel

/-- Prints a text. -/
def print (s : String) : Exec Unit := do
  match (← get).output with
  | .collected text => modify ({ · with output := .collected (text ++ s) })
  | .refused reason => fail (.output reason)

end Exec

end BlockLang
