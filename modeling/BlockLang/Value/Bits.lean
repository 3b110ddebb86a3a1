import BlockLang.Value.Expect

/-!
# Operations on bits and truth values

Integers are words of 64 bits in two's complement. A shift to the left drops the bits that leave the
word, one to the right copies the sign, and an amount that is not between `0` and `63` counts as an
overflow.
-/

namespace BlockLang

/-- A binary operation on the bits of integers. -/
inductive BitOperation where
  | band | bor | bxor | shl | shr
deriving DecidableEq, Repr, Inhabited

namespace BitOperation

def name : BitOperation → String
  | band => "band"
  | bor => "bor"
  | bxor => "bxor"
  | shl => "shl"
  | shr => "shr"

/-- The amount can be shifted by. -/
def isShift (n : Int64) : Bool := 0 ≤ n && n < 64

def onWords? : BitOperation → Int64 → Int64 → Option Int64
  | band, a, b => some (a &&& b)
  | bor, a, b => some (a ||| b)
  | bxor, a, b => some (a ^^^ b)
  | shl, a, b => if isShift b then some (a <<< b) else none
  | shr, a, b => if isShift b then some (a >>> b) else none

/-- The result of an operation on two values. -/
def apply (op : BitOperation) (a b : Value) : Except RuntimeError Value := do
  let x ← a.expectInteger op.name
  let y ← b.expectInteger op.name
  match op.onWords? x y with
  | some n => .ok (.integer n)
  | none => .error (.overflow op.name)

end BitOperation

namespace Value

/-- The integer with all bits turned round. -/
def complement (v : Value) : Except RuntimeError Value := do
  let n ← v.expectInteger "bnot"
  return integer (~~~n)

/-- The opposite truth value. -/
def opposite (v : Value) : Except RuntimeError Value := do
  let b ← v.expectLogical "not?"
  return logical !b

/-- Combines two truth values; both have to be there. -/
def combine (operation : String) (f : Bool → Bool → Bool) (a b : Value) :
    Except RuntimeError Value := do
  let x ← a.expectLogical operation
  let y ← b.expectLogical operation
  return logical (f x y)

end Value

end BlockLang
