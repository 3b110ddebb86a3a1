import BlockLang.Code.Opcode
import BlockLang.Error

/-!
# Arithmetic

The binary operations on numbers. Two integers give an exact integer or an overflow, except that
`fdiv`, and `pow` with a negative exponent, answer in floating point. Fractions, alone or beside an
integer, are exact under `add`, `sub`, `mul` and `div`, and a fraction that comes out whole becomes an
integer. Every other pair of numbers is computed in floating point.

A zero divisor is refused before anything else is looked at.
-/

namespace BlockLang

/-- A binary operation on numbers. -/
inductive Arith where
  | add | sub | mul
  /-- Rounded toward zero on integers. -/
  | div
  /-- Always in floating point. -/
  | fdiv
  | mod
  | pow
deriving DecidableEq, Repr, Inhabited

namespace Arith

def all : List Arith := [add, sub, mul, div, fdiv, mod, pow]

def name : Arith → String
  | add => "add"
  | sub => "sub"
  | mul => "mul"
  | div => "div"
  | fdiv => "fdiv"
  | mod => "mod"
  | pow => "pow"

/-- The operation that an opcode stands for. -/
def ofOpcode? : Opcode → Option Arith
  | .add => some add
  | .sub => some sub
  | .mul => some mul
  | .div => some div
  | .fdiv => some fdiv
  | .mod => some mod
  | .pow => some pow
  | _ => none

/-- The operation has no answer for a zero on the right. -/
def isDivision : Arith → Bool
  | div | fdiv | mod => true
  | _ => false

/-! ## Integers -/

/-- A power with a natural exponent, if it fits a word. A base beyond `±1` outgrows every word at
exponent `64`. -/
def power? (x : Int64) (n : Nat) : Option Int64 :=
  let base := x.toInt
  if base = 0 ∨ base = 1 ∨ base = -1 then wordOfInt? (Int.pow base (if n = 0 then 0 else 2 - n % 2))
  else if n < 64 then wordOfInt? (Int.pow base n)
  else none

/-- The exact result on integers, if it fits a word. A remainder counts as too large when the
quotient is. -/
def onIntegers? (op : Arith) (x y : Int64) : Option Value :=
  let fit (n : Int) : Option Value := (wordOfInt? n).map .integer
  let a := x.toInt
  let b := y.toInt
  match op with
  | add => fit (a + b)
  | sub => fit (a - b)
  | mul => fit (a * b)
  | div => fit (a.tdiv b)
  | mod => (wordOfInt? (a.tdiv b)).bind fun _ => fit (a.tmod b)
  | fdiv => some (.floating ((Binary64.ofInt a).div (.ofInt b)))
  | pow =>
    if b < 0 then some (.floating ((Binary64.ofInt a).pow (.ofInt b)))
    else if b < 0x100000000 then (power? x b.toNat).map .integer
    else none

/-! ## Fractions -/

end Arith

/-- A fraction as a value: an integer if it is whole. -/
def Rational.toValue (q : Rational) : Value := if q.denom = 1 then .integer q.numer else .rational q

/-- The value `n / d`, where both parts have to fit a word before they are reduced. -/
def Rational.quotient? (n d : Int) : Option Value := do
  let n ← wordOfInt? n
  let d ← wordOfInt? d
  let q ← Rational.ofInts? n.toInt d.toInt
  return q.toValue

namespace Arith

/-- The sum or difference of fractions, over the product of their denominators. -/
def sumOfFractions? (combine : Int → Int → Int) (x y : Rational) : Option Value := do
  let left ← wordOfInt? (x.numer.toInt * y.denom.toInt)
  let right ← wordOfInt? (y.numer.toInt * x.denom.toInt)
  Rational.quotient? (combine left.toInt right.toInt) (x.denom.toInt * y.denom.toInt)

/-! ## Floating point -/

def onFloats (op : Arith) (x y : Binary64) : Except RuntimeError Value :=
  if op.isDivision && y.isZero then .error .divisionByZero
  else .ok <| .floating <| match op with
    | add => x.add y
    | sub => x.sub y
    | mul => x.mul y
    | div | fdiv => x.div y
    | mod => x.rem y
    | pow => x.pow y

/-- The operations on fractions that are not exact go through floating point. -/
def onRationals (op : Arith) (x y : Rational) : Except RuntimeError Value :=
  let exact (v : Option Value) : Except RuntimeError Value :=
    match v with
    | some v => .ok v
    | none => .error (.overflow op.name)
  match op with
  | add => exact (sumOfFractions? (· + ·) x y)
  | sub => exact (sumOfFractions? (· - ·) x y)
  | mul => exact (Rational.quotient? (x.numer.toInt * y.numer.toInt) (x.denom.toInt * y.denom.toInt))
  | div =>
    if y.numer = 0 then .error .divisionByZero
    else exact (Rational.quotient? (x.numer.toInt * y.denom.toInt) (x.denom.toInt * y.numer.toInt))
  | fdiv | mod | pow => onFloats op x.toBinary64 y.toBinary64

/-! ## All values -/

/-- The value is a zero that cannot be divided by. -/
def isZeroDivisor : Value → Bool
  | .integer n => n = 0
  | .floating x => x.isZero
  | _ => false

/-- The result of an operation on two values. The first operand that is no number is reported. -/
def apply (op : Arith) (a b : Value) : Except RuntimeError Value :=
  if op.isDivision && isZeroDivisor b then .error .divisionByZero
  else
    match a, b with
    | .integer x, .integer y =>
      match onIntegers? op x y with
      | some v => .ok v
      | none => .error (.overflow op.name)
    | .rational x, .rational y => onRationals op x y
    | .rational x, .integer y => onRationals op x (.ofInt64 y)
    | .integer x, .rational y => onRationals op (.ofInt64 x) y
    | a, b =>
      match a.toBinary64?, b.toBinary64? with
      | some x, some y => onFloats op x y
      | some _, none => .error (.wrongType op.name "a number" b.kind)
      | none, _ => .error (.wrongType op.name "a number" a.kind)

end Arith

/-- The value with the opposite sign; a fraction stays one. -/
def negate : Value → Except RuntimeError Value
  | .integer n =>
    match wordOfInt? (-n.toInt) with
    | some n => .ok (.integer n)
    | none => .error (.overflow "neg")
  | .floating x => .ok (.floating x.neg)
  | .rational q =>
    match Rational.ofInts? (-q.numer.toInt) q.denom.toInt with
    | some q => .ok (.rational q)
    | none => .error (.overflow "neg")
  | v => .error (.wrongType "neg" "a number" v.kind)

end BlockLang
