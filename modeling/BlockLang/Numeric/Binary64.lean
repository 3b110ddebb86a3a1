import BlockLang.Numeric.Word

/-!
# Binary floating point numbers

A `Binary64` is the bit pattern of a 64-bit floating point number, so equality of the type is
equality of bits: the two zeros differ, and a NaN equals itself. The exact value of a finite pattern
is `± mantissa · 2 ^ exponent`; remainder, truncation and printing work on that pair of integers.

A NaN keeps its bits through an operation. An operation that has no result of its own gives the
pattern `Binary64.undefined`.
-/

namespace BlockLang

/-- A floating point number, by its bits. -/
structure Binary64 where
  bits : UInt64
deriving DecidableEq, Repr, Inhabited

namespace Binary64

/-! ## Parts of a pattern -/

/-- The sign bit is set. -/
def isNegative (x : Binary64) : Bool := x.bits >>> 63 != 0

/-- The eleven bits that hold the biased exponent. -/
def exponentField (x : Binary64) : Nat := ((x.bits >>> 52) &&& 0x7FF).toNat

/-- The fifty-two bits behind the leading bit. -/
def fractionField (x : Binary64) : Nat := (x.bits &&& 0xFFFFFFFFFFFFF).toNat

def isFinite (x : Binary64) : Bool := x.exponentField < 0x7FF

def isNaN (x : Binary64) : Bool := x.exponentField == 0x7FF && x.fractionField != 0

/-- The leading bit of a mantissa, which the pattern leaves out. -/
def hiddenBit : Nat := 0x10000000000000

/-- The integer in front of the power of two; the leading bit is hidden except in the lowest
binade. -/
def mantissa (x : Binary64) : Nat :=
  if x.exponentField = 0 then x.fractionField else hiddenBit + x.fractionField

/-- The power of two of a finite pattern. -/
def exponent (x : Binary64) : Int :=
  if x.exponentField = 0 then -1074 else (x.exponentField : Int) - 1075

/-! ## Building patterns -/

def toFloat (x : Binary64) : Float := Float.ofBits x.bits

def ofFloat (x : Float) : Binary64 := ⟨x.toBits⟩

/-- The pattern that stands for an operation without a result. -/
def undefined : Binary64 := ⟨0xFFF8000000000000⟩

/-- The positive quiet NaN. -/
def nan : Binary64 := ⟨0x7FF8000000000000⟩

def zero : Binary64 := ⟨0⟩

/-- The infinity of the given sign. -/
def infinity (negative : Bool) : Binary64 :=
  if negative then ⟨0xFFF0000000000000⟩ else ⟨0x7FF0000000000000⟩

/-- Marks a NaN as quiet and leaves its payload. -/
def quiet (x : Binary64) : Binary64 := ⟨x.bits ||| 0x0008000000000000⟩

/-- The pattern with value `± m · 2 ^ q`, for `m < 2 ^ 53` and `-1074 ≤ q` small enough to be
finite. -/
def ofScaled (negative : Bool) (m : Nat) (q : Int) : Binary64 :=
  let sign : Nat := if negative then 1 <<< 63 else 0
  -- move the leading bit to position 52, but not below the lowest power of two
  let shift := min (52 - m.log2) (q + 1074).toNat
  let m := m <<< shift
  if m < hiddenBit then ⟨(sign + m).toUInt64⟩
  else
    let field := (q - shift + 1075).toNat
    ⟨(sign + field * hiddenBit + (m - hiddenBit)).toUInt64⟩

/-! ## Arithmetic -/

/-- Carries an operation over from machine numbers. A NaN among the operands comes through, the
first one if both are. -/
def lift₂ (op : Float → Float → Float) (x y : Binary64) : Binary64 :=
  let r := op x.toFloat y.toFloat
  if r.isNaN then
    if x.isNaN then x.quiet else if y.isNaN then y.quiet else undefined
  else ofFloat r

def add : Binary64 → Binary64 → Binary64 := lift₂ (· + ·)

def sub : Binary64 → Binary64 → Binary64 := lift₂ (· - ·)

def mul : Binary64 → Binary64 → Binary64 := lift₂ (· * ·)

def div : Binary64 → Binary64 → Binary64 := lift₂ (· / ·)

def pow : Binary64 → Binary64 → Binary64 := lift₂ Float.pow

/-- Flips the sign bit, of a NaN too. -/
def neg (x : Binary64) : Binary64 := ⟨x.bits ^^^ 0x8000000000000000⟩

/-- The nearest pattern to an integer, the even one of two. -/
def ofInt (n : Int) : Binary64 :=
  let magnitude := ofFloat (Float.ofScientific n.natAbs false 0)
  if n < 0 then magnitude.neg else magnitude

/-- The remainder of division rounded toward zero, exactly; it has the sign of the dividend. -/
def rem (x y : Binary64) : Binary64 :=
  if x.isNaN then x.quiet
  else if y.isNaN then y.quiet
  else if !x.isFinite || y.mantissa == 0 then undefined
  else if !y.isFinite then x
  else
    let q := min x.exponent y.exponent
    let a := x.mantissa <<< (x.exponent - q).toNat
    let b := y.mantissa <<< (y.exponent - q).toNat
    ofScaled x.isNegative (a % b) q

/-! ## Order and conversion -/

/-- The pattern is one of the two zeros. -/
def isZero (x : Binary64) : Bool := x.toFloat == 0

/-- Order by value; a NaN is not comparable to anything. -/
def compare? (x y : Binary64) : Option Ordering :=
  let a := x.toFloat
  let b := y.toFloat
  if a < b then some .lt else if a == b then some .eq else if b < a then some .gt else none

/-- A finite value without a fractional part. -/
def isIntegral (x : Binary64) : Bool :=
  x.isFinite && (0 ≤ x.exponent || x.mantissa % (1 <<< (-x.exponent).toNat) == 0)

/-- The magnitude of a finite value, rounded toward zero. -/
def wholePart (x : Binary64) : Nat :=
  (x.mantissa <<< x.exponent.toNat) >>> (-x.exponent).toNat

/-- The value rounded toward zero and held within the range of a 64-bit integer. -/
def toInt64Clamped (x : Binary64) : Int64 :=
  let whole : Int := if x.isNegative then -(x.wholePart : Int) else x.wholePart
  .ofInt (max (-wordLimit) (min (wordLimit - 1) whole))

end Binary64

end BlockLang
