import BlockLang.Numeric.Binary64

/-!
# Shortest decimals

Which decimal stands for a floating point number, and how it is written.

**Digits.** A decimal `digits · 10 ^ exp` reads back as a pattern when it lies between the halfway
points to the neighbouring patterns; the points themselves count exactly when the mantissa is even.
`Decimal.shortest` tries one digit, then two, and so on. On the grid of a given length only the two
neighbours of the exact value have to be tried; of two that read back the nearer is taken, and the
upper one on a tie.

**Layout.** A number is always written positionally. An integral value is written with all its
digits and one zero behind the point.
-/

namespace BlockLang

/-- The number `digits · 10 ^ exp`. -/
structure Decimal where
  digits : Nat
  exp : Int
deriving DecidableEq, Repr

namespace Decimal

/-- Exact order of `a · 10 ^ i` and `m · 2 ^ q`. -/
def compareScaled (a : Nat) (i : Int) (m : Nat) (q : Int) : Ordering :=
  compare (a * Nat.pow 10 i.toNat <<< (-q).toNat) (m * Nat.pow 10 (-i).toNat <<< q.toNat)

/-- The decimal lies among the numbers that round to the magnitude of `x`. Both halfway points are
counted in quarters of the last place: below a power of two the gap is half as wide. -/
def readsBack (x : Binary64) (d : Decimal) : Bool :=
  let narrow := x.fractionField == 0 && x.exponentField > 1
  let lower := if narrow then 4 * x.mantissa - 1 else 4 * x.mantissa - 2
  let upper := 4 * x.mantissa + 2
  let fromBelow := compareScaled d.digits d.exp lower (x.exponent - 2)
  let fromAbove := compareScaled d.digits d.exp upper (x.exponent - 2)
  let closed := x.mantissa % 2 == 0
  (fromBelow == .gt || closed && fromBelow == .eq)
    && (fromAbove == .lt || closed && fromAbove == .eq)

/-- The least `k` with `m · 2 ^ q < 10 ^ k`, for `m` positive: an estimate from the binary
logarithm, corrected by exact comparison. -/
def scale (m : Nat) (q : Int) : Int :=
  let estimate := ((m.log2 : Int) + q) * 30103 / 100000
  let candidates := [estimate - 1, estimate, estimate + 1, estimate + 2, estimate + 3]
  (candidates.find? fun k => compareScaled 1 k m q == .gt).getD (estimate + 3)

/-- The decimal of `n` digits that reads back as the magnitude of `x`, if there is one; the first
digit stands below `10 ^ k`. -/
def ofLength? (x : Binary64) (k : Int) (n : Nat) : Option Decimal :=
  let grid := k - n
  let numerator := x.mantissa * Nat.pow 10 (-grid).toNat <<< x.exponent.toNat
  let denominator := Nat.pow 10 grid.toNat <<< (-x.exponent).toNat
  let below : Decimal := ⟨numerator / denominator, grid⟩
  let above : Decimal := ⟨numerator / denominator + 1, grid⟩
  match readsBack x below, readsBack x above with
  | true, true => if 2 * (numerator % denominator) < denominator then some below else some above
  | true, false => some below
  | false, true => some above
  | false, false => none

/-- Moves trailing zeros of the digits into the exponent, at most `n` of them. -/
def strip : Nat → Decimal → Decimal
  | 0, d => d
  | n + 1, d => if d.digits % 10 = 0 then strip n ⟨d.digits / 10, d.exp + 1⟩ else d

/-- The exact value of a pattern. -/
def exact (x : Binary64) : Decimal :=
  if 0 ≤ x.exponent then ⟨x.mantissa <<< x.exponent.toNat, 0⟩
  else ⟨x.mantissa * Nat.pow 5 (-x.exponent).toNat, x.exponent⟩

/-- The decimal with the fewest digits that reads back as the magnitude of `x`. -/
def shortest (x : Binary64) : Decimal :=
  if x.mantissa = 0 then ⟨0, 0⟩
  else
    let k := scale x.mantissa x.exponent
    let found := (List.range 17).findSome? fun n => ofLength? x k (n + 1)
    strip 20 (found.getD (exact x))

/-- A decimal in positional notation. -/
def positional (d : Decimal) : String :=
  let digits := (toString d.digits).toList
  if 0 ≤ d.exp then String.ofList (digits ++ List.replicate d.exp.toNat '0')
  else
    let places := (-d.exp).toNat
    let digits := List.replicate (places + 1 - digits.length) '0' ++ digits
    let whole := digits.length - places
    String.ofList (digits.take whole ++ '.' :: digits.drop whole)

end Decimal

/-- The text of a floating point number. -/
def Binary64.text (x : Binary64) : String :=
  if x.isNaN then "NaN"
  else
    let sign := if x.isNegative then "-" else ""
    if !x.isFinite then sign ++ "inf"
    else if x.isIntegral then sign ++ toString x.wholePart ++ ".0"
    else sign ++ (Decimal.shortest x).positional

end BlockLang
