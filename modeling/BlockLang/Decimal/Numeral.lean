import BlockLang.Numeric.Binary64
import BlockLang.Numeric.Word

/-!
# Reading numbers

The texts that stand for a number. Every function takes the whole text and answers `none` when some
of it is left over. Digits are the ten ASCII digits.
-/

namespace BlockLang.Numeral

/-- The value of a digit behind a number already read. -/
def pushDigit (n : Nat) (c : Char) : Nat := 10 * n + (c.toNat - '0'.toNat)

/-- The number that a sequence of digits stands for; `0` for the empty one. -/
def ofDigits (digits : List Char) : Nat := digits.foldl pushDigit 0

/-- A nonempty sequence of digits. -/
def isDigits (l : List Char) : Bool := !l.isEmpty && l.all Char.isDigit

/-- Splits off a sign; `true` stands for minus. -/
def splitSign : List Char → Bool × List Char
  | '-' :: l => (true, l)
  | '+' :: l => (false, l)
  | l => (false, l)

/-- A whole number with an optional sign, of any size. -/
def integer? (l : List Char) : Option Int :=
  let (negative, digits) := splitSign l
  if isDigits digits then
    some (if negative then -(ofDigits digits : Int) else ofDigits digits)
  else none

/-- A whole number that fits a word. -/
def word? (l : List Char) : Option Int64 := (integer? l).bind wordOfInt?

/-- The pattern nearest to `digits · 10 ^ exp`. Beyond these exponents every positive number is
rounded to infinity or to zero. -/
def nearest (digits : List Char) (exp : Int) : Binary64 :=
  let significant := digits.dropWhile (· == '0')
  let top := exp + significant.length
  if significant.isEmpty || top < -400 then .zero
  else if 400 < top then .infinity false
  else .ofFloat (Float.ofScientific (ofDigits significant) (exp < 0) exp.natAbs)

/-- The exponent behind a mantissa: nothing at all, or the mark and a whole number. -/
def exponent? : List Char → Option Int
  | [] => some 0
  | c :: l => if c == 'e' || c == 'E' then integer? l else none

/-- A number without a sign: digits with an optional point, at least one digit in all, and an
optional exponent. -/
def unsigned? (l : List Char) : Option Binary64 :=
  let whole := l.takeWhile Char.isDigit
  let rest := l.dropWhile Char.isDigit
  let (fraction, rest) :=
    match rest with
    | '.' :: l => (l.takeWhile Char.isDigit, l.dropWhile Char.isDigit)
    | _ => ([], rest)
  if whole.isEmpty && fraction.isEmpty then none
  else (exponent? rest).map fun e => nearest (whole ++ fraction) (e - fraction.length)

/-- A floating point number: a number with an optional sign, or a name of infinity or of the
undefined result, in letters of either case. -/
def binary64? (l : List Char) : Option Binary64 :=
  let (negative, l) := splitSign l
  let name := String.ofList (l.map Char.toLower)
  let magnitude :=
    if name == "inf" || name == "infinity" then some (Binary64.infinity false)
    else if name == "nan" then some .nan
    else unsigned? l
  magnitude.map fun x => if negative then x.neg else x

end BlockLang.Numeral
