import BlockLang.Numeric.Binary64
import BlockLang.Numeric.Word

/-!
# Exact fractions

A `Rational` is a fraction of two words in lowest terms with a positive denominator, so each value
has one representation. `Rational.ofInts?` brings any pair of integers into that form, and answers
`none` when the denominator is zero or when a part in lowest terms does not fit a word.
-/

namespace BlockLang

/-- A fraction in lowest terms. -/
structure Rational where
  numer : Int64
  denom : Int64
  denom_pos : 0 < denom.toInt
  coprime : numer.toInt.gcd denom.toInt = 1
deriving DecidableEq

namespace Rational

/-- The numerator of `n / d` in lowest terms; it carries the sign. -/
def reducedNumer (n d : Int) : Int := d.sign * (n / n.gcd d)

/-- The denominator of `n / d` in lowest terms. -/
def reducedDenom (n d : Int) : Int := (d.natAbs / n.gcd d : Nat)

theorem reducedDenom_pos {n d : Int} (h : d ≠ 0) : 0 < reducedDenom n d := by
  have hd : 0 < d.natAbs := Int.natAbs_pos.2 h
  have : 0 < d.natAbs / n.gcd d :=
    Nat.div_pos (Nat.le_of_dvd hd (Nat.gcd_dvd_right ..)) (Int.gcd_pos_of_ne_zero_right _ h)
  exact Int.natCast_pos.2 this

theorem reduced_coprime {n d : Int} (h : d ≠ 0) :
    (reducedNumer n d).gcd (reducedDenom n d) = 1 := by
  have hs : d.sign.natAbs = 1 := Int.natAbs_sign_of_ne_zero h
  have hn : (n / (n.gcd d : Int)).natAbs = n.natAbs / n.gcd d := by
    rw [Int.natAbs_ediv_of_dvd (Int.gcd_dvd_left ..)]; simp
  unfold reducedNumer reducedDenom
  rw [Int.gcd, Int.natAbs_mul, hs, hn, Int.natAbs_natCast, Nat.one_mul]
  exact Nat.gcd_div_gcd_div_gcd_of_pos_right (Int.natAbs_pos.2 h)

/-- The fraction `n / d`, if it has one in words. -/
def ofInts? (n d : Int) : Option Rational :=
  if h : d = 0 then none
  else
    (wordOfInt? (reducedNumer n d)).pbind fun numer hn =>
      (wordOfInt? (reducedDenom n d)).pbind fun denom hd =>
        some {
          numer, denom
          denom_pos := by rw [wordOfInt?_eq_some_iff.1 hd]; exact reducedDenom_pos h
          coprime := by
            rw [wordOfInt?_eq_some_iff.1 hn, wordOfInt?_eq_some_iff.1 hd]; exact reduced_coprime h }

/-- An integer over one. -/
def ofInt64 (n : Int64) : Rational where
  numer := n
  denom := 1
  denom_pos := by decide
  coprime := by simp

/-- The quotient in floating point, of the parts converted one by one. -/
def toBinary64 (q : Rational) : Binary64 :=
  (Binary64.ofInt q.numer.toInt).div (Binary64.ofInt q.denom.toInt)

/-- Both parts with a slash between them. -/
def text (q : Rational) : String := s!"{q.numer.toInt}/{q.denom.toInt}"

end Rational

end BlockLang
