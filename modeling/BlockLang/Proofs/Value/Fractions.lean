import BlockLang.Arith
import Mathlib.Data.Rat.Cast.Lemmas
import Mathlib.Data.Rat.Lemmas
import Mathlib.Data.Rat.Cast.CharZero
import Mathlib.Tactic.FieldSimp
import Mathlib.Tactic.Ring

/-!
# Exact arithmetic on fractions

Integers and fractions are added and multiplied exactly: a result is the sum or the product, or there is
none because a number on the way to it does not fit a word. `Rational.toRat` is the number that a fraction
stands for, and `Value.fraction?` reads an integer as a fraction over one.

* `Rational.toRat_injective` — a fraction is determined by its number.
* `Arith.add_apply_eq_ok_iff`, `Arith.mul_apply_eq_ok_iff` — when there is a result, and which.

A result is whole exactly if it is an integer (`Rational.toValue`), so the number determines the value
as well.
-/

namespace BlockLang

/-! ## Words -/

/-- A word can hold the number. -/
def FitsWord (n : Int) : Prop := -wordLimit ≤ n ∧ n < wordLimit

instance (n : Int) : Decidable (FitsWord n) := inferInstanceAs (Decidable (_ ∧ _))

theorem exists_word_iff {n : Int} : (∃ x, wordOfInt? n = some x) ↔ FitsWord n := by
  unfold wordOfInt? FitsWord
  split <;> simp_all

theorem FitsWord.exists_word {n : Int} (h : FitsWord n) : ∃ x : Int64, x.toInt = n := by
  obtain ⟨x, hx⟩ := exists_word_iff.2 h
  exact ⟨x, wordOfInt?_eq_some_iff.1 hx⟩

theorem fitsWord_toInt (x : Int64) : FitsWord x.toInt :=
  exists_word_iff.1 ⟨x, wordOfInt?_toInt x⟩

theorem wordLimit_pos : 0 < wordLimit := by decide

/-- A quotient by a positive number is no larger. -/
theorem FitsWord.ediv {n : Int} (h : FitsWord n) {d : Int} (hd : 0 < d) : FitsWord (n / d) := by
  obtain ⟨hlower, hupper⟩ := h
  have hone : 1 ≤ d := hd
  have hlimit : wordLimit ≤ wordLimit * d := le_mul_of_one_le_right wordLimit_pos.le hone
  constructor
  · rw [Int.le_ediv_iff_mul_le hd, Int.neg_mul]
    omega
  · rw [Int.ediv_lt_iff_lt_mul hd]
    omega

namespace Rational

/-! ## Numbers -/

/-- The number that a fraction stands for. -/
def toRat (q : Rational) : ℚ := q.numer.toInt / q.denom.toInt

theorem denom_ne_zero (q : Rational) : (q.denom.toInt : ℚ) ≠ 0 :=
  Int.cast_ne_zero.2 (Int.ne_of_gt q.denom_pos)

theorem toRat_ofInt64 (n : Int64) : (ofInt64 n).toRat = n.toInt := by
  simp [toRat, ofInt64]

theorem toRat_one : (ofInt64 1).toRat = 1 := by
  rw [toRat_ofInt64]
  exact Int.cast_one

/-- **A fraction is determined by its number**, as it is in lowest terms. -/
theorem toRat_injective {p q : Rational} (h : p.toRat = q.toRat) : p = q := by
  obtain ⟨hn, hd⟩ := Rat.div_int_inj p.denom_pos q.denom_pos p.coprime q.coprime h
  obtain ⟨n, d, _, _⟩ := p
  obtain ⟨n', d', _, _⟩ := q
  obtain rfl := Int64.toInt_inj.1 hn
  obtain rfl := Int64.toInt_inj.1 hd
  rfl

/-! ## Lowest terms -/

variable {n d : Int}

theorem reducedNumer_of_pos (hd : 0 < d) : reducedNumer n d = n / n.gcd d := by
  rw [reducedNumer, Int.sign_eq_one_of_pos hd, Int.one_mul]

theorem reducedDenom_of_pos (hd : 0 < d) : reducedDenom n d = d / n.gcd d := by
  rw [reducedDenom, Int.natCast_ediv, Int.natAbs_of_nonneg hd.le]

theorem reducedDenom_eq_sign_mul : reducedDenom n d = d.sign * (d / n.gcd d) := by
  rw [reducedDenom, Int.natCast_ediv, ← Int.sign_mul_self_eq_natAbs,
    Int.mul_ediv_assoc _ (Int.gcd_dvd_right ..)]

theorem reduced_div (hd : d ≠ 0) :
    (reducedNumer n d : ℚ) / (reducedDenom n d : ℚ) = n / d := by
  have hg : ((n.gcd d : Int) : ℚ) ≠ 0 :=
    Int.cast_ne_zero.2 (Int.natCast_ne_zero.2 (Int.gcd_pos_of_ne_zero_right _ hd).ne')
  have hsign : (d.sign : ℚ) ≠ 0 := Int.cast_ne_zero.2 (mt Int.sign_eq_zero_iff_zero.1 hd)
  rw [reducedNumer, reducedDenom_eq_sign_mul, Int.cast_mul, Int.cast_mul,
    mul_div_mul_left _ _ hsign, Int.cast_div (Int.gcd_dvd_left ..) hg,
    Int.cast_div (Int.gcd_dvd_right ..) hg, div_div_div_cancel_right₀ hg]

/-- Parts that fit words still fit them in lowest terms. -/
theorem exists_ofInts? (hn : FitsWord n) (hfits : FitsWord d) (hd : 0 < d) :
    ∃ q, ofInts? n d = some q ∧ q.numer.toInt = reducedNumer n d ∧
      q.denom.toInt = reducedDenom n d := by
  have hg : 0 < (n.gcd d : Int) := Int.natCast_pos.2 (Int.gcd_pos_of_ne_zero_right _ hd.ne')
  have hnumer : FitsWord (reducedNumer n d) := by
    rw [reducedNumer_of_pos hd]
    exact hn.ediv hg
  have hdenom : FitsWord (reducedDenom n d) := by
    rw [reducedDenom_of_pos hd]
    exact hfits.ediv hg
  obtain ⟨x, hx⟩ := exists_word_iff.2 hnumer
  obtain ⟨y, hy⟩ := exists_word_iff.2 hdenom
  unfold ofInts?
  rw [dif_neg hd.ne', Option.pbind_some' hx, Option.pbind_some' hy]
  exact ⟨_, rfl, wordOfInt?_eq_some_iff.1 hx, wordOfInt?_eq_some_iff.1 hy⟩

/-- **A quotient of parts that fit words has a value**, which stands for the same number. -/
theorem exists_quotient? (hn : FitsWord n) (hfits : FitsWord d) (hd : 0 < d) :
    ∃ q : Rational, quotient? n d = some q.toValue ∧ q.toRat = n / d := by
  obtain ⟨x, hx⟩ := exists_word_iff.2 hn
  obtain ⟨y, hy⟩ := exists_word_iff.2 hfits
  obtain ⟨q, hq, hnumer, hdenom⟩ := exists_ofInts? hn hfits hd
  have hx' := wordOfInt?_eq_some_iff.1 hx
  have hy' := wordOfInt?_eq_some_iff.1 hy
  refine ⟨q, ?_, ?_⟩
  · rw [quotient?, hx, hy]
    simp only [Option.bind_eq_bind, Option.bind_some, hx', hy', hq]
    rfl
  · rw [toRat, hnumer, hdenom, reduced_div hd.ne']

/-- Without a word for one of its parts, a quotient has no value. -/
theorem quotient?_eq_none (h : ¬ (FitsWord n ∧ FitsWord d)) : quotient? n d = none := by
  refine Option.eq_none_iff_forall_not_mem.2 fun v hv => h ?_
  obtain ⟨x, hx, hv⟩ := Option.bind_eq_some_iff.1 hv
  obtain ⟨y, hy, -⟩ := Option.bind_eq_some_iff.1 hv
  exact ⟨exists_word_iff.1 ⟨x, hx⟩, exists_word_iff.1 ⟨y, hy⟩⟩

end Rational

/-! ## Values -/

/-- An integer or a fraction, as a fraction. -/
def Value.fraction? : Value → Option Rational
  | integer n => some (.ofInt64 n)
  | rational q => some q
  | _ => none

theorem Rational.fraction?_toValue (q : Rational) : q.toValue.fraction? = some q := by
  unfold toValue
  split
  · next h =>
    obtain ⟨n, d, _, _⟩ := q
    cases h
    rfl
  · rfl

/-! ## Operations -/

namespace Rational

/-- The numbers that are computed on the way to a sum fit words. -/
structure SumFits (x y : Rational) : Prop where
  left : FitsWord (x.numer.toInt * y.denom.toInt)
  right : FitsWord (y.numer.toInt * x.denom.toInt)
  numer : FitsWord (x.numer.toInt * y.denom.toInt + y.numer.toInt * x.denom.toInt)
  denom : FitsWord (x.denom.toInt * y.denom.toInt)

/-- The numbers that are computed on the way to a product fit words. -/
structure ProductFits (x y : Rational) : Prop where
  numer : FitsWord (x.numer.toInt * y.numer.toInt)
  denom : FitsWord (x.denom.toInt * y.denom.toInt)

variable {x y : Rational}

theorem SumFits.symm (h : SumFits x y) : SumFits y x where
  left := h.right
  right := h.left
  numer := Int.add_comm .. ▸ h.numer
  denom := Int.mul_comm .. ▸ h.denom

theorem ProductFits.symm (h : ProductFits x y) : ProductFits y x where
  numer := Int.mul_comm .. ▸ h.numer
  denom := Int.mul_comm .. ▸ h.denom

/-- Over one, only the sum itself has to fit. -/
theorem sumFits_ofInt64 {m n : Int64} :
    (ofInt64 m).SumFits (ofInt64 n) ↔ FitsWord (m.toInt + n.toInt) := by
  have hone : (1 : Int64).toInt = 1 := rfl
  constructor
  · intro h
    simpa only [ofInt64, hone, Int.mul_one] using h.numer
  · intro h
    constructor <;> simp only [ofInt64, hone, Int.mul_one]
    · exact fitsWord_toInt m
    · exact fitsWord_toInt n
    · exact h
    · decide

/-- Over one, only the product itself has to fit. -/
theorem productFits_ofInt64 {m n : Int64} :
    (ofInt64 m).ProductFits (ofInt64 n) ↔ FitsWord (m.toInt * n.toInt) := by
  constructor
  · exact fun h => h.numer
  · exact fun h => ⟨h, fitsWord_toInt 1⟩

theorem denom_mul_pos (x y : Rational) : 0 < x.denom.toInt * y.denom.toInt :=
  Int.mul_pos x.denom_pos y.denom_pos

end Rational

namespace Arith

variable {a b : Value} {x y : Rational}

/-- An integer over one is the integer. -/
theorem quotient?_one (n : Int) : Rational.quotient? n 1 = (wordOfInt? n).map .integer := by
  by_cases hn : FitsWord n
  · obtain ⟨q, hq, hnumber⟩ := Rational.exists_quotient? hn (by decide) Int.one_pos
    obtain ⟨x, hx⟩ := exists_word_iff.2 hn
    have hsame : q.toRat = (Rational.ofInt64 x).toRat := by
      rw [hnumber, Rational.toRat_ofInt64, wordOfInt?_eq_some_iff.1 hx, Int.cast_one, div_one]
    rw [hq, hx, Rational.toRat_injective hsame]
    rfl
  · have hnone : wordOfInt? n = none := by
      rw [Option.eq_none_iff_forall_ne_some]
      exact fun x hx => hn (exists_word_iff.1 ⟨x, hx⟩)
    rw [Rational.quotient?_eq_none fun h => hn h.1, hnone]
    rfl

/-- An operation that treats integers as fractions over one treats all operands as fractions. -/
theorem apply_eq_onRationals {op : Arith} (hop : op.isDivision = false)
    (hintegers : ∀ m n : Int64, op.apply (.integer m) (.integer n) =
      op.onRationals (.ofInt64 m) (.ofInt64 n))
    (ha : a.fraction? = some x) (hb : b.fraction? = some y) : op.apply a b = op.onRationals x y := by
  cases a <;> cases ha
  case integer m =>
    cases b <;> cases hb
    case integer n => exact hintegers m n
    case rational => simp [apply, hop]
  case rational =>
    cases b <;> cases hb
    all_goals simp [apply, hop]

/-- Over one, a sum or a difference is the one of the integers. -/
theorem sumOfFractions?_ofInt64 (combine : Int → Int → Int) (m n : Int64) :
    sumOfFractions? combine (.ofInt64 m) (.ofInt64 n) =
      (wordOfInt? (combine m.toInt n.toInt)).map .integer := by
  simp [sumOfFractions?, Rational.ofInt64, wordOfInt?_toInt, quotient?_one]

theorem add_apply (ha : a.fraction? = some x) (hb : b.fraction? = some y) :
    add.apply a b = add.onRationals x y := by
  refine apply_eq_onRationals rfl (fun m n => ?_) ha hb
  rw [onRationals, sumOfFractions?_ofInt64]
  rfl

theorem sub_apply (ha : a.fraction? = some x) (hb : b.fraction? = some y) :
    sub.apply a b = sub.onRationals x y := by
  refine apply_eq_onRationals rfl (fun m n => ?_) ha hb
  rw [onRationals, sumOfFractions?_ofInt64]
  rfl

theorem mul_apply (ha : a.fraction? = some x) (hb : b.fraction? = some y) :
    mul.apply a b = mul.onRationals x y := by
  refine apply_eq_onRationals rfl (fun m n => ?_) ha hb
  have hproduct : Rational.quotient? ((Rational.ofInt64 m).numer.toInt * (Rational.ofInt64 n).numer.toInt)
      ((Rational.ofInt64 m).denom.toInt * (Rational.ofInt64 n).denom.toInt) =
        (wordOfInt? (m.toInt * n.toInt)).map .integer := by
    simp [Rational.ofInt64, quotient?_one]
  rw [onRationals, hproduct]
  rfl

/-- **A sum is exact** where its parts fit words. -/
theorem add_of_fits (ha : a.fraction? = some x) (hb : b.fraction? = some y) (h : x.SumFits y) :
    ∃ q : Rational, add.apply a b = .ok q.toValue ∧ q.toRat = x.toRat + y.toRat := by
  obtain ⟨l, hl⟩ := exists_word_iff.2 h.left
  obtain ⟨r, hr⟩ := exists_word_iff.2 h.right
  obtain ⟨q, hq, hnumber⟩ := Rational.exists_quotient? h.numer h.denom (x.denom_mul_pos y)
  refine ⟨q, ?_, ?_⟩
  · have hsum : sumOfFractions? (· + ·) x y = some q.toValue := by
      simp only [sumOfFractions?, Option.bind_eq_bind, hl, hr, Option.bind_some,
        wordOfInt?_eq_some_iff.1 hl, wordOfInt?_eq_some_iff.1 hr, hq]
    rw [add_apply ha hb, onRationals, hsum]
  · rw [hnumber, Rational.toRat, Rational.toRat, div_add_div _ _ x.denom_ne_zero y.denom_ne_zero]
    push_cast
    ring

/-- A sum has no value where one of its parts fits no word. -/
theorem add_of_not_fits (ha : a.fraction? = some x) (hb : b.fraction? = some y)
    (h : ¬ x.SumFits y) : add.apply a b = .error (.overflow "add") := by
  have hnone : sumOfFractions? (· + ·) x y = none := by
    refine Option.eq_none_iff_forall_not_mem.2 fun v hv => h ?_
    obtain ⟨l, hl, hv⟩ := Option.bind_eq_some_iff.1 hv
    obtain ⟨r, hr, hv⟩ := Option.bind_eq_some_iff.1 hv
    rw [wordOfInt?_eq_some_iff.1 hl, wordOfInt?_eq_some_iff.1 hr] at hv
    by_contra hparts
    refine absurd hv ?_
    rw [Rational.quotient?_eq_none]
    · simp
    · exact fun hfits => hparts
        ⟨exists_word_iff.1 ⟨l, hl⟩, exists_word_iff.1 ⟨r, hr⟩, hfits.1, hfits.2⟩
  rw [add_apply ha hb, onRationals, hnone]
  rfl

/-- **A product is exact** where its parts fit words. -/
theorem mul_of_fits (ha : a.fraction? = some x) (hb : b.fraction? = some y)
    (h : x.ProductFits y) :
    ∃ q : Rational, mul.apply a b = .ok q.toValue ∧ q.toRat = x.toRat * y.toRat := by
  obtain ⟨q, hq, hnumber⟩ := Rational.exists_quotient? h.numer h.denom (x.denom_mul_pos y)
  refine ⟨q, ?_, ?_⟩
  · rw [mul_apply ha hb, onRationals, hq]
  · rw [hnumber, Rational.toRat, Rational.toRat, div_mul_div_comm, Int.cast_mul, Int.cast_mul]

/-- A product has no value where one of its parts fits no word. -/
theorem mul_of_not_fits (ha : a.fraction? = some x) (hb : b.fraction? = some y)
    (h : ¬ x.ProductFits y) : mul.apply a b = .error (.overflow "mul") := by
  rw [mul_apply ha hb, onRationals,
    Rational.quotient?_eq_none fun hparts => h ⟨hparts.1, hparts.2⟩]
  rfl

end Arith

end BlockLang
