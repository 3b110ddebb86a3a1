import BlockLang.Proofs.Value.Exactness
import BlockLang.Value.Order
import Mathlib.Algebra.Order.Field.Rat
import Mathlib.RingTheory.Int.Basic

/-!
# Comparing integers and fractions

Integers and fractions are compared without dividing: by two products of a numerator and the other denominator.
A product of two words fits 128 bits, so the products can be formed there (`wide`).

**Theorem (`Value.compare?_exactly`).** The order of two integers or fractions is the order of the numbers that
they stand for, whatever their kinds. So it is a total order in which just equal numbers are equal. A
difference, where there is one, compares with zero as its operands compare with each other.

Everything follows from the first part (`Value.compare?_eq`), because a fraction and its number determine each
other.
-/

namespace BlockLang

variable {a b c : Value} {x y z : Rational}

/-! ## Products of words -/

/-- The word in 128 bits. -/
def wide (n : Int64) : BitVec 128 := n.toBitVec.signExtend 128

theorem toInt_wide (n : Int64) : (wide n).toInt = n.toInt := by
  rw [wide, BitVec.toInt_signExtend_of_le (by decide), Int64.toInt_toBitVec]

/-- **A product of two words fits 128 bits.** -/
theorem smulOverflow_wide (m n : Int64) : (wide m).smulOverflow (wide n) = false := by
  have hm : m.toInt.natAbs ≤ 2 ^ 63 := by
    have := fitsWord_toInt m
    unfold FitsWord wordLimit at this
    omega
  have hn : n.toInt.natAbs ≤ 2 ^ 63 := by
    have := fitsWord_toInt n
    unfold FitsWord wordLimit at this
    omega
  have hproduct : (m.toInt * n.toInt).natAbs ≤ 2 ^ 63 * 2 ^ 63 := by
    rw [Int.natAbs_mul]
    exact Nat.mul_le_mul hm hn
  simp only [BitVec.smulOverflow, toInt_wide, Bool.or_eq_false_iff, decide_eq_false_iff_not]
  omega

theorem toInt_wide_mul (m n : Int64) : (wide m * wide n).toInt = m.toInt * n.toInt := by
  rw [BitVec.toInt_mul_of_not_smulOverflow (by simp [smulOverflow_wide]), toInt_wide, toInt_wide]

namespace Rational

/-! ## Cross products -/

/-- Fractions are ordered by their cross products. -/
theorem toRat_lt_iff : x.toRat < y.toRat ↔
    x.numer.toInt * y.denom.toInt < y.numer.toInt * x.denom.toInt := by
  have hx : (0 : ℚ) < x.denom.toInt := Int.cast_pos.2 x.denom_pos
  have hy : (0 : ℚ) < y.denom.toInt := Int.cast_pos.2 y.denom_pos
  rw [toRat, toRat, div_lt_div_iff₀ hx hy]
  exact_mod_cast Iff.rfl

theorem compare_cross (x y : Rational) :
    compare (x.numer.toInt * y.denom.toInt) (y.numer.toInt * x.denom.toInt) =
      compare x.toRat y.toRat := by
  rcases lt_trichotomy x.toRat y.toRat with h | h | h
  · rw [compare_lt_iff_lt.2 h, compare_lt_iff_lt.2 (toRat_lt_iff.1 h)]
  · obtain rfl := toRat_injective h
    rw [compare_eq_iff_eq.2 rfl, compare_eq_iff_eq.2 rfl]
  · rw [compare_gt_iff_gt.2 h, compare_gt_iff_gt.2 (toRat_lt_iff.1 h)]

end Rational

/-- Two numbers are ordered as their difference and zero are. -/
theorem compare_sub_zero (p q : ℚ) : compare (p - q) 0 = compare p q := by
  rcases lt_trichotomy p q with h | h | h
  · rw [compare_lt_iff_lt.2 h, compare_lt_iff_lt.2 (sub_neg.2 h)]
  · rw [compare_eq_iff_eq.2 h, compare_eq_iff_eq.2 (sub_eq_zero.2 h)]
  · rw [compare_gt_iff_gt.2 h, compare_gt_iff_gt.2 (sub_pos.2 h)]

namespace Value

/-! ## Order -/

/-- Whatever their kinds, numbers are compared by their cross products. -/
theorem compare?_eq_cross (ha : a.fraction? = some x) (hb : b.fraction? = some y) :
    compare? a b = some (compare (x.numer.toInt * y.denom.toInt) (y.numer.toInt * x.denom.toInt)) := by
  cases a <;> cases ha <;> cases b <;> cases hb <;> simp [compare?, Rational.ofInt64]

/-- **The order of values is the order of their numbers.** -/
theorem compare?_eq (ha : a.fraction? = some x) (hb : b.fraction? = some y) :
    compare? a b = some (compare x.toRat y.toRat) := by
  rw [compare?_eq_cross ha hb, Rational.compare_cross]

/-- The first value has an order with the second one, and is not greater. -/
def AtMost (a b : Value) : Prop := ∃ o, compare? a b = some o ∧ o.isLE

theorem atMost_iff (ha : a.fraction? = some x) (hb : b.fraction? = some y) :
    AtMost a b ↔ x.toRat ≤ y.toRat := by
  rw [AtMost, compare?_eq ha hb, ← compare_le_iff_le]
  cases compare x.toRat y.toRat <;> simp

theorem compare?_eq_eq_iff (ha : a.fraction? = some x) (hb : b.fraction? = some y) :
    compare? a b = some .eq ↔ x = y := by
  rw [compare?_eq ha hb, Option.some_inj, compare_eq_iff_eq]
  exact ⟨Rational.toRat_injective, congrArg Rational.toRat⟩

/-- A difference stands for the difference of the numbers. -/
theorem sub_apply_exactly (ha : a.fraction? = some x) (hb : b.fraction? = some y) {d : Value}
    (h : Arith.sub.apply a b = .ok d) :
    ∃ q : Rational, d.fraction? = some q ∧ q.toRat = x.toRat - y.toRat := by
  rw [Arith.sub_apply ha hb] at h
  obtain ⟨q, rfl, hq⟩ := Arith.onRationals_exactly (.inr (.inl rfl)) h
  exact ⟨q, q.fraction?_toValue, (Option.some.inj hq).symm⟩

/-- **Comparing is exact.** The products that numbers are compared by do not overflow 128 bits, and the order
is that of the numbers that the values stand for. So it is total, antisymmetric and transitive across the kinds,
equality is that of the numbers, and a difference compares with zero as its operands do with each other. -/
theorem compare?_exactly (ha : a.fraction? = some x) (hb : b.fraction? = some y)
    (hc : c.fraction? = some z) :
    ((wide x.numer).smulOverflow (wide y.denom) = false ∧
      (wide y.numer).smulOverflow (wide x.denom) = false ∧
      compare? a b =
        some (compare (wide x.numer * wide y.denom).toInt (wide y.numer * wide x.denom).toInt)) ∧
    compare? a b = some (compare x.toRat y.toRat) ∧
    (compare? a b = some .eq ↔ x.toRat = y.toRat) ∧
    compare? b a = (compare? a b).map Ordering.swap ∧
    (AtMost a b ∨ AtMost b a) ∧
    (AtMost a b → AtMost b a → compare? a b = some .eq) ∧
    (AtMost a b → AtMost b c → AtMost a c) ∧
    ∀ d, Arith.sub.apply a b = .ok d → compare? a b = compare? d (.integer 0) := by
  refine ⟨⟨smulOverflow_wide .., smulOverflow_wide .., ?_⟩, compare?_eq ha hb, ?_, ?_, ?_, ?_, ?_, ?_⟩
  · rw [toInt_wide_mul, toInt_wide_mul, compare?_eq_cross ha hb]
  · rw [compare?_eq ha hb, Option.some_inj, compare_eq_iff_eq]
  · rw [compare?_eq ha hb, compare?_eq hb ha, Option.map_some, ← Std.OrientedCmp.eq_swap]
  · rw [atMost_iff ha hb, atMost_iff hb ha]
    exact le_total _ _
  · rw [atMost_iff ha hb, atMost_iff hb ha, compare?_eq ha hb, Option.some_inj, compare_eq_iff_eq]
    exact le_antisymm
  · rw [atMost_iff ha hb, atMost_iff hb hc, atMost_iff ha hc]
    exact le_trans
  · intro d hd
    obtain ⟨q, hq, hnumber⟩ := sub_apply_exactly ha hb hd
    have hzero : (Value.integer 0).fraction? = some (.ofInt64 0) := rfl
    rw [compare?_eq ha hb, compare?_eq hq hzero, hnumber, Rational.toRat_ofInt64, Int64.toInt_zero,
      Int.cast_zero, compare_sub_zero]

/-- A fraction just above one: the cross products are as large as words get, and the difference still fits. -/
theorem compare?_exactly_aboveOne :
    let above : Rational := ⟨Int64.maxValue, Int64.maxValue - 1, by decide, by decide +kernel⟩
    let difference : Rational := ⟨1, Int64.maxValue - 1, by decide, by decide +kernel⟩
    (rational above).fraction? = some above ∧ (integer 1).fraction? = some (.ofInt64 1) ∧
      (rational difference).fraction? = some difference ∧
      Arith.sub.apply (rational above) (integer 1) = .ok (rational difference) ∧
      compare? (rational above) (integer 1) = compare? (rational difference) (integer 0) ∧
      compare? (integer 1) (rational above) = some .lt := by
  intro above difference
  have hsub : Arith.sub.apply (rational above) (integer 1) = .ok (rational difference) := by
    cbv
  obtain ⟨-, -, -, hswap, -, -, -, hdifference⟩ :=
    compare?_exactly (a := rational above) (b := integer 1) (c := rational difference) rfl rfl rfl
  have hgreater : compare? (rational above) (integer 1) = some .gt := by decide
  refine ⟨rfl, rfl, rfl, hsub, hdifference _ hsub, ?_⟩
  rw [hswap, hgreater]
  rfl

end Value

end BlockLang
