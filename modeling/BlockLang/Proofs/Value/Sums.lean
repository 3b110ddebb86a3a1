import BlockLang.Arith

/-!
# Sums commute

**Theorem (`Arith.add_apply_comm`).** Adding a number that is not a NaN to a value gives the same result
as adding the value to the number, also when there is none: the error is the same.

Two NaNs do not commute, because the first one comes through. Two values that are no numbers do not
either, because the first one is reported.
-/

namespace BlockLang

open Float.Model

/-! ## Floating point -/

theorem unpackedAdd_comm (format : Format) (a b : UnpackedFloat) :
    a.add format b = b.add format a := by
  cases a with
  | notANumber => cases b <;> rfl
  | infinity s =>
    cases b with
    | infinity s' => cases s <;> cases s' <;> rfl
    | _ => rfl
  | zero s =>
    cases b with
    | zero s' => cases s <;> cases s' <;> rfl
    | _ => rfl
  | finite s m e hm =>
    cases b with
    | finite s' m' e' hm' =>
      unfold UnpackedFloat.add
      dsimp only
      rw [Int.min_comm e e', Int.add_comm]
    | _ => rfl

namespace Binary64

theorem add_comm {x : Binary64} (hx : x.isNaN = false) (y : Binary64) : x.add y = y.add x := by
  have hsum : x.toFloat + y.toFloat = y.toFloat + x.toFloat := by
    change Float.ofModel (pack _) = Float.ofModel (pack _)
    rw [unpackedAdd_comm]
  unfold add lift₂
  simp only [hsum, hx, Bool.false_eq_true, if_false]

theorem isNaN_ofInt_one : (ofInt 1).isNaN = false := by
  decide +kernel

end Binary64

/-! ## Fractions -/

theorem Arith.sumOfFractions_comm (x y : Rational) :
    sumOfFractions? (· + ·) x y = sumOfFractions? (· + ·) y x := by
  unfold sumOfFractions?
  simp only [Option.bind_eq_bind]
  cases wordOfInt? (x.numer.toInt * y.denom.toInt) with
  | none => cases wordOfInt? (y.numer.toInt * x.denom.toInt) <;> simp only [Option.bind]
  | some left =>
    cases wordOfInt? (y.numer.toInt * x.denom.toInt) with
    | none => simp only [Option.bind]
    | some right =>
      simp only [Option.bind_some]
      rw [Int.add_comm, Int.mul_comm]

/-! ## All values -/

/-- **A number commutes with every value in a sum.** -/
theorem Arith.add_apply_comm {a : Value} (ha : a.isNumeric)
    (hnan : ∀ x, a.toBinary64? = some x → x.isNaN = false) (b : Value) :
    add.apply a b = add.apply b a := by
  have hfloats (x y : Binary64) (hx : a.toBinary64? = some x) :
      onFloats add x y = onFloats add y x := by
    unfold onFloats
    simp only [isDivision, Bool.false_and, Bool.false_eq_true, if_false]
    rw [Binary64.add_comm (hnan x hx) y]
  have hrationals (x y : Rational) : onRationals add x y = onRationals add y x := by
    unfold onRationals
    rw [sumOfFractions_comm x y]
  have hintegers (x y : Int64) : onIntegers? add x y = onIntegers? add y x := by
    unfold onIntegers?
    dsimp only
    rw [Int.add_comm]
  cases a with
  | integer n =>
    cases b with
    | integer k =>
      unfold apply
      simp only [hintegers n k]
      rfl
    | rational q => exact hrationals ..
    | floating x => exact hfloats _ _ rfl
    | _ => rfl
  | rational q =>
    cases b with
    | integer k => exact hrationals ..
    | rational q' => exact hrationals ..
    | floating x => exact hfloats _ _ rfl
    | _ => rfl
  | floating x =>
    cases b with
    | integer k => exact hfloats _ _ rfl
    | rational q => exact hfloats _ _ rfl
    | floating y => exact hfloats _ _ rfl
    | _ => rfl
  | _ => cases ha

end BlockLang
