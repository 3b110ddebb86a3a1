import BlockLang.Proofs.Value.Overflow

/-!
# Results are exact

Sums, differences, products and the quotients of fractions have an exact result, as a number
(`Arith.exactNumber?`). An operation that answers answers with that number: no product wraps on the way, no
sign is lost when a denominator turns positive, and no digit when the result is reduced.

**Theorem (`Arith.apply_exactly`).** The value that an operation answers stands for the exact result. If an
operand was a fraction, the value has the one form that its number determines (`Value.InLowestTerms`): an
integer if the number is whole, and otherwise a fraction in lowest terms over more than one. Where `div`
and `mod` of two integers both answer, the quotient times the divisor and the remainder make up the
dividend, and the remainder is smaller than the divisor and has the sign of the dividend, or is zero.

When an operation answers is another matter: `Rational.SumFits` and `Rational.ProductFits` say it for
fractions, and `Arith.Overflows` for integers.
-/

namespace BlockLang

/-! ## The number of a value -/

/-- The value is an integer or a fraction, and is the number. -/
def Value.StandsFor (v : Value) (r : ℚ) : Prop := ∃ q : Rational, v.fraction? = some q ∧ q.toRat = r

/-- The value is the number in the form that a result on fractions has. -/
inductive Value.InLowestTerms (r : ℚ) : Value → Prop
  | whole (n : Int64) (number : r = n.toInt) : InLowestTerms r (.integer n)
  | broken (q : Rational) (number : r = q.toRat) (notWhole : ∀ n : Int, r ≠ n)
    (proper : 1 < q.denom.toInt) (coprime : q.numer.toInt.gcd q.denom.toInt = 1) :
    InLowestTerms r (.rational q)

/-- The value is a fraction, and no integer. -/
def Value.IsRational (v : Value) : Prop := ∃ q, v = .rational q

namespace Rational

variable {q : Rational} {r : ℚ}

theorem standsFor_toValue (h : q.toRat = r) : q.toValue.StandsFor r :=
  ⟨q, q.fraction?_toValue, h⟩

/-- A fraction that is a whole number is over one: its denominator divides its numerator. -/
theorem denom_eq_one_of_whole {n : Int} (h : q.toRat = n) : q.denom.toInt = 1 := by
  have hnumer : q.numer.toInt = n * q.denom.toInt := by
    have hproduct : (q.numer.toInt : ℚ) = n * q.denom.toInt := (div_eq_iff q.denom_ne_zero).1 h
    exact_mod_cast hproduct
  have hgcd : (q.numer.toInt.gcd q.denom.toInt : Int) = q.denom.toInt :=
    Int.gcd_eq_right q.denom_pos.le ⟨n, hnumer.trans (Int.mul_comm ..)⟩
  rw [← hgcd, q.coprime]
  rfl

theorem inLowestTerms_toValue (h : q.toRat = r) : q.toValue.InLowestTerms r := by
  subst h
  unfold toValue
  split
  · next hone => exact .whole _ (by rw [toRat, hone]; exact div_one _)
  · next hone =>
    have hdenom : q.denom.toInt ≠ 1 := fun h => hone (Int64.toInt_inj.1 h)
    have hpos := q.denom_pos
    exact .broken q rfl (fun n hn => hdenom (denom_eq_one_of_whole hn)) (by omega) q.coprime

/-! ## Quotients and sums -/

variable {n d : Int} {v : Value}

theorem of_ofInts? (h : ofInts? n d = some q) : d ≠ 0 ∧ q.toRat = n / d := by
  unfold ofInts? at h
  split at h
  · cases h
  · next hd =>
    obtain ⟨x, hx, h⟩ := Option.pbind_eq_some_iff.1 h
    obtain ⟨y, hy, h⟩ := Option.pbind_eq_some_iff.1 h
    cases h
    refine ⟨hd, ?_⟩
    rw [toRat, wordOfInt?_eq_some_iff.1 hx, wordOfInt?_eq_some_iff.1 hy, reduced_div hd]

/-- A quotient with a value is the exact one. -/
theorem of_quotient? (h : quotient? n d = some v) :
    d ≠ 0 ∧ ∃ q : Rational, v = q.toValue ∧ q.toRat = n / d := by
  obtain ⟨x, hx, h⟩ := Option.bind_eq_some_iff.1 h
  obtain ⟨y, hy, h⟩ := Option.bind_eq_some_iff.1 h
  obtain ⟨q, hq, h⟩ := Option.bind_eq_some_iff.1 h
  cases h
  rw [wordOfInt?_eq_some_iff.1 hx, wordOfInt?_eq_some_iff.1 hy] at hq
  exact ⟨(of_ofInts? hq).1, q, rfl, (of_ofInts? hq).2⟩

end Rational

namespace Arith

variable {op : Arith} {a b v : Value} {x y : Rational} {r : ℚ}

/-- A sum or a difference with a value is the exact one. -/
theorem of_sumOfFractions? {combine : Int → Int → Int} (h : sumOfFractions? combine x y = some v) :
    ∃ q : Rational, v = q.toValue ∧
      q.toRat = combine (x.numer.toInt * y.denom.toInt) (y.numer.toInt * x.denom.toInt) /
        (x.denom.toInt * y.denom.toInt) := by
  obtain ⟨left, hleft, h⟩ := Option.bind_eq_some_iff.1 h
  obtain ⟨right, hright, h⟩ := Option.bind_eq_some_iff.1 h
  rw [wordOfInt?_eq_some_iff.1 hleft, wordOfInt?_eq_some_iff.1 hright] at h
  obtain ⟨-, q, hv, hq⟩ := Rational.of_quotient? h
  exact ⟨q, hv, by rw [hq, Int.cast_mul]⟩

/-! ## Operations -/

/-- The exact result on two numbers, for the operations that have one on all fractions. -/
def exactNumber? (op : Arith) (x y : ℚ) : Option ℚ :=
  match op with
  | add => some (x + y)
  | sub => some (x - y)
  | mul => some (x * y)
  | div => if y = 0 then none else some (x / y)
  | fdiv | mod | pow => none

theorem eq_some_of_answer {w : Option Value}
    (h : (match w with | some v => .ok v | none => .error (.overflow op.name)) =
      (.ok v : Except RuntimeError Value)) : w = some v := by
  cases w <;> cases h
  rfl

/-- On fractions, an answer is the exact result. -/
theorem onRationals_exactly (hop : op = add ∨ op = sub ∨ op = mul ∨ op = div)
    (h : op.onRationals x y = .ok v) :
    ∃ q : Rational, v = q.toValue ∧ op.exactNumber? x.toRat y.toRat = some q.toRat := by
  have hx := x.denom_ne_zero
  have hy := y.denom_ne_zero
  obtain rfl | rfl | rfl | rfl := hop
  · obtain ⟨q, hv, hq⟩ := of_sumOfFractions? (eq_some_of_answer h)
    refine ⟨q, hv, congrArg some ?_⟩
    rw [hq, Rational.toRat, Rational.toRat, div_add_div _ _ hx hy]
    push_cast
    ring
  · obtain ⟨q, hv, hq⟩ := of_sumOfFractions? (eq_some_of_answer h)
    refine ⟨q, hv, congrArg some ?_⟩
    rw [hq, Rational.toRat, Rational.toRat, div_sub_div _ _ hx hy]
    push_cast
    ring
  · obtain ⟨-, q, hv, hq⟩ := Rational.of_quotient? (eq_some_of_answer h)
    refine ⟨q, hv, congrArg some ?_⟩
    rw [hq, Rational.toRat, Rational.toRat, div_mul_div_comm, Int.cast_mul, Int.cast_mul]
  · simp only [onRationals] at h
    split at h
    · cases h
    · next hzero =>
      obtain ⟨hdivisor, q, hv, hq⟩ := Rational.of_quotient? (eq_some_of_answer h)
      have hnumer : (y.numer.toInt : ℚ) ≠ 0 := Int.cast_ne_zero.2 (Int.mul_ne_zero_iff.1 hdivisor).2
      have hdivisor : y.toRat ≠ 0 := div_ne_zero hnumer hy
      refine ⟨q, hv, ?_⟩
      rw [exactNumber?, if_neg hdivisor, hq, Rational.toRat, Rational.toRat, div_div_div_eq, Int.cast_mul,
        Int.cast_mul]

/-- The operation is exact on fractions, and on these operands it treats integers as such. -/
def IsExact (op : Arith) (a b : Value) : Prop :=
  op = add ∨ op = sub ∨ op = mul ∨ (op = div ∧ (a.IsRational ∨ b.IsRational))

/-- A quotient with a fraction in it is one of fractions. -/
theorem onRationals_of_div_apply (ha : a.fraction? = some x) (hb : b.fraction? = some y)
    (hrational : a.IsRational ∨ b.IsRational) (h : div.apply a b = .ok v) :
    div.onRationals x y = .ok v := by
  unfold apply at h
  split at h
  · cases h
  · cases a <;> cases ha <;> cases b <;> cases hb
    · obtain ⟨_, ⟨⟩⟩ | ⟨_, ⟨⟩⟩ := hrational
    all_goals exact h

theorem onRationals_of_apply (ha : a.fraction? = some x) (hb : b.fraction? = some y)
    (hop : op.IsExact a b) (h : op.apply a b = .ok v) : op.onRationals x y = .ok v := by
  obtain rfl | rfl | rfl | ⟨rfl, hrational⟩ := hop
  · exact add_apply ha hb ▸ h
  · exact sub_apply ha hb ▸ h
  · exact mul_apply ha hb ▸ h
  · exact onRationals_of_div_apply ha hb hrational h

/-! ## Quotient and remainder -/

/-- A quotient or a remainder of integers that is answered is the exact one, of a divisor that is not
zero. -/
theorem of_apply_integers {m n : Int64} (hop : op = div ∨ op = mod)
    (h : op.apply (.integer m) (.integer n) = .ok v) :
    n.toInt ≠ 0 ∧ ∃ z : Int64, v = .integer z ∧ op.exactInt? m.toInt n.toInt = some z.toInt := by
  have hdivisor : n.toInt ≠ 0 := by
    intro hzero
    obtain rfl : n = 0 := Int64.toInt_inj.1 hzero
    obtain rfl | rfl := hop <;> cases h
  obtain ⟨r, hr⟩ : ∃ r, op.exactInt? m.toInt n.toInt = some r := by
    obtain rfl | rfl := hop
    · exact ⟨_, if_neg hdivisor⟩
    · exact ⟨_, if_neg hdivisor⟩
  refine ⟨hdivisor, ?_⟩
  rw [apply_integers hr, onIntegers?_eq hr] at h
  by_cases hlarge : op.Overflows m.toInt n.toInt r
  · rw [if_pos hlarge] at h
    cases h
  · obtain ⟨z, hz⟩ := exists_word_iff.2 (not_not.1 fun hnot => hlarge (.inl hnot))
    rw [if_neg hlarge, hz] at h
    cases h
    exact ⟨z, rfl, hr.trans (congrArg some (wordOfInt?_eq_some_iff.1 hz).symm)⟩

/-- A remainder of rounding toward zero is smaller than the divisor and has the sign of the dividend. -/
theorem tmod_of_ne_zero {m n : Int} (hn : n ≠ 0) :
    (m.tmod n).natAbs < n.natAbs ∧ (m.tmod n = 0 ∨ (m.tmod n).sign = m.sign) := by
  constructor
  · rw [Int.natAbs_tmod]
    exact Nat.mod_lt _ (Int.natAbs_pos.2 hn)
  · by_cases hdvd : n ∣ m
    · exact .inl (Int.tmod_eq_zero_of_dvd hdvd)
    · exact .inr (by rw [Int.sign_tmod, if_neg hdvd])

/-- **Answers are exact**: a sum, a difference, a product or a quotient with a fraction stands for the exact
result, in lowest terms if an operand was a fraction; and a quotient and a remainder of integers that are
both answered belong together. -/
theorem apply_exactly (ha : a.fraction? = some x) (hb : b.fraction? = some y) :
    (∀ op v, IsExact op a b → op.apply a b = .ok v →
      ∃ r, op.exactNumber? x.toRat y.toRat = some r ∧ v.StandsFor r ∧
        (a.IsRational ∨ b.IsRational → v.InLowestTerms r)) ∧
    (∀ m n q r, a = .integer m → b = .integer n → div.apply a b = .ok q → mod.apply a b = .ok r →
      ∃ quotient remainder : Int64, q = .integer quotient ∧ r = .integer remainder ∧
        m.toInt = quotient.toInt * n.toInt + remainder.toInt ∧
        remainder.toInt.natAbs < n.toInt.natAbs ∧
        (remainder.toInt = 0 ∨ remainder.toInt.sign = m.toInt.sign)) := by
  constructor
  · intro op v hop h
    have hfraction : op = add ∨ op = sub ∨ op = mul ∨ op = div :=
      hop.imp_right (.imp_right (.imp_right And.left))
    obtain ⟨q, rfl, hq⟩ := onRationals_exactly hfraction (onRationals_of_apply ha hb hop h)
    exact ⟨_, hq, Rational.standsFor_toValue rfl, fun _ => Rational.inLowestTerms_toValue rfl⟩
  · rintro m n q r rfl rfl hq hr
    obtain ⟨hdivisor, quotient, rfl, hquotient⟩ := of_apply_integers (.inl rfl) hq
    obtain ⟨-, remainder, rfl, hremainder⟩ := of_apply_integers (.inr rfl) hr
    have hquotient := Option.some.inj (Option.ite_none_left_eq_some.1 hquotient).2
    have hremainder := Option.some.inj (Option.ite_none_left_eq_some.1 hremainder).2
    refine ⟨quotient, remainder, rfl, rfl, ?_⟩
    rw [← hquotient, ← hremainder]
    exact ⟨(Int.tdiv_mul_add_tmod ..).symm, tmod_of_ne_zero hdivisor⟩

theorem apply_exactly_half_third :
    let half : Rational := ⟨1, 2, by decide, by decide⟩
    let third : Rational := ⟨1, 3, by decide, by decide⟩
    ∃ v, add.apply (.rational half) (.rational third) = .ok v ∧
      v.InLowestTerms (half.toRat + third.toRat) := by
  intro half third
  have hfits : half.SumFits third := ⟨by decide, by decide, by decide, by decide⟩
  obtain ⟨q, h, -⟩ := add_of_fits (a := .rational half) (b := .rational third) rfl rfl hfits
  obtain ⟨r, ⟨⟩, -, hr⟩ := (apply_exactly rfl rfl).1 add _ (.inl rfl) h
  exact ⟨_, h, hr (.inl ⟨half, rfl⟩)⟩

end Arith

end BlockLang
