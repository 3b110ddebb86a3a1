import BlockLang.Proofs.Value.Fractions

/-!
# Overflow of integers

An operation on two integers has an exact result, `Arith.exactInt?`: quotients are rounded toward zero,
and a divisor is not zero and an exponent not negative. The operation answers that result or reports an
overflow, and it reports one if no word holds the result. In two places it also does so for a result that
a word would hold (`Arith.Overflows`):

* A remainder counts as too large when the quotient is. That is the least word modulo `-1`, and no other
  remainder (`not_fitsWord_tdiv_iff`).
* A power counts as too large when its exponent has more than 32 bits. Among those only the powers of
  `0`, `1` and `-1` would fit a word.

**Theorem (`Arith.apply_integers_eq_overflow_iff`).** An operation on integers reports an overflow exactly
then, and otherwise answers the exact result.

Powers are computed without multiplying more than 63 times (`Arith.power?`): one of a base beyond `±1`
outgrows every word at exponent 64, and those of the other bases depend on the parity of the exponent only
(`power?_eq`).
-/

namespace BlockLang

/-! ## Quotients -/

variable {a b : Int}

/-- Every quotient of words is a word, but the one that is the negation of the least word. -/
theorem not_fitsWord_tdiv_iff (ha : FitsWord a) (hb : b ≠ 0) :
    ¬ FitsWord (a.tdiv b) ↔ a = -wordLimit ∧ b = -1 := by
  have hlimit : wordLimit = 0x8000000000000000 := rfl
  unfold FitsWord at *
  constructor
  · intro h
    have hsmaller : (a.tdiv b).natAbs ≤ a.natAbs := Int.natAbs_tdiv_le_natAbs a b
    have hleast : a = -wordLimit := by omega
    have hquotient : a.tdiv b = wordLimit := by omega
    refine ⟨hleast, ?_⟩
    have hproduct := Int.mul_tdiv_add_tmod a b
    have hrest : (a.tmod b).natAbs < b.natAbs := by
      rw [Int.natAbs_tmod]
      exact Nat.mod_lt _ (Int.natAbs_pos.2 hb)
    rw [hquotient, hlimit] at hproduct
    omega
  · rintro ⟨rfl, rfl⟩
    decide

/-- A remainder is no larger than the dividend. -/
theorem FitsWord.tmod (ha : FitsWord a) (hb : FitsWord b) (hzero : b ≠ 0) : FitsWord (a.tmod b) := by
  have hrest : (a.tmod b).natAbs = a.natAbs % b.natAbs := Int.natAbs_tmod a b
  have hsmaller : a.natAbs % b.natAbs ≤ a.natAbs := Nat.mod_le ..
  have hbound : a.natAbs % b.natAbs < b.natAbs := Nat.mod_lt _ (Int.natAbs_pos.2 hzero)
  unfold FitsWord at *
  omega

/-! ## Powers -/

/-- A base beyond `±1` outgrows every word at exponent 64. -/
theorem not_fitsWord_pow (ha : 2 ≤ a.natAbs) {n : Nat} (hn : 64 ≤ n) : ¬ FitsWord (a ^ n) := by
  have hlarge : 2 ^ 64 ≤ (a ^ n).natAbs := by
    rw [Int.natAbs_pow]
    calc 2 ^ 64 ≤ 2 ^ n := Nat.pow_le_pow_right (by decide) hn
      _ ≤ a.natAbs ^ n := Nat.pow_le_pow_left ha n
  unfold FitsWord wordLimit
  omega

/-- The powers of `0`, `1` and `-1` repeat from the first one on, every second time. -/
theorem pow_eq_pow_parity (ha : a = 0 ∨ a = 1 ∨ a = -1) (n : Nat) :
    a ^ n = a ^ (if n = 0 then 0 else 2 - n % 2) := by
  split
  · next hzero => rw [hzero]
  · next hpos =>
    obtain rfl | rfl | rfl := ha
    · rw [zero_pow hpos, zero_pow (by omega)]
    · rw [one_pow, one_pow]
    · obtain heven | hodd := Nat.even_or_odd n
      · rw [heven.neg_one_pow, Nat.even_iff.1 heven]
        rfl
      · rw [hodd.neg_one_pow, Nat.odd_iff.1 hodd]
        rfl

namespace Arith

/-- The shortcuts to a power do not show. -/
theorem power?_eq (x : Int64) (n : Nat) : power? x n = wordOfInt? (x.toInt ^ n) := by
  unfold power?
  dsimp only
  by_cases hunit : x.toInt = 0 ∨ x.toInt = 1 ∨ x.toInt = -1
  · rw [if_pos hunit, pow_eq_pow_parity hunit n]
    rfl
  · rw [if_neg hunit]
    by_cases hsmall : n < 64
    · rw [if_pos hsmall]
      rfl
    · rw [if_neg hsmall, eq_comm, Option.eq_none_iff_forall_ne_some]
      exact fun z hz => not_fitsWord_pow (by omega) (Nat.not_lt.1 hsmall) (exists_word_iff.1 ⟨z, hz⟩)

/-! ## Operations -/

/-- The exact result on two integers, for the operations that have an integer for one. -/
def exactInt? (op : Arith) (a b : Int) : Option Int :=
  match op with
  | add => some (a + b)
  | sub => some (a - b)
  | mul => some (a * b)
  | div => if b = 0 then none else some (a.tdiv b)
  | mod => if b = 0 then none else some (a.tmod b)
  | pow => if b < 0 then none else some (a ^ b.toNat)
  | fdiv => none

/-- The operation counts its exact result `r` as too large: no word holds it, or the quotient beside a
remainder is too large, or an exponent has more than 32 bits. -/
def Overflows (op : Arith) (a b r : Int) : Prop :=
  ¬ FitsWord r ∨ (op = mod ∧ a = -wordLimit ∧ b = -1) ∨ (op = pow ∧ 0x100000000 ≤ b)

instance (op : Arith) (a b r : Int) : Decidable (op.Overflows a b r) :=
  inferInstanceAs (Decidable (_ ∨ _))

variable {op : Arith} {x y : Int64} {r : Int}

theorem wordOfInt?_eq_none (h : ¬ FitsWord r) : wordOfInt? r = none :=
  Option.eq_none_iff_forall_ne_some.2 fun z hz => h (exists_word_iff.1 ⟨z, hz⟩)

/-- Apart from remainders and long exponents, only the result itself counts. -/
theorem fit_eq (hop : op ≠ mod) (hexponent : op = pow → b < 0x100000000) :
    (wordOfInt? r).map Value.integer =
      if op.Overflows a b r then none else (wordOfInt? r).map .integer := by
  split
  · next hlarge =>
    obtain hnot | ⟨rfl, -⟩ | ⟨rfl, hbits⟩ := hlarge
    · rw [wordOfInt?_eq_none hnot]
      rfl
    · exact absurd rfl hop
    · exact absurd hbits (Int.not_le.2 (hexponent rfl))
  · rfl

/-- The operation has an answer on integers exactly where it does not count the result as too large. -/
theorem onIntegers?_eq (h : op.exactInt? x.toInt y.toInt = some r) :
    op.onIntegers? x y =
      if op.Overflows x.toInt y.toInt r then none else (wordOfInt? r).map .integer := by
  cases op with
  | add | sub | mul =>
    obtain rfl := Option.some.inj h
    exact fit_eq nofun nofun
  | div =>
    obtain ⟨-, ⟨⟩⟩ := Option.ite_none_left_eq_some.1 h
    exact fit_eq nofun nofun
  | mod =>
    obtain ⟨hzero, ⟨⟩⟩ := Option.ite_none_left_eq_some.1 h
    have hremainder := (fitsWord_toInt x).tmod (fitsWord_toInt y) hzero
    have hquotient := not_fitsWord_tdiv_iff (fitsWord_toInt x) hzero
    simp only [onIntegers?]
    split
    · next hlarge =>
      have hleast : x.toInt = -wordLimit ∧ y.toInt = -1 := by
        obtain hnot | ⟨-, hleast⟩ | ⟨hop, -⟩ := hlarge
        · exact absurd hremainder hnot
        · exact hleast
        · cases hop
      rw [wordOfInt?_eq_none (hquotient.2 hleast)]
      rfl
    · next hsmall =>
      have hfits : FitsWord (x.toInt.tdiv y.toInt) :=
        by_contra fun hnot => hsmall (.inr (.inl ⟨rfl, hquotient.1 hnot⟩))
      obtain ⟨z, hz⟩ := exists_word_iff.2 hfits
      rw [hz]
      rfl
  | pow =>
    obtain ⟨hneg, ⟨⟩⟩ := Option.ite_none_left_eq_some.1 h
    simp only [onIntegers?, if_neg hneg]
    by_cases hbits : y.toInt < 0x100000000
    · rw [if_pos hbits, power?_eq]
      exact fit_eq nofun fun _ => hbits
    · rw [if_neg hbits, if_pos (.inr (.inr ⟨rfl, Int.not_lt.1 hbits⟩))]
  | fdiv => cases h

/-- Where there is an exact result, the divisor is not zero. -/
theorem apply_integers (h : op.exactInt? x.toInt y.toInt = some r) :
    op.apply (.integer x) (.integer y) = match op.onIntegers? x y with
      | some v => .ok v
      | none => .error (.overflow op.name) := by
  have hdivisor : (op.isDivision && isZeroDivisor (.integer y)) = false := by
    rw [Bool.and_eq_false_iff, or_iff_not_imp_left]
    intro hop
    have hzero : y ≠ 0 := by
      rintro rfl
      cases op <;> first | exact absurd rfl hop | cases h
    simpa [isZeroDivisor] using hzero
  rw [apply, hdivisor]
  rfl

/-- **Overflow of integers is exact**: an operation that has an exact result on two integers reports an
overflow exactly if it counts the result as too large, and otherwise answers the result. -/
theorem apply_integers_eq_overflow_iff (h : op.exactInt? x.toInt y.toInt = some r) :
    (op.apply (.integer x) (.integer y) = .error (.overflow op.name) ↔
      op.Overflows x.toInt y.toInt r) ∧
    (¬ op.Overflows x.toInt y.toInt r →
      ∃ z : Int64, z.toInt = r ∧ op.apply (.integer x) (.integer y) = .ok (.integer z)) := by
  rw [apply_integers h, onIntegers?_eq h]
  by_cases hlarge : op.Overflows x.toInt y.toInt r
  · simp [hlarge]
  · obtain ⟨z, hz⟩ := exists_word_iff.2 (not_not.1 fun hnot => hlarge (.inl hnot))
    simp [hlarge, hz, wordOfInt?_eq_some_iff.1 hz]

theorem apply_integers_eq_overflow_iff_remainder :
    exactInt? mod (7 : Int64).toInt (-3 : Int64).toInt = some 1 ∧
      ∃ z : Int64, z.toInt = 1 ∧ mod.apply (.integer 7) (.integer (-3)) = .ok (.integer z) := by
  have h : exactInt? mod (7 : Int64).toInt (-3 : Int64).toInt = some 1 := by decide
  exact ⟨h, (apply_integers_eq_overflow_iff h).2 (by decide)⟩

/-- The remainder of the least word by `-1` is zero, and every power of one is one. Both results fit a word,
and both operations report an overflow, the second on an exponent of 33 bits. -/
theorem overflow_of_small_result :
    (exactInt? mod (Int64.minValue).toInt (-1 : Int64).toInt = some 0 ∧ FitsWord 0 ∧
      mod.apply (.integer Int64.minValue) (.integer (-1)) = .error (.overflow "mod")) ∧
    (exactInt? pow (1 : Int64).toInt (4294967296 : Int64).toInt = some 1 ∧ FitsWord 1 ∧
      pow.apply (.integer 1) (.integer 4294967296) = .error (.overflow "pow")) := by
  refine ⟨⟨by decide, by decide, rfl⟩, ?_, by decide, rfl⟩
  have hexponent : (4294967296 : Int64).toInt = 4294967296 := by decide
  rw [hexponent]
  simp [exactInt?]

end Arith

end BlockLang
