import BlockLang.Proofs.Value.Exactness

/-!
# Fractions have one form

A fraction is made of two words by dividing both by their greatest common divisor and moving the sign to the
numerator. The divisor is found by Euclid's algorithm, and all of this can be done on words
(`Rational.euclid?`, `Rational.ofWords?`): a remainder is smaller than its divisor, so only the least word can
be in the way. It has no magnitude, and it cannot be divided by `-1`.

**Theorem (`Rational.ofInts?_lowestTerms`).** Where Euclid's algorithm stays within the words
(`Rational.EuclidFits`), the fraction that is made on words is the one that is made on integers. There is none
exactly if the denominator is zero or a part in lowest terms does not fit a word. Otherwise its parts are those
of the quotient in lowest terms, so two fractions are equal exactly if their quotients are.

* `Rational.QuotientsFit.step`, `Rational.euclid?_eq` — what a division preserves, and what the run of them
  finds.
* `Rational.fitsWord_gcd` — when the divisor that is found fits a word.
* `Rational.num_div`, `Rational.den_div` — the parts in lowest terms.
-/

namespace BlockLang.Rational

variable {a b n d : Int64}

/-! ## Euclid's algorithm on words -/

theorem natAbs_mod_lt (a : Int64) (hb : b ≠ 0) : (a % b).toInt.natAbs < b.toInt.natAbs := by
  have hpos : 0 < b.toInt.natAbs := Int.natAbs_pos.2 fun h => hb (Int64.toInt_inj.1 h)
  rw [Int64.toInt_mod, Int.natAbs_tmod]
  exact Nat.mod_lt _ hpos

/-- Euclid's algorithm. There is no answer where a quotient or the magnitude of the last divisor does not fit
a word. -/
def euclid? (a b : Int64) : Option Int64 :=
  if b = 0 then wordOfInt? a.toInt.natAbs
  else if FitsWord (a.toInt.tdiv b.toInt) then euclid? b (a % b) else none
termination_by b.toInt.natAbs
decreasing_by exact natAbs_mod_lt a ‹¬ b = 0›

/-- The fraction `n / d` over a divisor of both parts. The sign goes to the numerator. -/
def over? (n d divisor : Int64) : Option (Int64 × Int64) := do
  let sign : Int64 := if d < 0 then -1 else 1
  let numer ← wordOfInt? ((n / divisor).toInt * sign.toInt)
  let denom ← wordOfInt? ((d / divisor).toInt * sign.toInt)
  return (numer, denom)

/-- The parts of the fraction `n / d`, made on words. -/
def ofWords? (n d : Int64) : Option (Int64 × Int64) :=
  if d = 0 then none else (euclid? n d).bind fun divisor => over? n d (max divisor 1)

/-! ## What a division preserves -/

/-- Neither word over the other one is the least word over `-1`. -/
def QuotientsFit (a b : Int64) : Prop :=
  ¬ (a = Int64.minValue ∧ b = -1) ∧ ¬ (a = -1 ∧ b = Int64.minValue)

instance (a b : Int64) : Decidable (QuotientsFit a b) := inferInstanceAs (Decidable (_ ∧ _))

theorem toInt_minValue_eq : Int64.minValue.toInt = -wordLimit := rfl

theorem toInt_neg_one : (-1 : Int64).toInt = -1 := rfl

/-- Only `-1` leaves the remainder `-1` when it is divided by the least word. -/
theorem eq_neg_one_of_tmod {n : Int} (hn : FitsWord n) (h : n.tmod (-wordLimit) = -1) : n = -1 := by
  have hneg : n < 0 := by
    by_contra hnonneg
    have := Int.tmod_nonneg (-wordLimit) (not_lt.1 hnonneg)
    omega
  have hrest : n.natAbs % 0x8000000000000000 = 1 := by
    have hsize := Int.natAbs_tmod n (-wordLimit)
    rw [h] at hsize
    exact hsize.symm
  unfold FitsWord wordLimit at hn
  omega

/-- **A division preserves that quotients fit.** -/
theorem QuotientsFit.step (h : QuotientsFit a b) (hb : b ≠ 0) :
    FitsWord (a.toInt.tdiv b.toInt) ∧ QuotientsFit b (a % b) := by
  obtain ⟨hleft, hright⟩ := h
  have hzero : b.toInt ≠ 0 := fun h => hb (Int64.toInt_inj.1 h)
  refine ⟨?_, ?_, ?_⟩
  · by_contra hnot
    obtain ⟨ha, hb⟩ := (not_fitsWord_tdiv_iff (fitsWord_toInt a) hzero).1 hnot
    exact hleft ⟨Int64.toInt_inj.1 ha, Int64.toInt_inj.1 hb⟩
  · rintro ⟨rfl, hrest⟩
    have htmod : a.toInt.tmod (-wordLimit) = -1 := by
      rw [← toInt_minValue_eq, ← Int64.toInt_mod, hrest, toInt_neg_one]
    exact hright ⟨Int64.toInt_inj.1 (eq_neg_one_of_tmod (fitsWord_toInt a) htmod), rfl⟩
  · rintro ⟨rfl, hrest⟩
    have hsmaller := natAbs_mod_lt a hb
    rw [hrest] at hsmaller
    exact absurd hsmaller (by decide)

theorem gcd_mod (a b : Int64) : b.toInt.gcd (a % b).toInt = a.toInt.gcd b.toInt := by
  rw [Int64.toInt_mod, Int.gcd, Int.natAbs_tmod, Nat.gcd_comm, ← Nat.gcd_rec, Nat.gcd_comm, Int.gcd]

/-- **Where quotients fit, Euclid's algorithm finds the greatest common divisor**, if a word can hold it. -/
theorem euclid?_eq (h : QuotientsFit a b) : euclid? a b = wordOfInt? (a.toInt.gcd b.toInt) := by
  fun_induction euclid? a b with
  | case1 a => simp
  | case2 a b hb _ ih => rw [ih (h.step hb).2, gcd_mod]
  | case3 a b hb hnot => exact absurd (h.step hb).1 hnot

/-- The pairs on which Euclid's algorithm stays within the words: neither is each part zero or the least word,
nor is one part the least word and the other one `-1`. -/
structure EuclidFits (n d : Int64) : Prop where
  magnitude : ¬ ((n = 0 ∨ n = Int64.minValue) ∧ (d = 0 ∨ d = Int64.minValue))
  quotients : QuotientsFit n d

/-- A word with a divisor that fits no word is zero or the least word. -/
theorem eq_of_dvd_of_not_fitsWord {g : Nat} (hg : g ∣ a.toInt.natAbs) (hnot : ¬ FitsWord g) :
    a = 0 ∨ a = Int64.minValue := by
  have ha := fitsWord_toInt a
  unfold FitsWord at hnot ha
  by_cases hzero : a.toInt = 0
  · exact .inl (Int64.toInt_inj.1 hzero)
  · have hle : g ≤ a.toInt.natAbs := Nat.le_of_dvd (Int.natAbs_pos.2 hzero) hg
    refine .inr (Int64.toInt_inj.1 ?_)
    rw [toInt_minValue_eq]
    have hlimit : wordLimit = 0x8000000000000000 := rfl
    omega

theorem fitsWord_gcd (h : EuclidFits n d) : FitsWord (n.toInt.gcd d.toInt) := by
  by_contra hnot
  exact h.magnitude ⟨eq_of_dvd_of_not_fitsWord (Nat.gcd_dvd_left ..) hnot,
    eq_of_dvd_of_not_fitsWord (Nat.gcd_dvd_right ..) hnot⟩

theorem exists_euclid? (h : EuclidFits n d) :
    ∃ g, euclid? n d = some g ∧ g.toInt = n.toInt.gcd d.toInt := by
  obtain ⟨g, hg⟩ := exists_word_iff.2 (fitsWord_gcd h)
  exact ⟨g, (euclid?_eq h.quotients).trans hg, wordOfInt?_eq_some_iff.1 hg⟩

/-! ## The parts -/

/-- The sign of a denominator, as a word. -/
theorem toInt_sign (hd : d ≠ 0) : (if d < 0 then -1 else 1 : Int64).toInt = d.toInt.sign := by
  have hzero : d.toInt ≠ 0 := fun h => hd (Int64.toInt_inj.1 h)
  by_cases hneg : d < 0
  · rw [if_pos hneg, Int.sign_eq_neg_one_of_neg (Int64.lt_iff_toInt_lt.1 hneg)]
    rfl
  · have hpos : 0 < d.toInt := by
      have hnonneg : ¬ d.toInt < 0 := fun h => hneg (Int64.lt_iff_toInt_lt.2 h)
      omega
    rw [if_neg hneg, Int.sign_eq_one_of_pos hpos]
    rfl

theorem max_one (ha : 0 < a.toInt) : max a 1 = a := by
  show (if a ≤ 1 then 1 else a) = a
  split
  · next hle =>
    have hone : a.toInt ≤ 1 := Int64.le_iff_toInt_le.1 hle
    exact Int64.toInt_inj.1 (by rw [Int64.toInt_one]; omega)
  · rfl

/-- Nothing is rounded where the divisor divides. -/
theorem toInt_div_of_dvd {g : Int64} (hg : 0 < g.toInt) (hdvd : g.toInt ∣ a.toInt) :
    (a / g).toInt = a.toInt / g.toInt := by
  have hne : g ≠ -1 := by
    rintro rfl
    exact absurd hg (by decide)
  rw [Int64.toInt_div_of_ne_right a g hne, Int.tdiv_eq_ediv_of_dvd hdvd]

/-- Over the greatest common divisor, the parts are in lowest terms. -/
theorem over?_gcd {g : Int64} (hg : g.toInt = n.toInt.gcd d.toInt) (hd : d ≠ 0) :
    over? n d g = do
      let numer ← wordOfInt? (reducedNumer n.toInt d.toInt)
      let denom ← wordOfInt? (reducedDenom n.toInt d.toInt)
      return (numer, denom) := by
  have hzero : d.toInt ≠ 0 := fun h => hd (Int64.toInt_inj.1 h)
  have hpos : 0 < g.toInt := hg ▸ Int.natCast_pos.2 (Int.gcd_pos_of_ne_zero_right _ hzero)
  have hn : (n / g).toInt = n.toInt / n.toInt.gcd d.toInt := by
    rw [toInt_div_of_dvd hpos (hg ▸ Int.gcd_dvd_left ..), hg]
  have hd' : (d / g).toInt = d.toInt / n.toInt.gcd d.toInt := by
    rw [toInt_div_of_dvd hpos (hg ▸ Int.gcd_dvd_right ..), hg]
  simp only [over?, toInt_sign hd, hn, hd', reducedDenom_eq_sign_mul, reducedNumer, Int.mul_comm]

theorem map_ofInts? {n d : Int} (hd : d ≠ 0) :
    ((ofInts? n d).map fun q => (q.numer, q.denom)) = do
      let numer ← wordOfInt? (reducedNumer n d)
      let denom ← wordOfInt? (reducedDenom n d)
      return (numer, denom) := by
  unfold ofInts?
  rw [dif_neg hd]
  obtain hn | ⟨x, hn⟩ := Option.eq_none_or_eq_some (wordOfInt? (reducedNumer n d))
  · rw [Option.pbind_none' hn, hn]
    rfl
  · rw [Option.pbind_some' hn, hn]
    obtain hd | ⟨y, hd⟩ := Option.eq_none_or_eq_some (wordOfInt? (reducedDenom n d))
    · rw [Option.pbind_none' hd, hd]
      rfl
    · rw [Option.pbind_some' hd, hd]
      rfl

/-- **The parts made on words are those made on integers.** -/
theorem ofWords?_eq (h : EuclidFits n d) :
    ofWords? n d = (ofInts? n.toInt d.toInt).map fun q => (q.numer, q.denom) := by
  obtain ⟨g, hg, hgcd⟩ := exists_euclid? h
  by_cases hd : d = 0
  · subst hd
    simp [ofWords?, ofInts?]
  · have hzero : d.toInt ≠ 0 := fun h => hd (Int64.toInt_inj.1 h)
    have hpos : 0 < g.toInt := hgcd ▸ Int.natCast_pos.2 (Int.gcd_pos_of_ne_zero_right _ hzero)
    rw [ofWords?, if_neg hd, hg, Option.bind_some, max_one hpos, over?_gcd hgcd hd, map_ofInts? hzero]

/-! ## Lowest terms -/

section

variable {n d n' d' : Int} {q q' : Rational}

theorem num_div (hd : d ≠ 0) : ((n : ℚ) / d).num = reducedNumer n d := by
  rw [← reduced_div hd]
  exact Rat.num_div_eq_of_coprime (reducedDenom_pos hd) (reduced_coprime hd)

theorem den_div (hd : d ≠ 0) : (((n : ℚ) / d).den : Int) = reducedDenom n d := by
  rw [← reduced_div hd]
  exact Rat.den_div_eq_of_coprime (reducedDenom_pos hd) (reduced_coprime hd)

theorem num_toRat (q : Rational) : q.toRat.num = q.numer.toInt :=
  Rat.num_div_eq_of_coprime q.denom_pos q.coprime

theorem den_toRat (q : Rational) : (q.toRat.den : Int) = q.denom.toInt :=
  Rat.den_div_eq_of_coprime q.denom_pos q.coprime

/-- There is a fraction exactly if the parts in lowest terms fit words. -/
theorem exists_ofInts?_iff (hd : d ≠ 0) : (∃ q, ofInts? n d = some q) ↔
    FitsWord ((n : ℚ) / d).num ∧ FitsWord ((n : ℚ) / d).den := by
  rw [num_div hd, den_div hd, ← exists_word_iff, ← exists_word_iff]
  have hmap := map_ofInts? (n := n) hd
  constructor
  · rintro ⟨q, hq⟩
    rw [hq] at hmap
    obtain ⟨x, hx, hmap⟩ := Option.bind_eq_some_iff.1 hmap.symm
    obtain ⟨y, hy, -⟩ := Option.bind_eq_some_iff.1 hmap
    exact ⟨⟨x, hx⟩, ⟨y, hy⟩⟩
  · rintro ⟨⟨x, hx⟩, ⟨y, hy⟩⟩
    rw [hx, hy] at hmap
    obtain ⟨q, hq, -⟩ := Option.map_eq_some_iff.1 hmap
    exact ⟨q, hq⟩

theorem ofInts?_eq_none_iff : ofInts? n d = none ↔
    d = 0 ∨ ¬ (FitsWord ((n : ℚ) / d).num ∧ FitsWord ((n : ℚ) / d).den) := by
  by_cases hd : d = 0
  · simp [ofInts?, hd]
  · rw [← exists_ofInts?_iff hd, Option.eq_none_iff_forall_ne_some]
    simp [hd]

/-- Two fractions are equal exactly if their cross products are. -/
theorem eq_iff_of_ofInts? (h : ofInts? n d = some q) (h' : ofInts? n' d' = some q') :
    q = q' ↔ n * d' = n' * d := by
  obtain ⟨hd, hq⟩ := of_ofInts? h
  obtain ⟨hd', hq'⟩ := of_ofInts? h'
  calc q = q' ↔ q.toRat = q'.toRat := ⟨congrArg toRat, toRat_injective⟩
    _ ↔ (n : ℚ) * d' = n' * d := by
      rw [hq, hq', div_eq_div_iff (Int.cast_ne_zero.2 hd) (Int.cast_ne_zero.2 hd')]
    _ ↔ n * d' = n' * d := by exact_mod_cast Iff.rfl

end

/-- **Fractions have one form.** Where Euclid's algorithm stays within the words, it finds the greatest common
divisor, and making the fraction `n / d` on words gives what making it on integers gives. There is no fraction
exactly if `d` is zero or a part of `n / d` in lowest terms does not fit a word, and otherwise the fraction has
these parts. So two fractions are equal exactly if their cross products are. -/
theorem ofInts?_lowestTerms (h : EuclidFits n d) :
    (∃ g, euclid? n d = some g ∧ g.toInt = n.toInt.gcd d.toInt) ∧
    ofWords? n d = (ofInts? n.toInt d.toInt).map (fun q => (q.numer, q.denom)) ∧
    (ofInts? n.toInt d.toInt = none ↔ d = 0 ∨
      ¬ (FitsWord (n.toInt / d.toInt : ℚ).num ∧ FitsWord (n.toInt / d.toInt : ℚ).den)) ∧
    (∀ q, ofInts? n.toInt d.toInt = some q →
      q.numer.toInt = (n.toInt / d.toInt : ℚ).num ∧ q.denom.toInt = (n.toInt / d.toInt : ℚ).den ∧
      0 < q.denom.toInt ∧ q.numer.toInt.gcd q.denom.toInt = 1 ∧ q.toRat = n.toInt / d.toInt) ∧
    ∀ (n' d' : Int64) (q q' : Rational), EuclidFits n' d' → ofInts? n.toInt d.toInt = some q →
      ofInts? n'.toInt d'.toInt = some q' → (q = q' ↔ n.toInt * d'.toInt = n'.toInt * d.toInt) := by
  refine ⟨exists_euclid? h, ofWords?_eq h, ?_, fun q hq => ?_, fun _ _ _ _ _ => eq_iff_of_ofInts?⟩
  · rw [ofInts?_eq_none_iff, ← Int64.toInt_zero, Int64.toInt_inj]
  · obtain ⟨-, hnumber⟩ := of_ofInts? hq
    rw [← hnumber]
    exact ⟨q.num_toRat.symm, q.den_toRat.symm, q.denom_pos, q.coprime, rfl⟩

/-- Four over the least word is minus two over half its magnitude. No word holds the magnitude itself, and
neither fraction needs it. -/
theorem ofInts?_lowestTerms_leastWord :
    EuclidFits 4 Int64.minValue ∧ EuclidFits (-2) 0x4000000000000000 ∧
      euclid? 4 Int64.minValue = some 4 ∧ ofWords? 4 Int64.minValue = some (-1, 0x2000000000000000) ∧
      ∃ q q', ofInts? (4 : Int64).toInt (Int64.minValue).toInt = some q ∧
        ofInts? (-2 : Int64).toInt (0x4000000000000000 : Int64).toInt = some q' ∧ q = q' := by
  have h : EuclidFits 4 Int64.minValue := ⟨by decide, by decide⟩
  have h' : EuclidFits (-2) 0x4000000000000000 := ⟨by decide, by decide⟩
  let fraction : Rational := ⟨-1, 0x2000000000000000, by decide, by decide⟩
  have hq : ofInts? (4 : Int64).toInt (Int64.minValue).toInt = some fraction := by decide +kernel
  have hq' : ofInts? (-2 : Int64).toInt (0x4000000000000000 : Int64).toInt = some fraction := by
    decide +kernel
  obtain ⟨⟨g, hg, hgcd⟩, hwords, -, -, hequal⟩ := ofInts?_lowestTerms h
  have hfour : g = 4 := Int64.toInt_inj.1 (hgcd.trans (by decide +kernel))
  refine ⟨h, h', hfour ▸ hg, ?_, fraction, fraction, hq, hq', (hequal _ _ _ _ h' hq hq').2 (by decide)⟩
  rw [hwords, hq]
  rfl

end BlockLang.Rational
