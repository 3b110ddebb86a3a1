/-!
# Exact results in 64-bit integers

The integers of the language are 64-bit words. Arithmetic is done on unbounded integers, and a result
is kept only if a word can hold it: `wordOfInt?` is the one place where that is decided.
-/

namespace BlockLang

/-- One more than the greatest word. -/
def wordLimit : Int := 0x8000000000000000

/-- The word with the given value, if there is one. -/
def wordOfInt? (n : Int) : Option Int64 :=
  if -wordLimit ≤ n ∧ n < wordLimit then some (.ofInt n) else none

theorem wordOfInt?_eq_some_iff {n : Int} {x : Int64} : wordOfInt? n = some x ↔ x.toInt = n := by
  have lower := x.le_toInt
  have upper := x.toInt_lt
  unfold wordOfInt? wordLimit
  constructor
  · intro h
    split at h
    · cases h
      apply Int64.toInt_ofInt_of_le <;> omega
    · contradiction
  · rintro rfl
    rw [if_pos (by omega)]
    simp

theorem wordOfInt?_eq_none_iff {n : Int} : wordOfInt? n = none ↔ n < -wordLimit ∨ wordLimit ≤ n := by
  unfold wordOfInt?
  split <;> simp <;> omega

theorem wordOfInt?_toInt (x : Int64) : wordOfInt? x.toInt = some x :=
  wordOfInt?_eq_some_iff.2 rfl

end BlockLang
