import BlockLang.Reading
import Mathlib.Data.List.TakeWhile

/-!
# Paths as they are written

A path is kept as its segments, and a segment that is a number is kept as that number: an index. So a
path can be written back from its segments up to the leading zeros of its indices.

**Theorem (`writtenPath?_segments`).** Written back, the segments of a path that a source text holds are
its text, each row of digits that fits a word without its leading zeros (`Reading.plainPath`).

- Digits behind a positive number continue its spelling (`Numeral.toDigits_foldl_pushDigit`), so a row of
  digits is spelled back without its leading zeros.
- A sign in front would get lost as well, but no path has one: it keeps to the characters of names and
  backslashes (`Token.IsPathChar`).
-/

namespace BlockLang

namespace Numeral

/-! ## Digits -/

/-- A row of digits without its leading zeros. -/
def shortDigits (digits : List Char) : List Char :=
  match digits.dropWhile (· == '0') with
  | [] => ['0']
  | significant => significant

private theorem digit_eq {c : Char} (hc : c.isDigit) : ∃ d < 10, c = Nat.digitChar d := by
  have hc' : 48 ≤ c.toNat ∧ c.toNat ≤ 57 := by
    simpa [Char.isDigit, UInt32.le_iff_toNat_le] using hc
  refine ⟨c.toNat - 48, by omega, ?_⟩
  apply Char.ext
  apply UInt32.toNat_inj.1
  have h := Nat.toNat_digitChar_of_lt_ten (n := c.toNat - 48) (by omega)
  show c.toNat = (Nat.digitChar (c.toNat - 48)).toNat
  omega

theorem pushDigit_digitChar {n d : Nat} (hd : d < 10) :
    pushDigit n (Nat.digitChar d) = 10 * n + d := by
  have h := Nat.toNat_digitChar_of_lt_ten hd
  simp only [pushDigit, h]
  simp

/-- Digits behind a positive number continue its spelling. -/
theorem toDigits_foldl_pushDigit {n : Nat} (hn : 0 < n) {digits : List Char}
    (hd : ∀ c ∈ digits, c.isDigit) :
    Nat.toDigits 10 (digits.foldl pushDigit n) = Nat.toDigits 10 n ++ digits := by
  induction digits generalizing n with
  | nil => simp
  | cons c digits ih =>
    obtain ⟨d, hlt, rfl⟩ := digit_eq (hd c (by simp))
    have hnext : Nat.toDigits 10 (10 * n + d) = Nat.toDigits 10 n ++ [Nat.digitChar d] := by
      rw [← Nat.toDigits_append_toDigits (by decide) hn hlt, Nat.toDigits_of_lt_base hlt]
    rw [List.foldl_cons, pushDigit_digitChar hlt,
      ih (by omega) fun c hc => hd c (List.mem_cons_of_mem _ hc), hnext]
    simp

/-- A row of digits is spelled back without its leading zeros. -/
theorem toDigits_ofDigits {digits : List Char} (hd : ∀ c ∈ digits, c.isDigit) :
    Nat.toDigits 10 (ofDigits digits) = shortDigits digits := by
  induction digits with
  | nil => rfl
  | cons c digits ih =>
    have hrest : ∀ c ∈ digits, c.isDigit := fun c hc => hd c (List.mem_cons_of_mem _ hc)
    obtain ⟨d, hlt, rfl⟩ := digit_eq (hd c (by simp))
    rcases Nat.eq_zero_or_pos d with rfl | hpos
    · simpa [ofDigits, shortDigits, pushDigit_digitChar] using ih hrest
    · have hzero : Nat.digitChar d ≠ '0' := by simp; omega
      rw [ofDigits, List.foldl_cons, pushDigit_digitChar hlt, Nat.mul_zero, Nat.zero_add,
        toDigits_foldl_pushDigit hpos hrest, Nat.toDigits_of_lt_base hlt, shortDigits,
        List.dropWhile_cons_of_neg (by simpa using hzero)]
      rfl

end Numeral

namespace Token

/-! ## The characters of paths -/

/-- A character that may stand in a path. -/
def IsPathChar (c : Char) : Prop := isNamePart c ∨ c = '?' ∨ c = '\\'

theorem isPathChar_of_isDigit {c : Char} (h : c.isDigit) : IsPathChar c := by
  left
  simp [isNamePart, Char.isAlphanum, h]

/-- The text of a path. -/
def path? : Token → Option String
  | .path text | .pathLabel text => some text
  | _ => none

end Token

namespace Reading

/-! ## Segments -/

theorem splitPath_ne_nil (l : List Char) : splitPath l ≠ [] := by
  cases l with
  | nil => simp [splitPath]
  | cons c l =>
    unfold splitPath
    split
    · simp
    · split <;> simp

/-- The texts between backslashes, put together again. -/
theorem intercalate_splitPath (l : List Char) : ['\\'].intercalate (splitPath l) = l := by
  induction l with
  | nil => rfl
  | cons c l ih =>
    unfold splitPath
    cases hs : splitPath l with
    | nil => exact absurd hs (splitPath_ne_nil l)
    | cons segment rest =>
      rw [hs] at ih
      split
      · next hc =>
        subst hc
        simpa [List.intercalate, List.intersperse] using ih
      · cases rest with
        | nil => simpa [List.intercalate] using ih
        | cons next rest => simpa [List.intercalate] using ih

theorem mem_of_mem_splitPath {l segment : List Char} (h : segment ∈ splitPath l) :
    ∀ c ∈ segment, c ∈ l := by
  induction l generalizing segment with
  | nil =>
    have hnil : segment = [] := by simpa [splitPath] using h
    simp [hnil]
  | cons d l ih =>
    unfold splitPath at h
    cases hs : splitPath l with
    | nil => exact absurd hs (splitPath_ne_nil l)
    | cons first rest =>
      rw [hs] at h
      have hrest : ∀ s ∈ first :: rest, ∀ c ∈ s, c ∈ d :: l := fun s hmem c hc =>
        List.mem_cons_of_mem _ (ih (hs ▸ hmem) c hc)
      split at h
      · rcases List.mem_cons.1 h with rfl | h
        · simp
        · exact hrest segment h
      · rcases List.mem_cons.1 h with rfl | h
        · intro c hc
          rcases List.mem_cons.1 hc with rfl | hc
          · exact List.mem_cons_self
          · exact hrest first List.mem_cons_self c hc
        · exact hrest segment (List.mem_cons_of_mem _ h)

/-- A segment as its value is written: a row of digits that fits a word has no leading zeros. -/
def plainSegment (segment : List Char) : List Char :=
  if Numeral.isDigits segment ∧ (Numeral.ofDigits segment : Int) < wordLimit then
    Numeral.shortDigits segment
  else segment

/-- The text of a path, with every segment as its value is written. -/
def plainPath (text : String) : String :=
  String.ofList (['\\'].intercalate ((splitPath text.toList).map plainSegment))

/-- A number of several digits of which the first is zero. -/
def HasLeadingZero (segment : List Char) : Prop := ∃ d rest, segment = '0' :: d :: rest

theorem plainSegment_eq {segment : List Char} (h : ¬HasLeadingZero segment) :
    plainSegment segment = segment := by
  unfold plainSegment
  split
  · next hs =>
    cases segment with
    | nil => simp [Numeral.isDigits] at hs
    | cons c rest =>
      by_cases hc : c = '0'
      · subst hc
        cases rest with
        | nil => rfl
        | cons d rest => exact absurd ⟨d, rest, rfl⟩ h
      · rw [Numeral.shortDigits, List.dropWhile_cons_of_neg (by simpa using hc)]
  · rfl

theorem plainPath_eq {text : String} (h : ∀ s ∈ splitPath text.toList, ¬HasLeadingZero s) :
    plainPath text = text := by
  have hmap : (splitPath text.toList).map plainSegment = splitPath text.toList :=
    (List.map_congr_left fun s hs => plainSegment_eq (h s hs)).trans (List.map_id _)
  rw [plainPath, hmap, intercalate_splitPath, String.ofList_toList]

/-! ## Writing a path -/

/-- The text of a segment of a path. -/
def writtenSegment? : Value → Option (List Char)
  | .integer n => some (toString n.toInt).toList
  | .word name => some name.toList
  | _ => none

/-- The text of a path, given its segments. -/
def writtenPath? (segments : List Value) : Option String :=
  (segments.mapM writtenSegment?).map fun l => String.ofList (['\\'].intercalate l)

theorem splitSign_eq {segment : List Char} (h : ∀ c ∈ segment, Token.IsPathChar c) :
    Numeral.splitSign segment = (false, segment) := by
  unfold Numeral.splitSign
  split
  · exact absurd (h '-' (by simp)) (by simp [Token.IsPathChar, Token.isNamePart])
  · exact absurd (h '+' (by simp)) (by simp [Token.IsPathChar, Token.isNamePart])
  · rfl

theorem word?_eq {segment : List Char} (h : ∀ c ∈ segment, Token.IsPathChar c) :
    Numeral.word? segment =
      if Numeral.isDigits segment then wordOfInt? (Numeral.ofDigits segment) else none := by
  have hint : Numeral.integer? segment =
      if Numeral.isDigits segment then some (Numeral.ofDigits segment : Int) else none := by
    unfold Numeral.integer?
    rw [splitSign_eq h]
    rfl
  rw [Numeral.word?, hint]
  by_cases hd : Numeral.isDigits segment
  · rw [if_pos hd, if_pos hd, Option.bind_some]
  · rw [if_neg hd, if_neg hd, Option.bind_none]

theorem writtenSegment?_integer {n : Int64} {k : Nat} (h : n.toInt = k) :
    writtenSegment? (.integer n) = some (Nat.toDigits 10 k) := by
  have hshown : toString (k : Int) = k.repr := rfl
  rw [writtenSegment?, h, hshown, Nat.toList_repr]

theorem writtenSegment?_segmentValue {segment : List Char} (h : ∀ c ∈ segment, Token.IsPathChar c) :
    writtenSegment? (segmentValue segment) = some (plainSegment segment) := by
  unfold segmentValue plainSegment
  rw [word?_eq h]
  by_cases hd : Numeral.isDigits segment
  · have hdigits : ∀ c ∈ segment, c.isDigit := by
      simp only [Numeral.isDigits, Bool.and_eq_true, List.all_eq_true] at hd
      exact hd.2
    rw [if_pos hd]
    cases hw : wordOfInt? (Numeral.ofDigits segment : Int) with
    | none =>
      have hbig : ¬(Numeral.ofDigits segment : Int) < wordLimit := by
        have hlow : -wordLimit ≤ 0 := by decide
        rcases wordOfInt?_eq_none_iff.1 hw with hw | hw <;> omega
      rw [if_neg fun both => hbig both.2]
      simp [writtenSegment?]
    | some n =>
      have hn := wordOfInt?_eq_some_iff.1 hw
      have hsmall : (Numeral.ofDigits segment : Int) < wordLimit := hn ▸ n.toInt_lt
      rw [if_pos ⟨hd, hsmall⟩, ← Numeral.toDigits_ofDigits hdigits]
      exact writtenSegment?_integer hn
  · rw [if_neg hd, if_neg fun both => hd both.1]
    simp [writtenSegment?]

/-- **A path is written back as its text, but for the leading zeros of its indices.** -/
theorem writtenPath?_segments {text : String} (h : ∀ c ∈ text.toList, Token.IsPathChar c) :
    writtenPath? (segments text) = some (plainPath text) := by
  have hall : ∀ l : List (List Char), (∀ s ∈ l, ∀ c ∈ s, Token.IsPathChar c) →
      (l.map segmentValue).mapM writtenSegment? = some (l.map plainSegment) := by
    intro l hl
    induction l with
    | nil => rfl
    | cons s l ih =>
      simp only [List.mem_cons, forall_eq_or_imp] at hl
      simp [writtenSegment?_segmentValue hl.1, ih hl.2]
  rw [writtenPath?, segments, hall _ fun s hs c hc => h c (mem_of_mem_splitPath hs c hc)]
  rfl

end Reading

end BlockLang
