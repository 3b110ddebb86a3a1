import BlockLang.Proofs.Reading.Items
import BlockLang.Proofs.Reading.Spelling

/-!
# Segments of paths

A path is a name and at least one segment behind it. The reader makes an index of a segment that is a number and fits
a word, and a word of any other segment.

**Theorem (`readSource_paths`).** A path that is read comes from a path in the source text: its head is a word with the
name in front, and behind it there is one value for each piece of the text (`Reading.SegmentOf`). A value is
well-formed, an index or a word with a name, exactly if its piece is a name, or digits that fit a word.

The other pieces become words all the same, with names that no word in a source text has: digits that do not fit a
word, and the segments that the lexer lets a path leave empty, or a question mark alone, behind its first segment
(`segment_not_a_name`).
-/

namespace BlockLang

open Token

namespace Reading

/-- An index, or a word with a name. -/
def IsWellFormed : Value → Prop
  | .integer n => 0 ≤ n.toInt
  | .word name => IsName name.toList
  | _ => False

/-- The value that a piece of a path becomes. -/
inductive SegmentOf : (piece : List Char) → Value → Prop
  | word {piece : List Char} : IsName piece → SegmentOf piece (.word (String.ofList piece))
  | index {piece : List Char} {n : Int64} : IsDigits piece → n.toInt = Numeral.ofDigits piece →
      SegmentOf piece (.integer n)
  | tooBig {piece : List Char} : IsDigits piece → wordLimit ≤ Numeral.ofDigits piece →
      SegmentOf piece (.word (String.ofList piece))
  | empty : SegmentOf [] (.word "")
  | mark : SegmentOf ['?'] (.word "?")

variable {piece : List Char} {v : Value} {slack next : Nat} {segs : List (List Char)} {isOpen : Bool}

/-- **A segment is well-formed exactly if its piece is a name, or digits that fit a word.** -/
theorem SegmentOf.isWellFormed_iff (h : SegmentOf piece v) : IsWellFormed v ↔
    IsName piece ∨ IsDigits piece ∧ (Numeral.ofDigits piece : Int) < wordLimit := by
  cases h with
  | word hn =>
    refine iff_of_true ?_ (.inl hn)
    rwa [IsWellFormed, String.toList_ofList]
  | index hd hvalue =>
    refine iff_of_true ?_ (.inr ⟨hd, hvalue ▸ Int64.toInt_lt _⟩)
    rw [IsWellFormed, hvalue]
    exact Int.natCast_nonneg _
  | tooBig hd hbig =>
    refine iff_of_false ?_ ?_
    · rw [IsWellFormed, String.toList_ofList]
      exact fun hn => hn.not_isDigits hd
    · rintro (hn | ⟨-, hlt⟩)
      · exact hn.not_isDigits hd
      · omega
  | empty =>
    refine iff_of_false nofun ?_
    rintro (hn | ⟨hd, -⟩)
    · exact hn.ne_nil rfl
    · exact hd.ne_nil rfl
  | mark =>
    refine iff_of_false (fun hn => absurd hn.starts (by decide)) ?_
    rintro (hn | ⟨hd, -⟩)
    · exact absurd hn.starts (by decide)
    · exact absurd (hd.digits '?' List.mem_cons_self) (by decide)

theorem segmentValue_of_isName (h : IsName piece) : segmentValue piece = .word (String.ofList piece) := by
  have hdigits : ¬ Numeral.isDigits piece := fun hd => h.not_isDigits ((isDigits_eq piece).1 hd)
  rw [segmentValue, word?_eq h.isPathChar, if_neg hdigits]

theorem segmentOf_of_isDigits (h : IsDigits piece) : SegmentOf piece (segmentValue piece) := by
  rw [segmentValue, word?_eq fun c hc => isPathChar_of_isDigit (h.digits c hc), if_pos ((isDigits_eq piece).2 h)]
  cases hw : wordOfInt? (Numeral.ofDigits piece : Int) with
  | some n => exact .index h (wordOfInt?_eq_some_iff.1 hw)
  | none =>
    have hlow : -wordLimit ≤ 0 := by decide
    refine .tooBig h ?_
    rcases wordOfInt?_eq_none_iff.1 hw with hw | hw <;> omega

theorem segmentOf_of_isSegment (h : IsSegment slack piece next) : SegmentOf piece (segmentValue piece) := by
  cases h with
  | name hn => exact segmentValue_of_isName hn ▸ .word hn
  | digits hd => exact segmentOf_of_isDigits hd
  | lastEmpty | empty => exact .empty
  | mark => exact .mark

theorem segmentOf_of_isTail (h : IsTail slack segs isOpen) :
    ∀ piece ∈ segs, SegmentOf piece (segmentValue piece) := by
  induction h with
  | nil => exact nofun
  | cons hs _ ih => exact List.forall_mem_cons.2 ⟨segmentOf_of_isSegment hs, ih⟩
  | closed => exact List.forall_mem_singleton.2 .empty

theorem segmentOf_of_isSegments (h : IsSegments segs isOpen) :
    ∀ piece ∈ segs, SegmentOf piece (segmentValue piece) := by
  obtain ⟨first, rest, next, rfl, hfirst, hrest⟩ := h
  exact List.forall_mem_cons.2 ⟨segmentOf_of_isSegment hfirst, segmentOf_of_isTail hrest⟩

/-- The leaves that are paths stand for paths. -/
theorem exists_path_of_leafOn {n : Nat} {x : Lexeme} {segs : List Value} (h : leafOn? n x = some v)
    (hpath : v = .path segs ∨ v = .pathLabel segs) :
    ∃ token text, x.result = .ok token ∧ token.path? = some text ∧ segs = segments text := by
  unfold leafOn? at h
  split at h
  · rcases hpath with rfl | rfl <;> cases h
  · next token _ hx =>
    refine ⟨token, ?_⟩
    rcases hpath with rfl | rfl <;> cases token <;> cases h <;> exact ⟨_, hx, rfl, rfl⟩
  · cases h

end Reading

theorem Token.IsShaped.isPath {token : Token} {text : String} (h : token.IsShaped) (ht : token.path? = some text) :
    ∃ isOpen, IsPath text.toList isOpen := by
  cases token with
  | path | pathLabel =>
    cases ht
    first
      | exact h
      | exact ⟨true, h⟩
  | _ => cases ht

/-- **The segments of a path are read from its pieces.** The path has a name in front and at least one segment
behind it; a segment is well-formed exactly if its piece is a name, or digits that fit a word. -/
theorem readSource_paths {source : String} {items segs : List Value} {v : Value}
    (h : readSource source = .ok items) (hv : v ∈ Value.leavesAll items)
    (hpath : v = .path segs ∨ v = .pathLabel segs) :
    ∃ name pieces isOpen, IsName name ∧ IsSegments pieces isOpen ∧
      (∃ x ∈ lexemes source, ∃ token text, x.result = .ok token ∧ token.path? = some text ∧
        text.toList = name ++ joined pieces) ∧
      segs = .word (String.ofList name) :: pieces.map Reading.segmentValue ∧ 2 ≤ segs.length ∧
      ∀ piece ∈ pieces, Reading.SegmentOf piece (Reading.segmentValue piece) ∧
        (Reading.IsWellFormed (Reading.segmentValue piece) ↔
          IsName piece ∨ IsDigits piece ∧ (Numeral.ofDigits piece : Int) < wordLimit) := by
  obtain ⟨line, hl⟩ := yields_of_readSource h
  rw [hl.leavesAll_eq.1] at hv
  obtain ⟨n, x, hx, hleaf⟩ := Reading.mem_leavesFrom hv
  obtain ⟨token, text, ht, htext, rfl⟩ := Reading.exists_path_of_leafOn hleaf hpath
  obtain ⟨isOpen, hshape⟩ := (isShaped_of_mem_lexemes hx ht).isPath htext
  generalize hchars : text.toList = l at hshape
  obtain @⟨name, pieces, _, hname, hpieces⟩ := hshape
  have hsegs : Reading.segments text = .word (String.ofList name) :: pieces.map Reading.segmentValue := by
    rw [Reading.segments, hchars, splitPath_name_joined hname hpieces, List.map_cons,
      Reading.segmentValue_of_isName hname]
  refine ⟨name, pieces, isOpen, hname, hpieces, ⟨x, hx, token, text, ht, htext, hchars⟩, hsegs, ?_,
    fun piece hp => ?_⟩
  · obtain ⟨first, rest, -, rfl, -, -⟩ := hpieces
    rw [hsegs]
    simp
  · have hsegment := Reading.segmentOf_of_isSegments hpieces piece hp
    exact ⟨hsegment, hsegment.isWellFormed_iff⟩

/-- A path in brackets, with an index, and the label of a path. -/
theorem readSource_paths_nested :
    let segs : List Value := [.word "c", .word "b", .integer 1]
    let items : List Value :=
      [.block [.word "x", .inline [.path segs]] false, .pathLabel [.word "d", .word "k"], .integer 5]
    (readSource "[x (c\\b\\1)] d\\k: 5" = .ok items ∧ .path segs ∈ Value.leavesAll items) ∧
      ∃ (name : List Char) (pieces : List (List Char)), IsName name ∧
        segs = .word (String.ofList name) :: pieces.map Reading.segmentValue ∧
        ∀ piece ∈ pieces, Reading.SegmentOf piece (Reading.segmentValue piece) := by
  intro segs items
  have hread : readSource "[x (c\\b\\1)] d\\k: 5" = .ok items := rfl
  have hmem : .path segs ∈ Value.leavesAll items := .tail _ (.head _)
  obtain ⟨name, pieces, _, hname, -, -, hsegs, -, hpieces⟩ := readSource_paths hread hmem (.inl rfl)
  exact ⟨⟨hread, hmem⟩, name, pieces, hname, hsegs, fun piece hp => (hpieces piece hp).1⟩

/-- A path may end in a backslash, and its digits need not fit a word: the last segment is then a word without a name,
or one with a name of digits. -/
theorem segment_not_a_name :
    (readSource "a\\b\\" = .ok [.path [.word "a", .word "b", .word ""]] ∧ ¬ Reading.IsWellFormed (.word "")) ∧
      readSource "a\\9223372036854775808" = .ok [.path [.word "a", .word "9223372036854775808"]] ∧
        ¬ Reading.IsWellFormed (.word "9223372036854775808") := by
  refine ⟨⟨rfl, fun hn => hn.ne_nil rfl⟩, rfl, fun hn => ?_⟩
  have hchars : "9223372036854775808".toList = '9' :: "223372036854775808".toList := rfl
  rw [Reading.IsWellFormed, hchars] at hn
  exact absurd hn.starts (by decide)

end BlockLang
