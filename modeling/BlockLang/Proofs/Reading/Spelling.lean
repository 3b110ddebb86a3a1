import BlockLang.Proofs.Reading.Lexemes

/-!
# Tokens as they are spelled

A token that the lexer has found in one text is found in any other one where it is spelled, provided that
a blank or the end of a bracket comes next (`Token.Found`).

What a token has to be made of for that is `Token.IsShaped`, and the lexer finds no others
(`Token.IsLexeme.isShaped`). For each kind of token with a name, a path or digits there is one lemma that
says how it is spelled; symbols are gone through one by one.
-/

namespace BlockLang

namespace Token

open Reading (plainSegment plainPath splitPath segments)

/-! ## Where a token is found -/

/-- A blank, the end of a bracket, or the end of the text. -/
def IsBoundary (l : List Char) : Prop := ∀ c ∈ l.head?, c = ' ' ∨ c = ']' ∨ c = ')'

/-- The lexer finds the token where it is spelled so, and no more of the text. -/
def Found (spelling : List Char) (token : Token) : Prop :=
  ∃ c l, spelling = c :: l ∧ ∀ rest, IsBoundary rest → scan c (l ++ rest) = (.ok token, l.length)

variable {l name tail rest : List Char} {c : Char} {s : String} {n : Nat} {isOpen : Bool}

theorem IsBoundary.ends (h : IsBoundary rest) : Ends rest := by
  refine ⟨fun c hc => ?_, fun hc => ?_⟩
  · rcases h c hc with rfl | rfl | rfl <;> decide
  · have := h '\\' hc
    revert this
    decide

theorem IsBoundary.head?_ne (h : IsBoundary rest) (hc : c ∉ [' ', ']', ')']) : rest.head? ≠ some c :=
  fun he => hc (by simpa using h c he)

theorem isBoundary_nil : IsBoundary [] := nofun

theorem isBoundary_blank : IsBoundary (' ' :: l) := fun c hc => .inl (by simpa using hc.symm)

theorem isBoundary_closeBlock : IsBoundary (']' :: l) := fun c hc =>
  .inr (.inl (by simpa using hc.symm))

theorem isBoundary_closeInline : IsBoundary (')' :: l) := fun c hc =>
  .inr (.inr (by simpa using hc.symm))

/-- A colon ends names and paths as well. -/
theorem ends_colon : Ends (':' :: l) := by
  refine ⟨fun c hc => ?_, by simp⟩
  obtain rfl : ':' = c := by simpa using hc
  decide

/-! ## Names -/

theorem scan_of_isNameStart (h : isNameStart c) : scan c l = ofName c l := by
  have hdigit : c.isDigit = false := by
    by_contra hd
    rw [isNameStart_eq_false_of_isDigit (by simpa using hd)] at h
    cases h
  unfold scan
  dsimp only
  split
  case h_29 => rw [if_neg (by simp [hdigit]), if_pos h]
  all_goals exact absurd h (by decide)

theorem scan_of_isDigit (h : c.isDigit) : scan c l = ofNumber c l := by
  unfold scan
  dsimp only
  split
  case h_29 => rw [if_pos h]
  all_goals exact absurd h (by decide)

/-- A name and the segments behind it, in front of what belongs to neither. -/
theorem ofName_append (segs : List Char) (h : IsName (c :: l)) (hstops : Stops (segs ++ tail))
    (hsegs : segmentsLength (segs ++ tail) = (segs.length, isOpen)) :
    ofName c (l ++ (segs ++ tail)) =
      let n := (l ++ segs).length
      let text := String.ofList (c :: (l ++ segs))
      let isLabel := isOpen && tail.head? == some ':'
      if segs.length = 0 then if isLabel then (.ok (.label text), n + 1) else (.ok (.word text), n)
      else if isLabel then (.ok (.pathLabel text), n + 1)
      else (.ok (.path text), n) := by
  have hname : nameLength (c :: (l ++ (segs ++ tail))) - 1 = l.length := by
    rw [← List.cons_append, nameLength_append h hstops]
    rfl
  have htake : (l ++ (segs ++ tail)).take (l.length + segs.length) = l ++ segs := by
    rw [← List.append_assoc, ← List.length_append, List.take_left]
  have hnext : (l ++ (segs ++ tail))[l.length + segs.length]? = tail.head? := by
    rw [← List.append_assoc, ← List.length_append,
      List.getElem?_append_right (Nat.le_refl _), Nat.sub_self, List.head?_eq_getElem?]
  rw [ofName, hname, List.drop_left, hsegs]
  dsimp only
  rw [htake, hnext, List.length_append]

theorem IsName.starts (h : IsName (c :: l)) : isNameStart c := by
  cases h
  assumption

theorem IsName.exists_cons (h : IsName l) : ∃ c k, l = c :: k ∧ isNameStart c := by
  obtain ⟨hc, -, -⟩ := h
  exact ⟨_, _, rfl, hc⟩

theorem found_word (h : IsName s.toList) : Found s.toList (.word s) := by
  obtain ⟨c, l, hs, hc⟩ := h.exists_cons
  refine ⟨c, l, hs, fun rest hr => ?_⟩
  have hcolon : rest.head? ≠ some ':' := hr.head?_ne (by decide)
  have := ofName_append [] (hs ▸ h) hr.ends.stops (segmentsLength_of_ends hr.ends)
  rw [scan_of_isNameStart hc]
  simpa [hcolon, ← hs] using this

theorem found_label (h : IsName s.toList) : Found (s.toList ++ [':']) (.label s) := by
  obtain ⟨c, l, hs, hc⟩ := h.exists_cons
  refine ⟨c, l ++ [':'], by simp [hs], fun rest _ => ?_⟩
  have hcolon : Ends (':' :: rest) := ends_colon
  have := ofName_append [] (hs ▸ h) hcolon.stops (segmentsLength_of_ends hcolon)
  rw [scan_of_isNameStart hc, List.append_assoc]
  simpa [← hs] using this

theorem found_literal (h : IsName s.toList) : Found ('\x27' :: s.toList) (.literal s) := by
  refine ⟨_, _, rfl, fun rest hr => ?_⟩
  have hlength := nameLength_append h hr.ends.stops
  have hne : nameLength (s.toList ++ rest) ≠ 0 := hlength ▸ mt List.length_eq_zero_iff.1 h.ne_nil
  have hscan : scan '\x27' (s.toList ++ rest) = ofLiteral (s.toList ++ rest) := rfl
  rw [hscan, ofLiteral]
  split
  · contradiction
  · rw [hlength, List.take_left, String.ofList_toList]

theorem ofPoint_append (h : IsName s.toList) (ht : Stops tail) : ofPoint (s.toList ++ tail) =
    if tail.head? = some ':' then (.ok (.attrLabel s), s.toList.length + 1)
    else (.ok (.attr s), s.toList.length) := by
  have hlength := nameLength_append h ht
  have hne : nameLength (s.toList ++ tail) ≠ 0 := hlength ▸ mt List.length_eq_zero_iff.1 h.ne_nil
  have hnext : (s.toList ++ tail)[s.toList.length]? = tail.head? := by
    rw [List.getElem?_append_right (Nat.le_refl _), Nat.sub_self, List.head?_eq_getElem?]
  rw [ofPoint]
  split
  · contradiction
  · rw [hlength, List.take_left, hnext, String.ofList_toList]

theorem found_attr (h : IsName s.toList) : Found ('.' :: s.toList) (.attr s) := by
  refine ⟨_, _, rfl, fun rest hr => ?_⟩
  exact (ofPoint_append h hr.ends.stops).trans (if_neg (hr.head?_ne (by decide)))

theorem found_attrLabel (h : IsName s.toList) :
    Found ('.' :: (s.toList ++ [':'])) (.attrLabel s) := by
  refine ⟨_, _, rfl, fun rest _ => ?_⟩
  have hcolon : Ends (':' :: rest) := ends_colon
  rw [List.append_assoc]
  exact ((ofPoint_append h hcolon.stops).trans (if_pos rfl)).trans (by simp)

/-! ## Paths -/

theorem IsSegments.joined_ne_nil {segs : List (List Char)} (h : IsSegments segs isOpen) :
    (joined segs).length ≠ 0 := by
  obtain ⟨first, rest, next, rfl, -, -⟩ := h
  simp [joined]

theorem found_path (h : IsPath s.toList isOpen) : Found s.toList (.path s) := by
  generalize hs : s.toList = l at h
  obtain ⟨hname, hsegs⟩ := h
  obtain ⟨c, l, rfl, hc⟩ := hname.exists_cons
  refine ⟨c, l ++ joined _, rfl, fun rest hr => ?_⟩
  have hcolon : rest.head? ≠ some ':' := hr.head?_ne (by decide)
  have := ofName_append _ hname (stops_joined hr.ends.stops _) (segmentsLength_append hsegs hr.ends)
  rw [scan_of_isNameStart hc, List.append_assoc, this]
  simp [hcolon, hsegs.joined_ne_nil, ← List.cons_append, ← hs]

theorem found_pathLabel (h : IsPath s.toList true) : Found (s.toList ++ [':']) (.pathLabel s) := by
  generalize hs : s.toList = l at h
  generalize ho : true = isOpen at h
  obtain ⟨hname, hsegs⟩ := h
  subst ho
  obtain ⟨c, l, rfl, hc⟩ := hname.exists_cons
  refine ⟨c, l ++ joined _ ++ [':'], rfl, fun rest _ => ?_⟩
  have hcolon : Ends (':' :: rest) := ends_colon
  have := ofName_append _ hname (stops_joined hcolon.stops _) (segmentsLength_append hsegs hcolon)
  rw [scan_of_isNameStart hc, List.append_assoc, List.append_assoc, List.singleton_append, this]
  simp [hsegs.joined_ne_nil, ← List.cons_append, ← hs, Nat.add_assoc]

theorem splitPath_name_joined {segs : List (List Char)} (hname : IsName name)
    (hsegs : IsSegments segs isOpen) : splitPath (name ++ joined segs) = name :: segs :=
  splitPath_joined hname.backslash_not_mem hsegs.backslash_not_mem

theorem intercalate_backslash (l : List Char) (segs : List (List Char)) :
    ['\\'].intercalate (l :: segs) = l ++ joined segs := by
  induction segs generalizing l with
  | nil => simp [List.intercalate, joined]
  | cons t segs ih =>
    have := ih t
    simp_all [List.intercalate, joined]

theorem toList_plainPath {segs : List (List Char)} (hname : IsName name)
    (hsegs : IsSegments segs isOpen) (hs : s.toList = name ++ joined segs) :
    (plainPath s).toList = name ++ joined (segs.map plainSegment) := by
  rw [plainPath, String.toList_ofList, hs, splitPath_name_joined hname hsegs, List.map_cons,
    hname.plainSegment, intercalate_backslash]

/-- A path with its indices in plain form is a path. -/
theorem IsPath.plain (h : IsPath s.toList isOpen) : IsPath (plainPath s).toList isOpen := by
  generalize hs : s.toList = l at h
  obtain ⟨hname, hsegs⟩ := h
  rw [toList_plainPath hname hsegs hs]
  exact .intro hname hsegs.plain

/-! ## Numbers -/

theorem ofDigits_toDigits (k : Nat) : Numeral.ofDigits (Nat.toDigits 10 k) = k :=
  Nat.ofDigitChars_toDigits (by decide) (by decide)

theorem isDigits_toDigits (k : Nat) : IsDigits (Nat.toDigits 10 k) :=
  ⟨Nat.toDigits_ne_nil, fun _ => Nat.isDigit_of_mem_toDigits (by decide) (by decide)⟩

theorem word?_toDigits {n : Int64} {k : Nat} (hn : n.toInt = k) :
    Numeral.word? (Nat.toDigits 10 k) = some n := by
  have hdigits := isDigits_toDigits k
  rw [Reading.word?_eq fun c hc => isPathChar_of_isDigit (hdigits.digits c hc),
    if_pos ((isDigits_eq _).2 hdigits), ofDigits_toDigits]
  exact wordOfInt?_eq_some_iff.2 hn

/-- Plain form does not change which number a segment is. -/
theorem segmentValue_plainSegment (h : ∀ c ∈ l, IsPathChar c) :
    Reading.segmentValue (plainSegment l) = Reading.segmentValue l := by
  unfold Reading.plainSegment
  split
  · next hl =>
    obtain ⟨hdigits, hfits⟩ := hl
    have hlow : -wordLimit ≤ (Numeral.ofDigits l : Int) := by
      have : -wordLimit ≤ 0 := by decide
      omega
    obtain ⟨n, hn⟩ : ∃ n, wordOfInt? (Numeral.ofDigits l : Int) = some n := by
      cases hw : wordOfInt? (Numeral.ofDigits l : Int) with
      | some n => exact ⟨n, rfl⟩
      | none => rcases wordOfInt?_eq_none_iff.1 hw with hw | hw <;> omega
    have hword : Numeral.word? l = some n := by rw [Reading.word?_eq h, if_pos hdigits, hn]
    rw [Reading.segmentValue, Reading.segmentValue, hword,
      ← Numeral.toDigits_ofDigits ((isDigits_eq l).1 hdigits).digits,
      word?_toDigits (wordOfInt?_eq_some_iff.1 hn)]
  · rfl

/-- A path with its indices in plain form has the same segments. -/
theorem segments_plainPath (h : IsPath s.toList isOpen) : segments (plainPath s) = segments s := by
  have hchars := h.isPathChar
  generalize hs : s.toList = l at h
  obtain ⟨hname, hsegs⟩ := h
  rw [segments, segments, toList_plainPath hname hsegs hs, splitPath_name_joined hname hsegs.plain,
    hs, splitPath_name_joined hname hsegs, List.map_cons, List.map_cons, List.map_map]
  congr 1
  refine List.map_congr_left fun t ht => segmentValue_plainSegment fun c hc => hchars c ?_
  rw [hs]
  exact List.mem_append_right _ (List.mem_flatMap.2 ⟨t, ht, List.mem_cons_of_mem _ hc⟩)

/-- The digits of a number that is not negative. -/
theorem found_integer {n : Int64} (hn : 0 ≤ n.toInt) :
    Found (toString n.toInt).toList (.integer n) := by
  obtain ⟨k, hk⟩ := Int.eq_ofNat_of_zero_le hn
  have htext : (toString n.toInt).toList = Nat.toDigits 10 k := by
    rw [hk]
    exact Nat.toList_repr
  have hword := word?_toDigits hk
  have hdigits := isDigits_toDigits k
  rw [htext]
  obtain ⟨c, l, hl⟩ := List.exists_cons_of_ne_nil hdigits.ne_nil
  rw [hl] at hword hdigits
  refine ⟨c, l, hl, fun rest hr => ?_⟩
  have hlength : digitsLength (l ++ rest) = l.length :=
    digitsLength_append (fun d hd => hdigits.digits d (List.mem_cons_of_mem _ hd))
      hr.ends.stops.not_isDigit
  have hpoint : rest.head? ≠ some '.' := hr.head?_ne (by decide)
  rw [scan_of_isDigit (hdigits.digits c List.mem_cons_self), ofNumber, hlength]
  dsimp only
  rw [List.drop_left, List.take_left]
  split
  · exact absurd rfl hpoint
  · rw [if_pos rfl, hword]

/-! ## Symbols -/

theorem IsBoundary.cases (h : IsBoundary rest) :
    rest = [] ∨ ∃ c l, rest = c :: l ∧ (c = ' ' ∨ c = ']' ∨ c = ')') := by
  cases rest with
  | nil => exact .inl rfl
  | cons c l => exact .inr ⟨c, l, rfl, h c rfl⟩

/-- No symbol goes on with a blank or the end of a bracket. -/
theorem found_symbol (s : Symbol) : Found s.text.toList (.symbol s) := by
  cases s <;> refine ⟨_, _, rfl, fun rest hr => ?_⟩ <;>
    obtain rfl | ⟨c, l, rfl, rfl | rfl | rfl⟩ := hr.cases <;> rfl

/-! ## What the lexer finds -/

/-- The token is one that its spelling can be read from: names are names, paths are paths, and no number
has a sign. -/
def IsShaped : Token → Prop
  | word s | label s | literal s | attr s | attrLabel s => IsName s.toList
  | path s => ∃ isOpen, IsPath s.toList isOpen
  | pathLabel s => IsPath s.toList true
  | integer n => 0 ≤ n.toInt
  | _ => True

/-- **What the lexer finds is shaped.** -/
theorem IsLexeme.isShaped {token : Token} (h : IsLexeme l (.ok token)) : token.IsShaped := by
  cases h with
  | integer hdigits hn =>
    rw [Reading.word?_eq fun c hc => isPathChar_of_isDigit (hdigits.digits c hc),
      if_pos ((isDigits_eq _).2 hdigits)] at hn
    rw [IsShaped, wordOfInt?_eq_some_iff.1 hn]
    exact Int.natCast_nonneg _
  | word hname | label hname | literal hname | attr hname | attrLabel hname =>
    rwa [IsShaped, String.toList_ofList]
  | path hpath => exact ⟨_, by rwa [String.toList_ofList]⟩
  | pathLabel hpath => rwa [IsShaped, String.toList_ofList]
  | _ => trivial

theorem isShaped_of_mem_lexemes {source : String} {x : Lexeme} {token : Token} (h : x ∈ lexemes source)
    (ht : x.result = .ok token) : token.IsShaped := (ht ▸ isLexeme_of_mem_lexemes h).isShaped

end Token

end BlockLang
