import BlockLang.Proofs.Reading.Spelling

/-!
# The longest token

**Theorem (`Token.isLongest_of_scan`).** What the lexer finds at the front of a text is the longest lexeme there. It
reports an error for want of a token only where no token begins (`Token.IsLongest`).

A token can be a prefix of another one: a name of a longer name, of a label and of a path, a path of a longer one. So
the pieces of tokens are shown to be counted off greedily (`nameLength_le`, `restOfPath_le_joined`). Taking more of a
segment never cuts a path short: a segment that another one is behind is found just as it is, since no segment goes
on with a backslash (`segment?_joined`).
-/

namespace BlockLang

namespace Token

variable {c : Char} {l p s q name : List Char} {result : Except LexError Token} {n slack next : Nat} {isOpen : Bool}
  {segs : List (List Char)}

/-- A token, or the error of a token that is complete, with at least `n` characters behind the first one. -/
def Spans (m : Match) (n : Nat) : Prop := m.1 ≠ .error .invalid ∧ n ≤ m.2

/-! ## Pieces are counted off greedily -/

theorem length_le_takeWhile {f : Char → Bool} (h : ∀ d ∈ p, f d) (q : List Char) :
    p.length ≤ ((p ++ q).takeWhile f).length := by
  rw [List.takeWhile_append_of_pos h, List.length_append]
  exact Nat.le_add_right _ _

theorem digitsLength_le (h : ∀ d ∈ p, d.isDigit) (q : List Char) : p.length ≤ digitsLength (p ++ q) :=
  length_le_takeWhile h q

theorem nameLength_le (h : IsName s) (q : List Char) : s.length ≤ nameLength (s ++ q) := by
  obtain @⟨c, part, mark, hc, hpart, hmark⟩ := h
  rw [List.cons_append, nameLength, if_pos hc]
  dsimp only
  rcases hmark with rfl | rfl
  · have hle := length_le_takeWhile hpart q
    rw [List.append_nil, List.length_cons]
    omega
  · have hwhile : (part ++ ['?'] ++ q).takeWhile isNamePart = part := by
      rw [List.append_assoc]
      exact takeWhile_append_eq hpart fun d hd => by
        obtain rfl : '?' = d := by simpa using hd
        decide
    have hmark : (part ++ ['?'] ++ q)[part.length]? = some '?' := by simp
    rw [hwhile, hmark, if_pos rfl, List.length_cons, List.length_append, List.length_singleton]
    omega

theorem segment?_le (h : IsSegment slack s next) (q : List Char) :
    ∃ n next', segment? slack (s ++ q) = some (n, next') ∧ s.length ≤ n := by
  cases h with
  | name hs =>
    have hle := nameLength_le hs q
    have hpos := List.length_pos_iff.2 hs.ne_nil
    exact ⟨_, _, segment?_of_name (by omega), hle⟩
  | digits hs =>
    have hle := digitsLength_le hs.digits q
    have hpos := List.length_pos_iff.2 hs.ne_nil
    exact ⟨_, _, segment?_of_digits hs.nameLength_append (by omega), hle⟩
  | lastEmpty | empty =>
    cases hs : segment? _ ([] ++ q) with
    | none => cases eq_zero_of_segment?_none hs
    | some found => exact ⟨found.1, found.2, rfl, Nat.zero_le _⟩
  | mark =>
    have hname : nameLength ('?' :: q) = 0 := rfl
    have hdigits : digitsLength ('?' :: q) = 0 := rfl
    simp [segment?, hname, hdigits]

/-- A segment is found as it is if another one is behind it, and no shorter if none is. -/
theorem segment?_joined (h : IsSegment slack s next) (segs : List (List Char)) (q : List Char) :
    ∃ n next', segment? slack (s ++ (joined segs ++ q)) = some (n, next') ∧
      (n = s.length ∧ next' = next ∨ segs = [] ∧ s.length ≤ n) := by
  cases segs with
  | nil =>
    obtain ⟨n, next', hfound, hle⟩ := segment?_le h q
    exact ⟨n, next', hfound, .inr ⟨rfl, hle⟩⟩
  | cons t segs =>
    exact ⟨_, _, segment?_append h (stops_joined_cons t segs q), .inl ⟨rfl, rfl⟩⟩

/-- The rest of a path from a segment on that has been found. -/
theorem restOfPath_le_of_segment (hle : (joined segs).length ≤ (restOfPath next 0 (joined segs ++ q)).1) :
    s.length + (joined segs).length ≤ (restOfPath next s.length (s ++ (joined segs ++ q))).1 := by
  rw [restOfPath_pending (by simp), List.drop_left]
  exact Nat.add_le_add_left hle _

theorem restOfPath_le_joined (h : IsTail slack segs isOpen) (q : List Char) :
    (joined segs).length ≤ (restOfPath slack 0 (joined segs ++ q)).1 := by
  induction h with
  | nil => exact Nat.zero_le _
  | @cons slack next s rest isOpen hs _ ih =>
    obtain ⟨n, next', hfound, hcase⟩ := segment?_joined hs rest q
    have hn := (isSegment_take hfound).2
    rw [joined_cons_append, length_joined_cons, restOfPath, if_pos rfl, hfound]
    -- Only the last segment may be found longer than it is, and then nothing of the path is left behind it.
    refine Nat.succ_le_succ ?_
    rcases hcase with ⟨rfl, rfl⟩ | ⟨rfl, hle⟩
    · exact restOfPath_le_of_segment ih
    · rw [restOfPath_pending hn]
      exact Nat.le_add_right_of_le hle
  | closed =>
    rw [show joined [[]] ++ q = '\\' :: q from rfl, restOfPath, if_pos rfl]
    split <;> exact Nat.le_add_left 1 _

theorem segmentsLength_le_joined (h : IsSegments segs isOpen) (q : List Char) :
    (joined segs).length ≤ (segmentsLength (joined segs ++ q)).1 := by
  obtain ⟨first, rest, next, rfl, hfirst, hrest⟩ := h
  obtain ⟨n, next', hfound, hcase⟩ := segment?_joined hfirst rest q
  have hn := (isSegment_take hfound).2
  rw [joined_cons_append, length_joined_cons, segmentsLength, hfound]
  refine Nat.succ_le_succ ?_
  rcases hcase with ⟨rfl, -⟩ | ⟨rfl, hle⟩
  · exact restOfPath_le_of_segment (restOfPath_le_joined hrest q)
  · rw [restOfPath_pending hn]
    exact Nat.le_add_right_of_le hle

theorem length_le_stringLength (h : IsBody p) (q : List Char) : p.length ≤ stringLength false (p ++ q) := by
  induction h with
  | nil => exact Nat.zero_le _
  | char hquote hslash _ ih =>
    rw [List.cons_append, stringLength_char hquote hslash]
    exact Nat.succ_le_succ ih
  | escape he _ ih =>
    rw [List.cons_append, List.cons_append, stringLength_escape he, Nat.add_comm]
    exact Nat.add_le_add_right ih 2

theorem stringLength_isBody (h : IsBody p) (q : List Char) : stringLength false (p ++ '"' :: q) = p.length := by
  induction h with
  | nil => rfl
  | char hquote hslash _ ih => rw [List.cons_append, stringLength_char hquote hslash, ih, List.length_cons]
  | escape he _ ih =>
    rw [List.cons_append, List.cons_append, stringLength_escape he, ih, List.length_cons, List.length_cons]
    omega

/-! ## One token -/

theorem spans_ofNumber (h : ∀ d ∈ p, d.isDigit) (c : Char) (q : List Char) :
    Spans (ofNumber c (p ++ q)) p.length := by
  have hle := digitsLength_le h q
  unfold ofNumber
  extract_lets whole fraction digits all
  split
  · split
    · exact ⟨nofun, hle⟩
    · exact ⟨nofun, hle⟩
  · refine ⟨nofun, ?_⟩
    dsimp only
    omega

theorem spans_ofNumber_fraction (h : ∀ d ∈ p, d.isDigit) (hs : IsDigits s) (c : Char) (q : List Char) :
    Spans (ofNumber c (p ++ '.' :: (s ++ q))) (p ++ '.' :: s).length := by
  have hwhole : digitsLength (p ++ '.' :: (s ++ q)) = p.length :=
    digitsLength_append h fun d hd => by
      obtain rfl : '.' = d := by simpa using hd
      decide
  have hle := digitsLength_le hs.digits q
  have hpos : s.length ≠ 0 := mt List.length_eq_zero_iff.1 hs.ne_nil
  unfold ofNumber
  rw [hwhole]
  extract_lets whole fraction digits all
  have hfraction : fraction = digitsLength (s ++ q) := by
    unfold fraction whole
    rw [List.drop_left]
    rfl
  rw [if_neg (by omega)]
  refine ⟨nofun, ?_⟩
  rw [List.length_append, List.length_cons]
  dsimp only
  omega

theorem unescape_ne_invalid (l : List Char) : unescape l ≠ .error .invalid := by
  fun_induction unescape l <;> simp_all [Except.map]
  all_goals split <;> simp_all

theorem spans_ofString (h : IsBody p) (q : List Char) : Spans (ofString (p ++ '"' :: q)) (p.length + 1) := by
  have hend : (p ++ '"' :: q)[p.length]? = some '"' := by simp
  rw [ofString, stringLength_isBody h, if_pos hend, List.take_left]
  refine ⟨fun he => ?_, Nat.le_refl _⟩
  cases hs : unescape p with
  | ok s =>
    rw [hs] at he
    cases he
  | error e =>
    rw [hs] at he
    cases he
    exact unescape_ne_invalid p hs

theorem spans_ofLiteral (h : IsName p) (q : List Char) : Spans (ofLiteral (p ++ q)) p.length := by
  have hle := nameLength_le h q
  have hpos : p.length ≠ 0 := mt List.length_eq_zero_iff.1 h.ne_nil
  unfold ofLiteral
  split
  · omega
  · exact ⟨nofun, hle⟩

theorem spans_ofPoint (h : IsName p) (q : List Char) : Spans (ofPoint (p ++ q)) p.length := by
  have hle := nameLength_le h q
  have hpos : p.length ≠ 0 := mt List.length_eq_zero_iff.1 h.ne_nil
  unfold ofPoint
  split
  · omega
  · dsimp only
    split
    · exact ⟨nofun, Nat.le_succ_of_le hle⟩
    · exact ⟨nofun, hle⟩

theorem spans_ofPoint_label (h : IsName p) (q : List Char) : Spans (ofPoint (p ++ ':' :: q)) (p.length + 1) := by
  have hpoint := ofPoint_append (s := String.ofList p) (by rwa [String.toList_ofList]) (ends_colon (l := q)).stops
  rw [String.toList_ofList] at hpoint
  rw [hpoint, List.head?_cons, if_pos rfl]
  exact ⟨nofun, Nat.le_refl _⟩

theorem spans_ofName (c : Char) (l : List Char) :
    Spans (ofName c l) (nameLength (c :: l) - 1 + (segmentsLength (l.drop (nameLength (c :: l) - 1))).1) := by
  unfold ofName
  dsimp only
  split_ifs <;> exact ⟨nofun, by dsimp only; omega⟩

theorem spans_word (h : IsName (c :: p)) (q : List Char) : Spans (ofName c (p ++ q)) p.length := by
  obtain ⟨hne, hspan⟩ := spans_ofName c (p ++ q)
  have hle := nameLength_le h q
  rw [List.length_cons, List.cons_append] at hle
  exact ⟨hne, by omega⟩

theorem spans_label (h : IsName (c :: p)) (q : List Char) : Spans (ofName c (p ++ ':' :: q)) (p.length + 1) := by
  have hcolon : Ends (':' :: q) := ends_colon
  have hname := ofName_append [] h hcolon.stops (segmentsLength_of_ends hcolon)
  rw [List.nil_append] at hname
  rw [hname]
  exact ⟨nofun, by simp⟩

theorem spans_path (h : IsName (c :: p)) (hs : IsSegments segs isOpen) (q : List Char) :
    Spans (ofName c (p ++ (joined segs ++ q))) (p ++ joined segs).length := by
  have hstops : Stops (joined segs ++ q) := by
    obtain ⟨first, rest, -, rfl, -, -⟩ := hs
    exact stops_joined_cons first rest q
  have hname : nameLength (c :: (p ++ (joined segs ++ q))) - 1 = p.length := by
    rw [← List.cons_append, nameLength_append h hstops]
    rfl
  obtain ⟨hne, hspan⟩ := spans_ofName c (p ++ (joined segs ++ q))
  rw [hname, List.drop_left] at hspan
  have hle := segmentsLength_le_joined hs q
  rw [List.length_append]
  exact ⟨hne, by omega⟩

theorem spans_pathLabel (h : IsName (c :: p)) (hs : IsSegments segs true) (q : List Char) :
    Spans (ofName c (p ++ (joined segs ++ ':' :: q))) ((p ++ joined segs).length + 1) := by
  have hcolon : Ends (':' :: q) := ends_colon
  rw [ofName_append (joined segs) h (stops_joined hcolon.stops segs) (segmentsLength_append hs hcolon)]
  dsimp only
  rw [if_neg hs.joined_ne_nil, if_pos (by simp)]
  exact ⟨nofun, Nat.le_refl _⟩

theorem spans_ofSymbol (s : Symbol) (longer : List (Char × Symbol)) (q : List Char) :
    Spans (ofSymbol (.ok (.symbol s)) longer q) 0 := by
  unfold ofSymbol
  split
  · exact ⟨nofun, Nat.le_refl 0⟩
  · split
    · exact ⟨nofun, Nat.zero_le 1⟩
    · exact ⟨nofun, Nat.le_refl 0⟩

theorem spans_symbol (s : Symbol) :
    ∃ c p, s.text.toList = c :: p ∧ ∀ q, Spans (scan c (p ++ q)) p.length := by
  cases s <;> refine ⟨_, _, rfl, fun q => ?_⟩ <;>
    first
      | exact ⟨nofun, Nat.le_refl _⟩
      | exact spans_ofSymbol _ _ q

/-- **Where a token begins, the lexer finds one that is no shorter.** -/
theorem spans_scan (h : IsLexeme (c :: p) result) (hr : result ≠ .error .invalid) (q : List Char) :
    Spans (scan c (p ++ q)) p.length := by
  generalize ht : c :: p = t at h
  cases h with
  | blank hc hl =>
    cases ht
    simp only [isBlankChar, Bool.or_eq_true, beq_iff_eq] at hc
    rcases hc with (rfl | rfl) | rfl <;> exact ⟨nofun, length_le_takeWhile hl q⟩
  | lineEnd | openBlock | closeBlock | openInline | closeInline =>
    cases ht
    exact ⟨nofun, Nat.zero_le _⟩
  | comment hl =>
    cases ht
    exact ⟨nofun, length_le_takeWhile (by simpa using hl) q⟩
  | integer hd | tooBig hd =>
    subst ht
    rw [scan_of_isDigit (hd.digits c List.mem_cons_self)]
    exact spans_ofNumber (fun d hmem => hd.digits d (List.mem_cons_of_mem _ hmem)) c q
  | floating hw hf =>
    obtain ⟨d, whole, rfl⟩ := List.exists_cons_of_ne_nil hw.ne_nil
    rw [List.cons_append] at ht
    obtain ⟨rfl, rfl⟩ := List.cons.inj ht
    rw [scan_of_isDigit (hw.digits c List.mem_cons_self), List.append_assoc]
    exact spans_ofNumber_fraction (fun d hmem => hw.digits d (List.mem_cons_of_mem _ hmem)) hf c q
  | string hb | badEscape hb =>
    cases ht
    rw [List.append_assoc, List.length_append]
    exact spans_ofString hb q
  | unclosed => exact absurd rfl hr
  | word hn =>
    subst ht
    rw [scan_of_isNameStart hn.starts]
    exact spans_word hn q
  | label hn =>
    obtain ⟨d, name, rfl, hc⟩ := hn.exists_cons
    rw [List.cons_append] at ht
    obtain ⟨rfl, rfl⟩ := List.cons.inj ht
    rw [scan_of_isNameStart hc, List.append_assoc, List.length_append]
    exact spans_label hn q
  | literal hn =>
    cases ht
    exact spans_ofLiteral hn q
  | attr hn =>
    cases ht
    exact spans_ofPoint hn q
  | attrLabel hn =>
    cases ht
    rw [List.append_assoc, List.length_append]
    exact spans_ofPoint_label hn q
  | path hp =>
    obtain ⟨hn, hsegs⟩ := hp
    obtain ⟨d, name, rfl, hc⟩ := hn.exists_cons
    rw [List.cons_append] at ht
    obtain ⟨rfl, rfl⟩ := List.cons.inj ht
    rw [scan_of_isNameStart hc, List.append_assoc]
    exact spans_path hn hsegs q
  | pathLabel hp =>
    generalize ho : true = isOpen at hp
    obtain ⟨hn, hsegs⟩ := hp
    subst ho
    obtain ⟨d, name, rfl, hc⟩ := hn.exists_cons
    rw [List.cons_append, List.cons_append] at ht
    obtain ⟨rfl, rfl⟩ := List.cons.inj ht
    rw [scan_of_isNameStart hc, List.append_assoc, List.append_assoc, List.length_append]
    exact spans_pathLabel hn hsegs q
  | @symbol _ s hs =>
    obtain ⟨d, k, hk, hspan⟩ := spans_symbol s
    cases ht.trans (hs.symm.trans hk)
    exact hspan q
  | stray => exact absurd rfl hr

/-- The lexer never finds less than a lexeme there covers. -/
theorem length_le_scan (h : IsLexeme (c :: p) result) (q : List Char) : p.length ≤ (scan c (p ++ q)).2 := by
  by_cases hr : result = .error .invalid
  -- An error for want of a token is a string without an end, or one character.
  · generalize ht : c :: p = t at h
    cases h with
    | unclosed hb =>
      obtain ⟨rfl, rfl⟩ := List.cons.inj ht
      have hle := length_le_stringLength hb q
      have hscan : scan '"' (p ++ q) = ofString (p ++ q) := rfl
      rw [hscan, ofString]
      split
      · exact Nat.le_succ_of_le hle
      · exact hle
    | badEscape _ hs =>
      cases hr
      exact absurd hs (unescape_ne_invalid _)
    | stray =>
      cases ht
      exact Nat.zero_le _
    | _ => cases hr
  · exact (spans_scan h hr q).2

/-- The lexeme is the longest one at its place, where `rest` is behind it; it is an error for want of a token
only if no token begins there. -/
structure IsLongest (text rest : List Char) (result : Except LexError Token) : Prop where
  isLexeme : IsLexeme text result
  length_le : ∀ t other, IsLexeme t other → t <+: text ++ rest → t.length ≤ text.length
  ne_invalid : ∀ t other, IsLexeme t other → t <+: text ++ rest → other ≠ .error .invalid →
    result ≠ .error .invalid

/-- **The lexer takes the longest lexeme.** -/
theorem isLongest_of_scan (hscan : scan c (p ++ q) = (result, p.length)) (h : IsLexeme (c :: p) result) :
    IsLongest (c :: p) q result := by
  have hfront : ∀ t other, IsLexeme t other → t <+: c :: p ++ q →
      t.length ≤ p.length + 1 ∧ (other ≠ .error .invalid → result ≠ .error .invalid) := by
    rintro t other ht ⟨after, hafter⟩
    obtain ⟨d, k, rfl⟩ := List.exists_cons_of_ne_nil ht.ne_nil
    obtain ⟨rfl, hk⟩ := List.cons.inj hafter
    have hfound : scan d (k ++ after) = (result, p.length) := by
      rw [← hscan]
      exact congrArg (scan d) hk
    refine ⟨?_, fun hne => ?_⟩
    · have hle := length_le_scan ht after
      rw [hfound] at hle
      exact Nat.succ_le_succ hle
    · have hspan := (spans_scan ht hne after).1
      rwa [hfound] at hspan
  exact ⟨h, fun t other ht hp => (hfront t other ht hp).1, fun t other ht hp => (hfront t other ht hp).2⟩

end Token

end BlockLang
