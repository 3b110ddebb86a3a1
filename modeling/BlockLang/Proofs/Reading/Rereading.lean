import BlockLang.Proofs.Machine.Fuel
import BlockLang.Proofs.Reading.Brackets
import BlockLang.Proofs.Reading.Quoting
import BlockLang.Proofs.Value.Nesting
import BlockLang.Value.Display

/-!
# Displayed code is read back

**Theorem (`displayed_block_is_read`).** Let a source text be read into a block without floating point
numbers. The text that the block is displayed as is read into that block again, without its line markers,
if all strings in it are plain (`Text.IsPlain`); and if one is not, reading the text fails.

The escapes of quoted strings are more than the lexer knows, so strings that are not plain cannot be left out
(`displayed_string_is_not_read`).

What reading a text does is described piece by piece: it adds some items to the innermost bracket, or it
breaks off (`Reading.Adds`, `Reading.Breaks`), whatever comes in front and whatever follows behind a boundary.
A value is legible if that is so of the text it is displayed as. All that the lexer finds is legible, a row of
legible values with blanks between them adds them all, and brackets around it make one value of it
(`Reading.Legible.ofBracket`). So all items that lexemes yield are legible (`Reading.Yields.isFair`).
-/

namespace BlockLang

open Text Token Value

/-! ## Values in blocks -/

namespace Value

/-- The value `u` is `v` or stands in it at some depth. -/
def Holds (v u : Value) : Prop := ∃ depth, SitsAt (parts {}) depth v u

mutual

/-- The value with no line markers in it. -/
def withoutLines : Value → Value
  | block items dynamic => block (withoutLinesAll items) dynamic
  | inline items => inline (withoutLinesAll items)
  | v => v

/-- The values that are no line markers, without line markers in them. -/
def withoutLinesAll : List Value → List Value
  | [] => []
  | newline _ :: l => withoutLinesAll l
  | v :: l => v.withoutLines :: withoutLinesAll l

end

/-- All strings in the value are plain. -/
def HasPlainStrings (v : Value) : Prop := ∀ s, v.Holds (string s) → ∀ c ∈ s.toList, IsPlain c

/-- No number in the value is a floating point number. -/
def HasNoFloating (v : Value) : Prop := ∀ x, ¬ v.Holds (floating x)

theorem withoutLinesAll_eq (l : List Value) :
    withoutLinesAll l = (l.filter (!·.isNewline)).map withoutLines := by
  induction l with
  | nil => rfl
  | cons v l ih => cases v <;> simp [withoutLinesAll, isNewline, ih]

theorem Holds.of_part {v p u : Value} (hp : p ∈ parts {} v) (h : p.Holds u) : v.Holds u :=
  let ⟨depth, hs⟩ := h; ⟨depth + 1, .part hp hs⟩

/-- What stands in a value is the value or stands in a part. -/
theorem holds_iff {v u : Value} : v.Holds u ↔ u = v ∨ ∃ p ∈ parts {} v, p.Holds u := by
  constructor
  · rintro ⟨depth, hs⟩
    cases hs with
    | self => exact .inl rfl
    | part hp hs => exact .inr ⟨_, hp, _, hs⟩
  · rintro (rfl | ⟨p, hp, hu⟩)
    · exact ⟨0, .self _⟩
    · exact hu.of_part hp

theorem holds_ofBracket {b : Bracket} {items : List Value} {u : Value} :
    (ofBracket b items).Holds u ↔ u = ofBracket b items ∨ ∃ p ∈ items, p.Holds u := by
  rw [holds_iff]
  cases b <;> rfl

theorem hasPlainStrings_of_atom {v : Value} (hv : v.isCompound = false) (hs : v.kind ≠ .string) :
    v.HasPlainStrings := by
  intro s h
  rcases holds_iff.1 h with rfl | ⟨p, hp, -⟩
  · exact absurd rfl hs
  · exact absurd (parts_of_atom hv ▸ hp) List.not_mem_nil

theorem hasPlainStrings_ofBracket {b : Bracket} {items : List Value} :
    (ofBracket b items).HasPlainStrings ↔ ∀ v ∈ items, v.HasPlainStrings := by
  refine ⟨fun h v hv s hs => h s (holds_ofBracket.2 (.inr ⟨v, hv, hs⟩)), fun h s hs => ?_⟩
  rcases holds_ofBracket.1 hs with heq | ⟨v, hv, hs⟩
  · cases b <;> cases heq
  · exact h v hv s hs

theorem hasNoFloating_of_atom {v : Value} (hv : v.isCompound = false) (hk : v.kind ≠ .floating) :
    v.HasNoFloating := by
  intro x h
  rcases holds_iff.1 h with rfl | ⟨p, hp, -⟩
  · exact absurd rfl hk
  · exact absurd (parts_of_atom hv ▸ hp) List.not_mem_nil

theorem hasNoFloating_ofBracket {b : Bracket} {items : List Value}
    (h : ∀ v ∈ items, v.HasNoFloating) : (ofBracket b items).HasNoFloating := by
  intro x hx
  rcases holds_ofBracket.1 hx with heq | ⟨v, hv, hx⟩
  · cases b <;> cases heq
  · exact h v hv x hx

theorem HasNoFloating.of_mem {b : Bracket} {items : List Value}
    (h : (ofBracket b items).HasNoFloating) {v : Value} (hv : v ∈ items) : v.HasNoFloating :=
  fun x hx => h x (holds_ofBracket.2 (.inr ⟨v, hv, hx⟩))

end Value

namespace Reading

/-! ## What reading a text does -/

/-- Reading the text adds these items to the innermost bracket. -/
def Adds (text : List Char) (items : List Value) : Prop :=
  ∀ rest, IsBoundary rest → ∀ start (r : Reading), ∃ start' names,
    r.steps (lexemesFrom start 0 (text ++ rest)) =
      ({ r with items := items.reverse ++ r.items, names } : Reading).steps (lexemesFrom start' 0 rest)

/-- Reading the text breaks off in it. -/
def Breaks (text : List Char) : Prop :=
  ∀ rest start (r : Reading), ∃ r' e, r.steps (lexemesFrom start 0 (text ++ rest)) = (r', some e)

variable {text text' : List Char} {items items' : List Value} {v : Value} {token : Token}

theorem adds_nil : Adds [] [] := fun _ _ start r => ⟨start, r.names, rfl⟩

/-- What comes second begins with a boundary. -/
theorem Adds.append (h : Adds text items) (h' : Adds (' ' :: text') items') :
    Adds (text ++ ' ' :: text') (items ++ items') := by
  intro rest hr start r
  obtain ⟨start', names, hfirst⟩ := h (' ' :: text' ++ rest) isBoundary_blank start r
  obtain ⟨start'', names', hsecond⟩ := h' rest hr start' { r with items := items.reverse ++ r.items, names }
  refine ⟨start'', names', ?_⟩
  rw [List.append_assoc, hfirst, hsecond]
  simp

theorem Adds.breaks (h : Adds text items) (h' : Breaks (' ' :: text')) :
    Breaks (text ++ ' ' :: text') := by
  intro rest start r
  obtain ⟨start', names, hfirst⟩ := h (' ' :: text' ++ rest) isBoundary_blank start r
  rw [List.append_assoc, hfirst]
  exact h' rest start' _

theorem Breaks.append (h : Breaks text) (text' : List Char) : Breaks (text ++ text') := by
  intro rest start r
  rw [List.append_assoc]
  exact h (text' ++ rest) start r

/-- The first character is no blank. -/
def StartsSolid (text : List Char) : Prop :=
  ∃ c l, text = c :: l ∧ (c == ' ' || c == '\t' || c == '\r') = false

theorem StartsSolid.append (h : StartsSolid text) (text' : List Char) :
    StartsSolid (text ++ text') := by
  obtain ⟨c, l, rfl, hc⟩ := h
  exact ⟨c, l ++ text', rfl, hc⟩

theorem exists_lexemesFrom {c : Char} {l rest : List Char} {result : Except LexError Token}
    (h : scan c (l ++ rest) = (result, l.length)) (start : Nat) :
    ∃ start', lexemesFrom start 0 (c :: l ++ rest) = ⟨start, c :: l, result⟩ :: lexemesFrom start' 0 rest :=
  ⟨_, lexemesFrom_of_scan h start⟩

/-- A blank is passed over. -/
theorem steps_blank (h : StartsSolid text) (start : Nat) (r : Reading) :
    ∃ start', r.steps (lexemesFrom start 0 (' ' :: text)) = r.steps (lexemesFrom start' 0 text) := by
  have hscan : scan ' ' ([] ++ text) = (.ok .blank, ([] : List Char).length) := by
    obtain ⟨c, l, rfl, hc⟩ := h
    simp [scan, hc]
  obtain ⟨start', hl⟩ := exists_lexemesFrom hscan start
  refine ⟨start', ?_⟩
  rw [show ' ' :: text = [' '] ++ text from rfl, hl]
  rfl

theorem Adds.blank (h : Adds text items) (hs : StartsSolid text) : Adds (' ' :: text) items := by
  intro rest hr start r
  obtain ⟨start', hblank⟩ := steps_blank (hs.append rest) start r
  rw [List.cons_append, hblank]
  exact h rest hr start' r

theorem Breaks.blank (h : Breaks text) (hs : StartsSolid text) : Breaks (' ' :: text) := by
  intro rest start r
  obtain ⟨start', hblank⟩ := steps_blank (hs.append rest) start r
  rw [List.cons_append, hblank]
  exact h rest start' r

/-- Reading the token adds the value. -/
def Reads (token : Token) (v : Value) : Prop :=
  ∀ (r : Reading) (x : Lexeme), x.result = .ok token →
    ∃ names, r.step x = .ok { r with items := v :: r.items, names }

theorem Adds.of_found (hf : Found text token) (hr : Reads token v) : Adds text [v] := by
  obtain ⟨c, l, rfl, hscan⟩ := hf
  intro rest hrest start r
  obtain ⟨start', hl⟩ := exists_lexemesFrom (hscan rest hrest) start
  obtain ⟨names, hstep⟩ := hr r ⟨start, c :: l, .ok token⟩ rfl
  refine ⟨start', names, ?_⟩
  rw [hl, steps, hstep]
  rfl

theorem StartsSolid.of_found (hf : Found text token) (hs : token.isSolid) : StartsSolid text := by
  obtain ⟨c, l, rfl, hscan⟩ := hf
  refine ⟨c, l, rfl, ?_⟩
  have hscan := hscan [] isBoundary_nil
  by_contra hc
  simp only [Bool.not_eq_false, Bool.or_eq_true, beq_iff_eq] at hc
  have hblank : token = .blank := by
    rcases hc with (rfl | rfl) | rfl <;> exact (Except.ok.inj (Prod.mk.inj hscan).1).symm
  rw [hblank] at hs
  cases hs

/-! ## Brackets -/

/-- The character of an opening bracket. -/
def openingChar : Bracket → Char
  | .block => '['
  | .inline => '('

/-- The character of a closing bracket. -/
def closingChar : Bracket → Char
  | .block => ']'
  | .inline => ')'

/-- A text in brackets. -/
def bracketed (b : Bracket) (text : List Char) : List Char :=
  openingChar b :: (text ++ [closingChar b])

theorem startsSolid_bracketed (b : Bracket) (text : List Char) : StartsSolid (bracketed b text) :=
  ⟨_, _, rfl, by cases b <;> decide⟩

theorem steps_opening (b : Bracket) (rest : List Char) (start : Nat) (r : Reading) :
    ∃ start', r.steps (lexemesFrom start 0 (openingChar b :: rest)) =
      (r.enter b start).steps (lexemesFrom start' 0 rest) := by
  have hscan : scan (openingChar b) ([] ++ rest) = (.ok (opening b), ([] : List Char).length) := by
    cases b <;> rfl
  obtain ⟨start', hl⟩ := exists_lexemesFrom hscan start
  refine ⟨start', ?_⟩
  rw [show openingChar b :: rest = [openingChar b] ++ rest from rfl, hl]
  cases b <;> rfl

theorem steps_closing {b : Bracket} {r r' : Reading} {start : Nat} (h : r.close b start = .ok r')
    (rest : List Char) : ∃ start', r.steps (lexemesFrom start 0 (closingChar b :: rest)) =
      r'.steps (lexemesFrom start' 0 rest) := by
  have hscan : scan (closingChar b) ([] ++ rest) = (.ok (closing b), ([] : List Char).length) := by
    cases b <;> rfl
  obtain ⟨start', hl⟩ := exists_lexemesFrom hscan start
  refine ⟨start', ?_⟩
  have hstep : r.step ⟨start, [closingChar b], .ok (closing b)⟩ = .ok r' := by
    rw [← h]
    cases b <;> rfl
  rw [show closingChar b :: rest = [closingChar b] ++ rest from rfl, hl, steps, hstep]

/-- Brackets around items make one value of them. -/
theorem Adds.bracketed (h : Adds text items) (b : Bracket) :
    Adds (bracketed b text) [ofBracket b items] := by
  intro rest hr start r
  have hboundary : IsBoundary (closingChar b :: rest) := by
    cases b
    · exact isBoundary_closeBlock
    · exact isBoundary_closeInline
  obtain ⟨start₁, hopen⟩ := steps_opening b (text ++ closingChar b :: rest) start r
  obtain ⟨start₂, names, hinner⟩ := h (closingChar b :: rest) hboundary start₁ (r.enter b start)
  have hclosed : Reading.close
      { r.enter b start with items := items.reverse ++ (r.enter b start).items, names } b start₂ =
        .ok { r with items := ofBracket b items :: r.items, names } := by
    rw [close_eq]
    simp [enter]
  obtain ⟨start₃, hclose⟩ := steps_closing hclosed rest
  refine ⟨start₃, names, ?_⟩
  rw [Reading.bracketed, List.cons_append, List.append_assoc, List.singleton_append, hopen, hinner,
    hclose]
  rfl

theorem Breaks.bracketed (h : Breaks text) (b : Bracket) : Breaks (bracketed b text) := by
  intro rest start r
  obtain ⟨start', hopen⟩ := steps_opening b (text ++ ([closingChar b] ++ rest)) start r
  rw [Reading.bracketed, List.cons_append, List.append_assoc, hopen]
  exact h _ start' _

/-! ## Legible values -/

/-- The value is displayed as a text that is read into it again, or breaks off if it has strings that are
not plain. -/
structure Spells (v : Value) (text : String) : Prop where
  shown : ∃ depth, ∀ heap, v.displayWithin heap depth true = some text
  solid : StartsSolid text.toList
  adds : v.HasPlainStrings → Adds text.toList [v.withoutLines]
  breaks : ¬ v.HasPlainStrings → Breaks text.toList

/-- The value is displayed as a text that stands for it as far as its strings are plain. -/
def Legible (v : Value) : Prop := ∃ text, Spells v text

/-! ### Single tokens -/

/-- A value that is a token is legible where the text it is displayed as is a spelling of the token. -/
theorem Legible.of_found {s : String}
    (hshown : ∃ depth, ∀ heap, v.displayWithin heap depth true = some s)
    (hf : Found s.toList token) (hsolid : token.isSolid) (hr : Reads token v)
    (hplain : v.HasPlainStrings) (hatom : v.withoutLines = v) : Legible v :=
  ⟨s, hshown, .of_found hf hsolid, fun _ => hatom.symm ▸ .of_found hf hr, fun h => absurd hplain h⟩

theorem reads_valueOf (h : valueOf? token = some v) : Reads token v := by
  intro r x hx
  unfold step
  rw [hx]
  cases token <;> cases h <;> exact ⟨_, rfl⟩

theorem display_of_writtenSegment {l : List Char} (h : writtenSegment? v = some l) (heap : Heap) :
    v.displayWithin heap 1 true = some (String.ofList l) := by
  cases v with
  | integer n | word s =>
    cases h
    simp [displayWithin]
  | _ => cases h

theorem displays_of_writtenPath {segs : List Value} {s : String} (h : writtenPath? segs = some s)
    (heap : Heap) :
    (segs.mapM (displayWithin heap 1 true)).map ("\\".intercalate ·) = some s := by
  obtain ⟨ls, hls, rfl⟩ := Option.map_eq_some_iff.1 h
  have hmap : segs.mapM (displayWithin heap 1 true) = some (ls.map String.ofList) := by
    clear h
    induction segs generalizing ls with
    | nil =>
      cases hls
      rfl
    | cons v segs ih =>
      rw [List.mapM_cons] at hls
      obtain ⟨l, hl, hls⟩ := Option.bind_eq_some_iff.1 hls
      obtain ⟨ls, hls', hls⟩ := Option.bind_eq_some_iff.1 hls
      cases hls
      rw [List.mapM_cons, display_of_writtenSegment hl, ih ls hls']
      rfl
  rw [hmap, Option.map_some, ← String.ofList_toList (s := "\\".intercalate _),
    String.toList_intercalate]
  simp

theorem displayWithin_pathLabel (heap : Heap) (depth : Nat) (segs : List Value) :
    (pathLabel segs).displayWithin heap (depth + 1) true =
      ((segs.mapM (displayWithin heap depth true)).map ("\\".intercalate ·)).map (· ++ ":") := rfl

theorem hasPlainStrings_segments (s : String) :
    (path (segments s)).HasPlainStrings ∧ (pathLabel (segments s)).HasPlainStrings := by
  have hsegment : ∀ p ∈ segments s, p.HasPlainStrings := by
    intro p hp
    obtain ⟨l, -, rfl⟩ := List.mem_map.1 hp
    unfold segmentValue
    split <;> exact hasPlainStrings_of_atom rfl nofun
  have hpart : ∀ v : Value, parts {} v = segments s → v.kind ≠ .string → v.HasPlainStrings := by
    intro v hv hk t ht
    rcases holds_iff.1 ht with rfl | ⟨p, hp, ht⟩
    · exact absurd rfl hk
    · exact hsegment p (hv ▸ hp) t ht
  exact ⟨hpart _ rfl nofun, hpart _ rfl nofun⟩

theorem hasPlainStrings_string {s : String} :
    (Value.string s).HasPlainStrings ↔ ∀ c ∈ s.toList, IsPlain c := by
  refine ⟨fun h => h s ⟨0, .self _⟩, fun h t ht => ?_⟩
  rcases holds_iff.1 ht with heq | ⟨p, hp, -⟩
  · cases heq
    exact h
  · exact absurd hp List.not_mem_nil

/-- Reading breaks off where the lexer reports an error. -/
theorem Breaks.of_error {c : Char} {l : List Char}
    (h : ∀ rest, ∃ cause, scan c (l ++ rest) = (.error cause, l.length)) : Breaks (c :: l) := by
  intro rest start r
  obtain ⟨cause, hscan⟩ := h rest
  obtain ⟨start', hl⟩ := exists_lexemesFrom hscan start
  rw [hl]
  exact ⟨r, _, rfl⟩

theorem legible_string (s : String) : Legible (.string s) := by
  refine ⟨quoted s, ⟨1, fun _ => rfl⟩, ?_, fun h => ?_, fun h => ?_⟩
  · rw [toList_quoted]
    exact ⟨_, _, rfl, by decide⟩
  · exact .of_found (found_string (hasPlainStrings_string.1 h)) (reads_valueOf rfl)
  · rw [toList_quoted]
    exact .of_error fun rest =>
      let ⟨e, he⟩ := scan_quoted_of_not_plain (mt hasPlainStrings_string.2 h) rest; ⟨_, he⟩

/-- **What the lexer finds is legible**, but for floating point numbers. -/
theorem legible_valueOf (h : valueOf? token = some v) (hshaped : token.IsShaped)
    (hf : v.HasNoFloating) : Legible v := by
  have hr := reads_valueOf h
  cases token with
  | integer n =>
    cases h
    exact .of_found ⟨1, fun _ => rfl⟩ (found_integer hshaped) rfl hr (hasPlainStrings_of_atom rfl nofun) rfl
  | floating x =>
    cases h
    exact absurd ⟨0, .self _⟩ (hf x)
  | string s =>
    cases h
    exact legible_string s
  | word s =>
    cases h
    exact .of_found ⟨1, fun _ => rfl⟩ (found_word hshaped) rfl hr (hasPlainStrings_of_atom rfl nofun) rfl
  | label s =>
    cases h
    refine .of_found (s := s ++ ":") ⟨1, fun _ => rfl⟩ ?_ rfl hr (hasPlainStrings_of_atom rfl nofun) rfl
    simpa using found_label hshaped
  | literal s =>
    cases h
    refine .of_found (s := "'" ++ s) ⟨1, fun _ => rfl⟩ ?_ rfl hr (hasPlainStrings_of_atom rfl nofun) rfl
    simpa using found_literal hshaped
  | attr s =>
    cases h
    refine .of_found (s := "." ++ s) ⟨1, fun _ => rfl⟩ ?_ rfl hr (hasPlainStrings_of_atom rfl nofun) rfl
    simpa using found_attr hshaped
  | attrLabel s =>
    cases h
    refine .of_found (s := "." ++ s ++ ":") ⟨1, fun _ => rfl⟩ ?_ rfl hr
      (hasPlainStrings_of_atom rfl nofun) rfl
    simpa using found_attrLabel hshaped
  | path s =>
    cases h
    obtain ⟨isOpen, hs⟩ := hshaped
    refine .of_found ⟨2, displays_of_writtenPath (writtenPath?_segments hs.isPathChar)⟩ (found_path hs.plain) rfl
      ?_ (hasPlainStrings_segments s).1 rfl
    rw [← segments_plainPath hs]
    exact reads_valueOf rfl
  | pathLabel s =>
    cases h
    have hs : IsPath s.toList true := hshaped
    have hf := found_pathLabel hs.plain
    refine .of_found (s := plainPath s ++ ":") ⟨2, fun heap => ?_⟩ (by simpa using hf) rfl ?_
      (hasPlainStrings_segments s).2 rfl
    · rw [displayWithin_pathLabel, displays_of_writtenPath (writtenPath?_segments hs.isPathChar)]
      rfl
    · rw [← segments_plainPath hs]
      exact reads_valueOf rfl
  | symbol s =>
    cases h
    exact .of_found ⟨1, fun _ => rfl⟩ (found_symbol s) rfl hr (hasPlainStrings_of_atom rfl nofun) rfl
  | _ => cases h

/-! ### Rows and brackets -/

/-- A row of values is displayed, with blanks in between, as a text that is read into them again, or breaks off
if there are strings in them that are not plain. -/
structure SpellsAll (l : List Value) (text : String) : Prop where
  shown : ∃ depth texts, " ".intercalate texts = text ∧
    ∀ heap, l.mapM (displayWithin heap depth true) = some texts
  solid : l ≠ [] → StartsSolid text.toList
  adds : (∀ v ∈ l, v.HasPlainStrings) → Adds text.toList (l.map withoutLines)
  breaks : (¬ ∀ v ∈ l, v.HasPlainStrings) → Breaks text.toList

theorem spellsAll_nil : SpellsAll [] "" where
  shown := ⟨0, [], rfl, fun _ => rfl⟩
  solid h := absurd rfl h
  adds _ := adds_nil
  breaks h := absurd nofun h

theorem Spells.singleton {s : String} (h : Spells v s) : SpellsAll [v] s where
  shown := by
    obtain ⟨depth, hd⟩ := h.shown
    exact ⟨depth, [s], by simp, fun heap => by simp [hd heap]⟩
  solid _ := h.solid
  adds hp := h.adds (hp v List.mem_cons_self)
  breaks hp := h.breaks fun hv => hp fun w hw => List.mem_singleton.1 hw ▸ hv

theorem Spells.cons {s t : String} {w : Value} {l : List Value} (h : Spells v s)
    (hl : SpellsAll (w :: l) t) : SpellsAll (v :: w :: l) (s ++ " " ++ t) where
  shown := by
    obtain ⟨m, hs⟩ := h.shown
    obtain ⟨n, texts, rfl, ht⟩ := hl.shown
    refine ⟨max m n, s :: texts, ?_, fun heap => ?_⟩
    · have hne : texts ≠ [] := by
        rintro rfl
        have hnone := ht {}
        rw [List.mapM_cons] at hnone
        obtain ⟨_, _, hnone⟩ := Option.bind_eq_some_iff.1 hnone
        obtain ⟨_, _, hnone⟩ := Option.bind_eq_some_iff.1 hnone
        cases hnone
      obtain ⟨u, texts, rfl⟩ := List.exists_cons_of_ne_nil hne
      simp [String.append_assoc]
    · rw [List.mapM_cons, displayWithin_of_le (Nat.le_max_left m n) (hs heap),
        mapM_of_le (fun _ _ => displayWithin_of_le (Nat.le_max_right m n)) (ht heap)]
      rfl
  solid _ := by
    simpa [List.append_assoc] using h.solid.append _
  adds hp := by
    obtain ⟨hv, hp⟩ := List.forall_mem_cons.1 hp
    have := (h.adds hv).append ((hl.adds hp).blank (hl.solid (List.cons_ne_nil _ _)))
    simpa using this
  breaks hp := by
    have hsolid := hl.solid (List.cons_ne_nil _ _)
    by_cases hv : v.HasPlainStrings
    · have hrest : ¬ ∀ u ∈ w :: l, u.HasPlainStrings := fun hrest =>
        hp (List.forall_mem_cons.2 ⟨hv, hrest⟩)
      simpa using (h.adds hv).breaks ((hl.breaks hrest).blank hsolid)
    · simpa [List.append_assoc] using (h.breaks hv).append (' ' :: t.toList)

theorem exists_spellsAll : {l : List Value} → (∀ v ∈ l, Legible v) → ∃ text, SpellsAll l text
  | [], _ => ⟨"", spellsAll_nil⟩
  | [v], h =>
    let ⟨_, hs⟩ := h v List.mem_cons_self
    ⟨_, hs.singleton⟩
  | _ :: _ :: _, h =>
    let ⟨hv, hl⟩ := List.forall_mem_cons.1 h
    let ⟨_, hs⟩ := hv
    let ⟨_, ht⟩ := exists_spellsAll hl
    ⟨_, hs.cons ht⟩

theorem displayWithin_ofBracket (b : Bracket) {l : List Value} {heap : Heap} {depth : Nat}
    {texts : List String} (nested : Bool)
    (h : (l.filter (!·.isNewline)).mapM (displayWithin heap depth true) = some texts) :
    (ofBracket b l).displayWithin heap (depth + 1) nested =
      some (String.ofList (bracketed b (" ".intercalate texts).toList)) := by
  cases b <;>
    simp [ofBracket, displayWithin, h, bracketed, openingChar, closingChar, toString,
      ← String.toList_inj]

theorem withoutLines_ofBracket (b : Bracket) (l : List Value) :
    (ofBracket b l).withoutLines = ofBracket b ((l.filter (!·.isNewline)).map withoutLines) := by
  rw [← withoutLinesAll_eq]
  cases b <;> rfl

/-- Brackets around legible values are legible, whatever lines they are written on. -/
theorem Legible.ofBracket (b : Bracket) {l : List Value}
    (h : ∀ v ∈ l, v.isNewline = false → Legible v) : Legible (ofBracket b l) := by
  have hl : ∀ v ∈ l.filter (!·.isNewline), Legible v := fun v hv =>
    let ⟨hmem, hline⟩ := List.mem_filter.1 hv; h v hmem (by simpa using hline)
  have hplain : (Value.ofBracket b l).HasPlainStrings ↔
      ∀ v ∈ l.filter (!·.isNewline), v.HasPlainStrings := by
    rw [hasPlainStrings_ofBracket]
    refine ⟨fun hp v hv => hp v (List.mem_of_mem_filter hv), fun hp v hv => ?_⟩
    cases hline : v.isNewline with
    | false => exact hp v (List.mem_filter.2 ⟨hv, by simp [hline]⟩)
    | true =>
      cases v with
      | newline => exact hasPlainStrings_of_atom rfl nofun
      | _ => cases hline
  obtain ⟨text, hs⟩ := exists_spellsAll hl
  refine ⟨String.ofList (bracketed b text.toList), ?_, ?_, fun hp => ?_, fun hp => ?_⟩
  · obtain ⟨depth, texts, rfl, ht⟩ := hs.shown
    exact ⟨depth + 1, fun heap => displayWithin_ofBracket b true (ht heap)⟩
  · rw [String.toList_ofList]
    exact startsSolid_bracketed b _
  · rw [String.toList_ofList, withoutLines_ofBracket]
    exact (hs.adds (hplain.1 hp)).bracketed b
  · rw [String.toList_ofList]
    exact (hs.breaks (mt hplain.2 hp)).bracketed b

/-! ## What is read is legible -/

/-- An item is a line marker, has a floating point number in it, or is legible. -/
def IsFair (v : Value) : Prop := v.isNewline = false → v.HasNoFloating → Legible v

/-- **Lexemes yield fair items.** -/
theorem Yields.isFair {n m : Nat} {l : List Lexeme} {items : List Value} (h : Yields n l items m)
    (hl : ∀ x ∈ l, IsLexeme x.text x.result) : ∀ v ∈ items, IsFair v := by
  induction h with
  | nil => exact nofun
  | skip _ _ _ ih => exact ih (List.forall_mem_cons.1 hl).2
  | line _ _ ih => exact List.forall_mem_cons.2 ⟨nofun, ih (List.forall_mem_cons.1 hl).2⟩
  | value hx hv _ ih =>
    obtain ⟨hform, hl⟩ := List.forall_mem_cons.1 hl
    have hshaped := IsLexeme.isShaped (hx ▸ hform)
    exact List.forall_mem_cons.2 ⟨fun _ => legible_valueOf hv hshaped, ih hl⟩
  | bracket b _ _ _ _ ihInner ihRest =>
    obtain ⟨-, hl⟩ := List.forall_mem_cons.1 hl
    obtain ⟨hinner, hl⟩ := List.forall_mem_append.1 hl
    refine List.forall_mem_cons.2 ⟨fun _ hf => .ofBracket b fun v hv hline => ?_, ?_⟩
    · exact ihInner hinner v hv hline (hf.of_mem hv)
    · exact ihRest (List.forall_mem_cons.1 hl).2

end Reading

/-! ## Reading displayed code -/

open Reading

theorem isFair_of_readSource {source : String} {items : List Value}
    (h : readSource source = .ok items) : ∀ v ∈ items, IsFair v := by
  obtain ⟨line, hl⟩ := yields_of_readSource h
  exact hl.isFair fun _ => isLexeme_of_mem_lexemes

theorem readSource_of_adds {text : String} {v : Value} (h : Adds text.toList [v]) :
    readSource text = .ok [v] := by
  obtain ⟨start, names, hs⟩ := h [] isBoundary_nil 0 {}
  rw [List.append_nil] at hs
  rw [readSource, lexemes, hs]
  rfl

theorem readSource_of_breaks {text : String} (h : Breaks text.toList) :
    ∃ e, readSource text = .error e := by
  obtain ⟨r, e, hs⟩ := h [] 0 {}
  rw [List.append_nil] at hs
  exact ⟨e, by rw [readSource, lexemes, hs]⟩

/-- **Displayed code is read back.** If a source text is read into a block without floating point numbers,
the text that the block is displayed as is read into the block without its line markers, if all strings in it
are plain, and cannot be read otherwise. -/
theorem displayed_block_is_read {source : String} {items : List Value}
    (h : readSource source = .ok items) (hf : (block items false).HasNoFloating) :
    ∃ text, (∃ depth, ∀ heap, display? heap depth (block items false) = some text) ∧
      ((block items false).HasPlainStrings →
        readSource text = .ok [(block items false).withoutLines]) ∧
      (¬ (block items false).HasPlainStrings → ∃ e, readSource text = .error e) := by
  have hitems : ∀ v ∈ items, v.isNewline = false → Legible v := fun v hv hline =>
    isFair_of_readSource h v hv hline (HasNoFloating.of_mem (b := .block) hf hv)
  obtain ⟨text, hs⟩ := Legible.ofBracket .block hitems
  refine ⟨text, ?_, fun hp => readSource_of_adds (hs.adds hp), fun hp => readSource_of_breaks (hs.breaks hp)⟩
  obtain ⟨depth, hd⟩ := hs.shown
  cases depth with
  | zero => cases hd {}
  | succ depth => exact ⟨depth + 1, hd⟩

/-- A block on two lines, with a string and a bracket in it. -/
theorem displayed_block_is_read_lines :
    let items : List Value := [.label "x", .string "a\n", newline 2, inline [.attr "c"]]
    (readSource "x: \"a\n\" ; first\n(.c)" = .ok items ∧ (block items false).HasNoFloating) ∧
      ∃ text, (∃ depth, ∀ heap, display? heap depth (block items false) = some text) ∧
        readSource text = .ok [block [.label "x", .string "a\n", inline [.attr "c"]] false] := by
  intro items
  have hread : readSource "x: \"a\n\" ; first\n(.c)" = .ok items := rfl
  have hf : (block items false).HasNoFloating := by
    refine hasNoFloating_ofBracket (b := .block) fun v hv => ?_
    simp only [items, List.mem_cons, List.not_mem_nil, or_false] at hv
    rcases hv with rfl | rfl | rfl | rfl
    case inr.inr.inr =>
      refine hasNoFloating_ofBracket (b := .inline) fun v hv => ?_
      exact List.mem_singleton.1 hv ▸ hasNoFloating_of_atom rfl nofun
    all_goals exact hasNoFloating_of_atom rfl nofun
  have hp : (block items false).HasPlainStrings := by
    refine (hasPlainStrings_ofBracket (b := .block)).2 fun v hv => ?_
    simp only [items, List.mem_cons, List.not_mem_nil, or_false] at hv
    rcases hv with rfl | rfl | rfl | rfl
    case inr.inl =>
      have hchars : "a\n".toList = ['a', '\n'] := rfl
      rw [hasPlainStrings_string, hchars]
      exact List.forall_mem_cons.2 ⟨.inl (by decide +kernel), List.forall_mem_singleton.2 (.inr (.inl rfl))⟩
    case inr.inr.inr =>
      refine (hasPlainStrings_ofBracket (b := .inline)).2 fun v hv => ?_
      exact List.mem_singleton.1 hv ▸ hasPlainStrings_of_atom rfl nofun
    all_goals exact hasPlainStrings_of_atom rfl nofun
  obtain ⟨text, hd, hplain, -⟩ := displayed_block_is_read hread hf
  exact ⟨⟨hread, hf⟩, text, hd, hplain hp⟩

/-- A string may hold a character that is displayed by an escape that the lexer does not know. -/
theorem displayed_string_is_not_read :
    let items : List Value := [.string "\x00"]
    readSource "\"\x00\"" = .ok items ∧ (block items false).HasNoFloating ∧
      ∃ text, (∀ heap, display? heap 2 (block items false) = some text) ∧
        ∃ e, readSource text = .error e := by
  intro items
  refine ⟨rfl, hasNoFloating_ofBracket (b := .block) ?_, "[\"\\0\"]", fun _ => rfl, _, rfl⟩
  exact fun v hv => List.mem_singleton.1 hv ▸ hasNoFloating_of_atom rfl nofun

end BlockLang
