import BlockLang.Proofs.Reading.Items
import BlockLang.Proofs.Reading.Tiling

/-!
# Line markers

The reader counts the line breaks that are tokens. A line break in a string is a character of that string, so it
begins a line of the source text without being counted.

**Theorem (`readSource_lines`).** The items of a source text, brackets left out, are in order what its lexemes stand
for. The marker for a line break has the number of the line that begins behind it, less the line breaks in the strings
in front of it (`Reading.StandsFor`). A line break in no string has its marker.

So markers are right up to the first string that goes on over several lines, and too small from there on
(`line_in_string_uncounted`).

- A token with a line break in it is the line break itself or a string (`Token.IsLexeme.newline_not_mem`); comments
  stop in front of it.
- The line breaks of the source text are those of its lexemes, one lexeme after the other
  (`Token.Lexed.lineBreaksFrom_eq`). So the ones up to some token are the ones in the lexemes in front
  (`Token.Lexed.countP_breaks`).
-/

namespace BlockLang

/-! ## Line breaks of a text -/

/-- The offsets of the line breaks in a text that begins at offset `start`. -/
def lineBreaksFrom (start : Nat) : List Char → List Nat
  | [] => []
  | c :: l =>
    let rest := lineBreaksFrom (start + c.utf8Size) l
    if c = '\n' then start :: rest else rest

/-- The offsets of the line breaks in a source text. -/
def lineBreaks (source : String) : List Nat := lineBreaksFrom 0 source.toList

/-- The number of the line that begins behind the line break at offset `p`. -/
def lineBehind (source : String) (p : Nat) : Nat := 1 + (lineBreaks source).countP (· ≤ p)

section

variable {start p : Nat} {l : List Char}

theorem lineBreaksFrom_append (start : Nat) (a b : List Char) :
    lineBreaksFrom start (a ++ b) = lineBreaksFrom start a ++ lineBreaksFrom (start + byteLength a) b := by
  induction a generalizing start with
  | nil => rfl
  | cons c a ih =>
    have hlength : start + byteLength (c :: a) = start + c.utf8Size + byteLength a := (Nat.add_assoc ..).symm
    rw [List.cons_append, lineBreaksFrom, lineBreaksFrom, ih, hlength]
    split <;> rfl

theorem mem_lineBreaksFrom : p ∈ lineBreaksFrom start l ↔
    ∃ a b, l = a ++ '\n' :: b ∧ p = start + byteLength a := by
  induction l generalizing start with
  | nil => simp [lineBreaksFrom]
  | cons c l ih =>
    have hrest : p ∈ lineBreaksFrom (start + c.utf8Size) l ↔
        ∃ a b, c :: l = c :: a ++ '\n' :: b ∧ p = start + byteLength (c :: a) := by
      rw [ih]
      simp [byteLength, Nat.add_assoc]
    have hfirst : (∃ a b, c :: l = a ++ '\n' :: b ∧ p = start + byteLength a) ↔
        (c = '\n' ∧ p = start) ∨ p ∈ lineBreaksFrom (start + c.utf8Size) l := by
      rw [hrest]
      constructor
      · rintro ⟨a, b, heq, hp⟩
        cases a with
        | nil => exact .inl ⟨(List.cons.inj heq).1, hp⟩
        | cons d a =>
          obtain rfl := (List.cons.inj heq).1
          exact .inr ⟨a, b, heq, hp⟩
      · rintro (⟨rfl, hp⟩ | ⟨a, b, heq, hp⟩)
        · exact ⟨[], l, rfl, hp⟩
        · exact ⟨c :: a, b, heq, hp⟩
    rw [hfirst, lineBreaksFrom]
    split
    · next hc => simp [hc]
    · next hc => simp [hc]

theorem lineBreaksFrom_eq_nil (h : '\n' ∉ l) : lineBreaksFrom start l = [] := by
  refine List.eq_nil_iff_forall_not_mem.2 fun p hp => ?_
  obtain ⟨a, b, rfl, -⟩ := mem_lineBreaksFrom.1 hp
  exact h (by simp)

theorem bounds_of_mem_lineBreaksFrom (h : p ∈ lineBreaksFrom start l) : start ≤ p ∧ p < start + byteLength l := by
  obtain ⟨a, b, rfl, rfl⟩ := mem_lineBreaksFrom.1 h
  have hpos : 0 < byteLength ('\n' :: b) := byteLength_pos (List.cons_ne_nil _ _)
  rw [byteLength_append]
  omega

end

namespace Token

open Reading (isLineEnd)

/-- The line breaks that a lexeme covers. -/
def breaks (x : Lexeme) : List Nat := lineBreaksFrom x.start x.text

def isString (x : Lexeme) : Bool := x.result matches .ok (.string _)

/-- The line breaks in the strings of a source text. -/
def stringBreaks (source : String) : List Nat := ((lexemes source).filter isString).flatMap breaks

variable {start : Nat} {l : List Char} {xs before after : List Lexeme} {x : Lexeme} {token : Token}

theorem newline_not_mem_of_isPathChar (h : ∀ c ∈ l, IsPathChar c) : '\n' ∉ l := by
  intro hmem
  have hchar := h _ hmem
  unfold IsPathChar at hchar
  revert hchar
  decide

/-- No other token has a line break in it. -/
theorem IsLexeme.newline_not_mem (h : IsLexeme l (.ok token)) (hline : token ≠ .lineEnd)
    (hstring : ∀ s, token ≠ .string s) : '\n' ∉ l := by
  intro hmem
  cases h with
  | blank hc hl =>
    rcases List.mem_cons.1 hmem with rfl | hmem
    · cases hc
    · cases hl _ hmem
  | lineEnd => exact hline rfl
  | comment hl =>
    rcases List.mem_cons.1 hmem with heq | hmem
    · cases heq
    · exact hl _ hmem rfl
  | string => exact hstring _ rfl
  | integer hd => cases hd.digits _ hmem
  | floating hw hf =>
    rcases List.mem_append.1 hmem with hmem | hmem
    · cases hw.digits _ hmem
    · rcases List.mem_cons.1 hmem with heq | hmem
      · cases heq
      · cases hf.digits _ hmem
  | word hn | label hn | literal hn | attr hn | attrLabel hn | path hn | pathLabel hn =>
    have hpath := newline_not_mem_of_isPathChar hn.isPathChar
    simp [hpath] at hmem
  | @symbol _ s hs =>
    subst hs
    cases s <;> revert hmem <;> decide
  | _ => revert hmem; decide

/-- The line breaks of a text are those of its lexemes. -/
theorem Lexed.lineBreaksFrom_eq (h : Lexed start l xs) : lineBreaksFrom start l = xs.flatMap breaks := by
  induction h with
  | nil => rfl
  | cons _ _ _ ih => rw [← List.cons_append, lineBreaksFrom_append, ih, List.flatMap_cons, breaks]

theorem breaks_of_lineEnd (h : IsLexeme x.text x.result) (hx : x.result = .ok .lineEnd) : breaks x = [x.start] := by
  rw [hx] at h
  generalize ht : x.text = l at h
  cases h with
  | lineEnd =>
    rw [breaks, ht]
    rfl

theorem length_breaks (h : IsLexeme x.text x.result) (hx : x.result = .ok token) :
    (breaks x).length = (if isLineEnd x then 1 else 0) + if isString x then (breaks x).length else 0 := by
  cases token with
  | lineEnd => simp [breaks_of_lineEnd h hx, isLineEnd, isString, hx]
  | string => simp [isLineEnd, isString, hx]
  | _ =>
    have hnone : breaks x = [] := lineBreaksFrom_eq_nil ((hx ▸ h).newline_not_mem nofun nofun)
    simp [hnone, isLineEnd, isString, hx]

/-- The line breaks in a row of tokens are counted, or are in strings. -/
theorem length_flatMap_breaks (h : ∀ x ∈ xs, IsLexeme x.text x.result)
    (hok : ∀ x ∈ xs, ∃ token, x.result = .ok token) :
    (xs.flatMap breaks).length = xs.countP isLineEnd + ((xs.filter isString).flatMap breaks).length := by
  induction xs with
  | nil => rfl
  | cons x xs ih =>
    obtain ⟨hform, h⟩ := List.forall_mem_cons.1 h
    obtain ⟨⟨token, hx⟩, hok⟩ := List.forall_mem_cons.1 hok
    have ih := ih h hok
    have hlength := length_breaks hform hx
    rw [List.flatMap_cons, List.length_append, List.countP_cons]
    by_cases hs : isString x
    · rw [if_pos hs] at hlength
      rw [List.filter_cons_of_pos hs, List.flatMap_cons, List.length_append]
      omega
    · rw [if_neg hs] at hlength
      rw [List.filter_cons_of_neg hs]
      omega

/-- The line breaks in the selected lexemes up to some line break. -/
theorem Lexed.countP_breaks (h : Lexed start l (before ++ x :: after)) (hx : breaks x = [x.start])
    (f : Lexeme → Bool) :
    (((before ++ x :: after).filter f).flatMap breaks).countP (· ≤ x.start) =
      ((before.filter f).flatMap breaks).length + if f x then 1 else 0 := by
  -- Lexemes do not overlap: those in front end before the line break, and those behind begin after it.
  obtain ⟨-, hafter, hbefore⟩ := List.pairwise_append.1 h.pairwise
  obtain ⟨hafter, -⟩ := List.pairwise_cons.1 hafter
  have hlt := h.start_lt_stop (x := x) (by simp)
  have hall : ((before.filter f).flatMap breaks).countP (· ≤ x.start) =
      ((before.filter f).flatMap breaks).length := by
    refine List.countP_eq_length.2 fun p hp => ?_
    obtain ⟨y, hy, hp⟩ := List.mem_flatMap.1 hp
    have hstop := hbefore y (List.mem_of_mem_filter hy) x List.mem_cons_self
    have hbounds := bounds_of_mem_lineBreaksFrom hp
    exact decide_eq_true (hbounds.2.le.trans hstop)
  have hnone : ((after.filter f).flatMap breaks).countP (· ≤ x.start) = 0 := by
    refine List.countP_eq_zero.2 fun p hp => ?_
    obtain ⟨y, hy, hp⟩ := List.mem_flatMap.1 hp
    have hstart := hafter y (List.mem_of_mem_filter hy)
    have hbounds := bounds_of_mem_lineBreaksFrom hp
    simp only [decide_eq_true_eq]
    omega
  rw [List.filter_append, List.flatMap_append, List.countP_append, hall, List.filter_cons]
  split
  · rw [List.flatMap_cons, List.countP_append, hnone, hx]
    simp
  · rw [hnone]

end Token

namespace Reading

open Token

/-- The leaf stands for the lexeme: a marker for a line break, any other value for its token. The number of a marker and
the line breaks in strings up to there make up the number of the line that begins behind the line break. -/
inductive StandsFor (source : String) : Value → Lexeme → Prop
  | line {n : Nat} {x : Lexeme} : x.result = .ok .lineEnd → x.start ∈ lineBreaks source →
      n + (stringBreaks source).countP (· ≤ x.start) = lineBehind source x.start → StandsFor source (.newline n) x
  | value {v : Value} {x : Lexeme} {token : Token} : x.result = .ok token → valueOf? token = some v →
      StandsFor source v x

/-- The lexeme stands for a leaf. -/
def isLeaf (x : Lexeme) : Bool := (leafOn? 1 x).isSome

variable {source : String} {before after : List Lexeme} {x : Lexeme}

theorem standsFor_line (hok : ∀ x ∈ lexemes source, ∃ token, x.result = .ok token)
    (hsplit : lexemes source = before ++ x :: after) (hx : x.result = .ok .lineEnd) :
    StandsFor source (.newline (1 + before.countP isLineEnd + 1)) x := by
  have h := lexed_lexemes source
  have hform := h.isLexeme
  rw [hsplit] at h hok hform
  have hbreaks := breaks_of_lineEnd (hform x (by simp)) hx
  have hall : lineBreaks source = (before ++ x :: after).flatMap breaks := h.lineBreaksFrom_eq
  have hstring : isString x = false := by rw [isString, hx]
  have htotal := h.countP_breaks hbreaks fun _ => true
  have hstrings := h.countP_breaks hbreaks isString
  have hbefore := length_flatMap_breaks (fun y hy => hform y (List.mem_append_left _ hy))
    fun y hy => hok y (List.mem_append_left _ hy)
  rw [List.filter_true, List.filter_true, if_pos rfl] at htotal
  rw [hstring, if_neg Bool.false_ne_true] at hstrings
  -- Up to the line break there are just the line breaks of the lexemes in front of it, and itself.
  refine .line hx ?_ ?_
  · rw [hall]
    exact List.mem_flatMap.2 ⟨x, by simp, by simp [hbreaks]⟩
  · rw [lineBehind, hall, stringBreaks, hsplit, htotal, hstrings, hbefore]
    omega

/-- What a lexeme stands for, behind the lexemes in front of it. -/
theorem standsFor_leafOn (hok : ∀ x ∈ lexemes source, ∃ token, x.result = .ok token)
    (hsplit : lexemes source = before ++ x :: after) :
    List.Forall₂ (StandsFor source) (leafOn? (1 + before.countP isLineEnd) x).toList ([x].filter isLeaf) := by
  obtain ⟨token, hx⟩ := hok x (by simp [hsplit])
  by_cases ht : token = .lineEnd
  · subst ht
    have hleaf (n : Nat) : leafOn? n x = some (.newline (n + 1)) := by
      unfold leafOn?
      rw [hx]
    rw [hleaf, List.filter_cons_of_pos (by simp [isLeaf, hleaf])]
    exact .cons (standsFor_line hok hsplit hx) .nil
  · have hleaf := leafOn?_eq hx ht
    rw [hleaf]
    cases hv : valueOf? token with
    | none =>
      rw [List.filter_cons_of_neg (by simp [isLeaf, hleaf, hv])]
      exact .nil
    | some v =>
      rw [List.filter_cons_of_pos (by simp [isLeaf, hleaf, hv])]
      exact .cons (.value hx hv) .nil

theorem standsFor_leavesFrom (hok : ∀ x ∈ lexemes source, ∃ token, x.result = .ok token) {xs : List Lexeme}
    (hsplit : lexemes source = before ++ xs) :
    List.Forall₂ (StandsFor source) (leavesFrom (1 + before.countP isLineEnd) xs) (xs.filter isLeaf) := by
  induction xs generalizing before with
  | nil => exact .nil
  | cons x xs ih =>
    have hnext : lexemes source = before ++ [x] ++ xs := by rw [hsplit, List.append_assoc, List.singleton_append]
    have ih := ih hnext
    rw [List.countP_append, List.countP_singleton, ← Nat.add_assoc] at ih
    rw [leavesFrom, ← List.singleton_append, List.filter_append]
    exact List.rel_append (standsFor_leafOn hok hsplit) ih

end Reading

open Token

/-- **The number of a marker is that of the line behind its line break, less the line breaks in strings up to there.**
The items of a source text stand for its lexemes, in order and at whatever depth; and each line break of the source
text is in a string or has a marker. -/
theorem readSource_lines {source : String} {items : List Value} (h : readSource source = .ok items) :
    List.Forall₂ (Reading.StandsFor source) (Value.leavesAll items) ((lexemes source).filter Reading.isLeaf) ∧
    ∀ p ∈ lineBreaks source, p ∈ stringBreaks source ∨
      ∃ x ∈ (lexemes source).filter Reading.isLeaf, x.start = p ∧ x.result = .ok .lineEnd := by
  obtain ⟨line, hl⟩ := yields_of_readSource h
  refine ⟨?_, fun p hp => ?_⟩
  · rw [hl.leavesAll_eq.1]
    have hwhole : lexemes source = [] ++ lexemes source := rfl
    exact Reading.standsFor_leavesFrom hl.exists_token hwhole
  · have hbreaks : lineBreaks source = (lexemes source).flatMap breaks := (lexed_lexemes source).lineBreaksFrom_eq
    rw [hbreaks] at hp
    obtain ⟨x, hx, hp⟩ := List.mem_flatMap.1 hp
    have hform := isLexeme_of_mem_lexemes hx
    obtain ⟨token, ht⟩ := hl.exists_token x hx
    cases token with
    | lineEnd =>
      rw [breaks_of_lineEnd hform ht, List.mem_singleton] at hp
      exact .inr ⟨x, List.mem_filter.2 ⟨hx, by simp [Reading.isLeaf, Reading.leafOn?, ht]⟩, hp.symm, ht⟩
    | string => exact .inl (List.mem_flatMap.2 ⟨x, List.mem_filter.2 ⟨hx, by simp [isString, ht]⟩, hp⟩)
    | _ =>
      rw [breaks, lineBreaksFrom_eq_nil ((ht ▸ hform).newline_not_mem nofun nofun)] at hp
      cases hp

/-- A string over two lines in brackets, and a comment. -/
theorem readSource_lines_nested :
    let source := "[a\n(\"b\nc\")] ; d\ne"
    let items : List Value := [.block [.word "a", .newline 2, .inline [.string "b\nc"]] false, .newline 3, .word "e"]
    readSource source = .ok items ∧
      List.Forall₂ (Reading.StandsFor source) (Value.leavesAll items) ((lexemes source).filter Reading.isLeaf) ∧
      lineBehind source 2 = 2 ∧ lineBehind source 15 = 4 :=
  ⟨rfl, (readSource_lines rfl).1, rfl, rfl⟩

/-- Behind a string over two lines the markers are too small: the one for the line break at byte 5 has number 2, though
line 3 begins there. -/
theorem line_in_string_uncounted :
    let source := "\"a\nb\"\nx"
    readSource source = .ok [.string "a\nb", .newline 2, .word "x"] ∧
      (lexemes source).filter Reading.isLineEnd = [⟨5, ['\n'], .ok .lineEnd⟩] ∧ lineBehind source 5 = 3 :=
  ⟨rfl, rfl, rfl⟩

end BlockLang
