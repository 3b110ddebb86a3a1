import BlockLang.Proofs.Reading.Spelling
import BlockLang.Text.Quoted

/-!
# Quoted strings

A string is displayed between quotes, with escapes that are more than those that the lexer knows.

**Theorem (`Token.found_string`, `Token.scan_quoted_of_not_plain`).** The quoted form of a string is found as
one piece. It is the string again exactly if the string is plain: all of its characters can be printed or are line
breaks, returns or tabs. For any other string the lexer reports an escape that it does not know.
-/

namespace BlockLang

namespace Text

/-- The quoted form of the character has no escape with a zero or a code point. -/
def IsPlain (c : Char) : Prop := isPrintable c ∨ c = '\n' ∨ c = '\r' ∨ c = '\t'

instance (c : Char) : Decidable (IsPlain c) := inferInstanceAs (Decidable (_ ∨ _))

/-- The characters that are written behind a backslash, with the characters that they stand for. -/
def escapes : List (Char × Char) :=
  [('"', '"'), ('\\', '\\'), ('n', '\n'), ('r', '\r'), ('t', '\t')]

/-- A character is quoted as itself, or by an escape that the lexer knows, or it is not plain and quoted by
one that the lexer does not know. -/
inductive Quotes (c : Char) : List Char → Prop
  | self : IsPlain c → c ≠ '"' → c ≠ '\\' → Quotes c [c]
  | escape {e : Char} : IsPlain c → (e, c) ∈ escapes → Quotes c ['\\', e]
  | unknown {e : Char} {more : List Char} : ¬ IsPlain c → e = '0' ∨ e = 'u' →
      (∀ d ∈ more, d ≠ '"' ∧ d ≠ '\\') → Quotes c ('\\' :: e :: more)

theorem ne_quote_of_mem_hexDigits (n : Nat) : ∀ d ∈ hexDigits n, d ≠ '"' ∧ d ≠ '\\' := by
  induction n using Nat.strong_induction_on with
  | _ n ih =>
    rw [hexDigits, Nat.toDigits_eq_if (by decide)]
    split
    · simp
    · next hle =>
      intro d hd
      rcases List.mem_append.1 hd with hd | hd
      · exact ih (n / 16) (by omega) d hd
      · obtain rfl := List.mem_singleton.1 hd
        simp

theorem quotes_quotedChar (c : Char) : Quotes c (quotedChar c) := by
  unfold quotedChar
  split
  · exact .escape (by decide) (by decide)
  · exact .escape (by decide) (by decide)
  · exact .escape (by decide) (by decide)
  · exact .escape (by decide) (by decide)
  · exact .escape (by decide) (by decide)
  · exact .unknown (by decide) (.inl rfl) (by simp)
  · next hquote hslash hline hreturn htab _ =>
    split
    · next hp => exact .self (.inl hp) hquote hslash
    · next hp =>
      refine .unknown ?_ (.inr rfl) fun d hd => ?_
      · rintro (h | h | h | h)
        · exact hp h
        · exact hline h
        · exact hreturn h
        · exact htab h
      · rcases List.mem_cons.1 hd with rfl | hd
        · decide
        rcases List.mem_append.1 hd with hd | hd
        · exact ne_quote_of_mem_hexDigits _ d hd
        · obtain rfl := List.mem_singleton.1 hd
          decide

/-- The body of a quoted string. -/
def body (s : String) : List Char := s.toList.flatMap quotedChar

theorem toList_quoted (s : String) : (quoted s).toList = '"' :: (body s ++ ['"']) := by
  simp [quoted, body]

end Text

namespace Token

open Text

variable {c : Char} {l q rest : List Char}

/-! ## The end of a string -/

theorem stringLength_of_ne (h : ∀ d ∈ q, d ≠ '"' ∧ d ≠ '\\') :
    stringLength false (q ++ l) = q.length + stringLength false l := by
  induction q with
  | nil => simp
  | cons d q ih =>
    obtain ⟨⟨hquote, hslash⟩, hq⟩ := List.forall_mem_cons.1 h
    rw [List.cons_append, stringLength.eq_def]
    dsimp only
    rw [if_neg (by decide), if_neg hquote, if_neg hslash, ih hq, List.length_cons]
    omega

/-- The lexer goes on behind the quoted form of a character. -/
theorem stringLength_quotes (h : Quotes c q) :
    stringLength false (q ++ l) = q.length + stringLength false l := by
  cases h with
  | self _ hquote hslash => exact stringLength_of_ne (by simp [hquote, hslash])
  | @escape e _ he =>
    have hne : e ≠ '\n' := by
      rintro rfl
      simp [escapes] at he
    exact stringLength_escape hne
  | @unknown e more _ he hmore =>
    have hne : e ≠ '\n' := by rcases he with rfl | rfl <;> decide
    rw [List.cons_append, List.cons_append, stringLength_escape hne, stringLength_of_ne hmore,
      List.length_cons, List.length_cons]
    omega

/-- The quoted form of a string is as long as the lexer takes it to be. -/
theorem stringLength_body (s : List Char) :
    stringLength false (s.flatMap quotedChar ++ '"' :: rest) = (s.flatMap quotedChar).length := by
  induction s with
  | nil => rfl
  | cons c s ih =>
    rw [List.flatMap_cons, List.append_assoc, stringLength_quotes (quotes_quotedChar c), ih,
      List.length_append]

/-! ## What a quoted string stands for -/

theorem unescape_cons (hc : c ≠ '\\') : unescape (c :: l) = (unescape l).map (c :: ·) := by
  rw [unescape]
  exact fun _ _ h _ => hc h

theorem unescape_escape {e : Char} (he : (e, c) ∈ escapes) :
    unescape ('\\' :: e :: l) = (unescape l).map (c :: ·) := by
  simp only [escapes, List.mem_cons, Prod.mk.injEq, List.not_mem_nil, or_false] at he
  rcases he with ⟨rfl, rfl⟩ | ⟨rfl, rfl⟩ | ⟨rfl, rfl⟩ | ⟨rfl, rfl⟩ | ⟨rfl, rfl⟩ <;> rw [unescape]

theorem unescape_unknown {e : Char} (he : e = '0' ∨ e = 'u') :
    unescape ('\\' :: e :: l) = .error (.unknownEscape e) := by
  rcases he with rfl | rfl <;> rw [unescape] <;> decide

/-- A plain string is what its quoted form stands for. -/
theorem unescape_body {s : List Char} (h : ∀ c ∈ s, IsPlain c) :
    unescape (s.flatMap quotedChar) = .ok s := by
  induction s with
  | nil => rfl
  | cons c s ih =>
    obtain ⟨hc, hs⟩ := List.forall_mem_cons.1 h
    rw [List.flatMap_cons]
    have hq := quotes_quotedChar c
    generalize quotedChar c = q at hq
    cases hq with
    | self _ _ hslash =>
      rw [List.singleton_append, unescape_cons hslash, ih hs]
      rfl
    | escape _ he =>
      rw [List.cons_append, List.singleton_append, unescape_escape he, ih hs]
      rfl
    | unknown hn => exact absurd hc hn

/-- The quoted form of any other string stands for nothing. -/
theorem unescape_body_of_not_plain {s : List Char} (h : ¬ ∀ c ∈ s, IsPlain c) :
    ∃ e, unescape (s.flatMap quotedChar) = .error (.unknownEscape e) := by
  induction s with
  | nil => exact absurd nofun h
  | cons c s ih =>
    rw [List.flatMap_cons]
    have hq := quotes_quotedChar c
    generalize quotedChar c = q at hq
    cases hq with
    | self hc _ hslash =>
      obtain ⟨e, he⟩ := ih fun hs => h (List.forall_mem_cons.2 ⟨hc, hs⟩)
      exact ⟨e, by rw [List.singleton_append, unescape_cons hslash, he]; rfl⟩
    | escape hc he =>
      obtain ⟨e, hs⟩ := ih fun hs => h (List.forall_mem_cons.2 ⟨hc, hs⟩)
      exact ⟨e, by rw [List.cons_append, List.singleton_append, unescape_escape he, hs]; rfl⟩
    | unknown _ he => exact ⟨_, by rw [List.cons_append, List.cons_append, unescape_unknown he]⟩

/-! ## Quoted strings in a text -/

theorem scan_quoted (s : String) (rest : List Char) :
    scan '"' (body s ++ ['"'] ++ rest) =
      ((unescape (body s)).map fun l => .string (String.ofList l), (body s ++ ['"']).length) := by
  have hlength : stringLength false (body s ++ ['"'] ++ rest) = (body s).length := by
    rw [List.append_assoc, List.singleton_append]
    exact stringLength_body s.toList
  have hend : (body s ++ ['"'] ++ rest)[(body s).length]? = some '"' := by simp
  have hscan : scan '"' (body s ++ ['"'] ++ rest) = ofString (body s ++ ['"'] ++ rest) := rfl
  rw [hscan, ofString, hlength, if_pos hend, List.append_assoc, List.take_left, List.length_append]
  rfl

theorem found_string {s : String} (h : ∀ c ∈ s.toList, IsPlain c) :
    Found (quoted s).toList (.string s) := by
  refine ⟨_, _, toList_quoted s, fun rest _ => ?_⟩
  rw [scan_quoted, body, unescape_body h]
  simp [Except.map]

theorem scan_quoted_of_not_plain {s : String} (h : ¬ ∀ c ∈ s.toList, IsPlain c) (rest : List Char) :
    ∃ e, scan '"' (body s ++ ['"'] ++ rest) =
      (.error (.unknownEscape e), (body s ++ ['"']).length) := by
  obtain ⟨e, he⟩ := unescape_body_of_not_plain h
  exact ⟨e, by rw [scan_quoted, body, he]; rfl⟩

end Token

end BlockLang
