import BlockLang.Proofs.Reading.Names

/-!
# What the lexer finds

The grammar of lexemes, and the proof that the lexer keeps to it.

`Token.IsLexeme` says which texts a token or an error may cover: the pattern of its kind for a token, and for an
error a single character, a number that is too big, a string with an escape that nothing stands for, or a
string without an end as far as its items are complete.

**Theorem (`Token.lexed_lexemes`).** Every lexeme of a source text has that form, stands where the one before it
ends, and is what the lexer finds in front of what is left of the text there. The number of characters that the
lexer counts never reaches beyond the end of the text (`Token.Finds`), so the texts of the lexemes put
together are the source text.
-/

namespace BlockLang

namespace Token

variable {l p q : List Char} {c : Char} {n slack : Nat}

/-! ## The forms of lexemes -/

def isBlankChar (c : Char) : Bool := c == ' ' || c == '\t' || c == '\r'

/-- Complete items of a string: characters, and backslashes with the character behind them. -/
inductive IsBody : List Char → Prop
  | nil : IsBody []
  | char {c : Char} {l : List Char} : c ≠ '"' → c ≠ '\\' → IsBody l → IsBody (c :: l)
  | escape {c : Char} {l : List Char} : c ≠ '\n' → IsBody l → IsBody ('\\' :: c :: l)

/-- The text that a token or an error may cover. -/
inductive IsLexeme : List Char → Except LexError Token → Prop
  | blank {c : Char} {l : List Char} : isBlankChar c → (∀ d ∈ l, isBlankChar d) → IsLexeme (c :: l) (.ok .blank)
  | lineEnd : IsLexeme ['\n'] (.ok .lineEnd)
  | comment {l : List Char} : (∀ c ∈ l, c ≠ '\n') → IsLexeme (';' :: l) (.ok .comment)
  | openBlock : IsLexeme ['['] (.ok .openBlock)
  | closeBlock : IsLexeme [']'] (.ok .closeBlock)
  | openInline : IsLexeme ['('] (.ok .openInline)
  | closeInline : IsLexeme [')'] (.ok .closeInline)
  | integer {l : List Char} {n : Int64} : IsDigits l → Numeral.word? l = some n → IsLexeme l (.ok (.integer n))
  | tooBig {l : List Char} : IsDigits l → Numeral.word? l = none → IsLexeme l (.error .numberTooBig)
  | floating {whole fraction : List Char} : IsDigits whole → IsDigits fraction →
      IsLexeme (whole ++ '.' :: fraction)
        (.ok (.floating (Numeral.nearest (whole ++ fraction) (-fraction.length))))
  | string {l s : List Char} : IsBody l → unescape l = .ok s →
      IsLexeme ('"' :: (l ++ ['"'])) (.ok (.string (String.ofList s)))
  | badEscape {l : List Char} {e : LexError} : IsBody l → unescape l = .error e →
      IsLexeme ('"' :: (l ++ ['"'])) (.error e)
  | unclosed {l : List Char} : IsBody l → IsLexeme ('"' :: l) (.error .invalid)
  | word {l : List Char} : IsName l → IsLexeme l (.ok (.word (String.ofList l)))
  | label {l : List Char} : IsName l → IsLexeme (l ++ [':']) (.ok (.label (String.ofList l)))
  | literal {l : List Char} : IsName l → IsLexeme ('\x27' :: l) (.ok (.literal (String.ofList l)))
  | attr {l : List Char} : IsName l → IsLexeme ('.' :: l) (.ok (.attr (String.ofList l)))
  | attrLabel {l : List Char} : IsName l → IsLexeme ('.' :: (l ++ [':'])) (.ok (.attrLabel (String.ofList l)))
  | path {l : List Char} {isOpen : Bool} : IsPath l isOpen → IsLexeme l (.ok (.path (String.ofList l)))
  | pathLabel {l : List Char} : IsPath l true → IsLexeme (l ++ [':']) (.ok (.pathLabel (String.ofList l)))
  | symbol {l : List Char} {s : Symbol} : s.text.toList = l → IsLexeme l (.ok (.symbol s))
  | stray (c : Char) : IsLexeme [c] (.error .invalid)

/-- A path keeps to the characters of paths. -/
theorem IsLexeme.isPathChar {token : Token} {text : String} (h : IsLexeme l (.ok token))
    (ht : token.path? = some text) : ∀ c ∈ text.toList, IsPathChar c := by
  cases h with
  | path hpath | pathLabel hpath =>
    cases ht
    rw [String.toList_ofList]
    exact hpath.isPathChar
  | _ => cases ht

theorem IsLexeme.ne_nil {result : Except LexError Token} (h : IsLexeme l result) : l ≠ [] := by
  cases h with
  | integer hd | tooBig hd => exact hd.ne_nil
  | word hn => exact hn.ne_nil
  | floating | label | pathLabel => simp
  | path hp =>
    obtain ⟨hn, -⟩ := hp
    exact List.append_ne_nil_of_left_ne_nil hn.ne_nil _
  | @symbol _ s hs =>
    subst hs
    cases s <;> decide
  | _ => exact List.cons_ne_nil _ _

/-- The match covers a lexeme in front of what is left of the text. -/
def Finds (c : Char) (l : List Char) (m : Match) : Prop :=
  ∃ p q, l = p ++ q ∧ m.2 = p.length ∧ IsLexeme (c :: p) m.1

/-! ## Pieces -/

theorem restOfPath_le (slack pending : Nat) (l : List Char) : (restOfPath slack pending l).1 ≤ l.length := by
  induction l generalizing slack pending with
  | nil => cases pending <;> simp [restOfPath]
  | cons c l ih =>
    cases pending with
    | succ pending => exact Nat.succ_le_succ (ih slack pending)
    | zero =>
      rw [restOfPath]
      split
      · split
        · simp
        · exact Nat.succ_le_succ (ih _ _)
      · simp

theorem segmentsLength_le (l : List Char) : (segmentsLength l).1 ≤ l.length := by
  unfold segmentsLength
  split
  · split
    · simp
    · exact Nat.succ_le_succ (restOfPath_le ..)
  · simp

theorem stringLength_char (hquote : c ≠ '"') (hslash : c ≠ '\\') :
    stringLength false (c :: l) = stringLength false l + 1 := by
  rw [stringLength.eq_def]
  dsimp only
  rw [if_neg (by decide), if_neg hquote, if_neg hslash, Nat.add_comm]

theorem stringLength_escape {e : Char} (he : e ≠ '\n') :
    stringLength false ('\\' :: e :: l) = 2 + stringLength false l := by
  rw [stringLength, if_neg (by decide), if_neg (by decide), if_pos rfl, if_neg he, stringLength.eq_def]
  dsimp only
  rw [if_pos rfl]
  omega

/-- What is counted off for a string are complete items. -/
theorem isBody_take (l : List Char) :
    IsBody (l.take (stringLength false l)) ∧ stringLength false l ≤ l.length := by
  match l with
  | [] => exact ⟨.nil, Nat.le_refl _⟩
  | c :: l =>
    by_cases hquote : c = '"'
    · subst hquote
      exact ⟨.nil, Nat.zero_le _⟩
    by_cases hslash : c = '\\'
    · subst hslash
      match l with
      | [] => exact ⟨.nil, Nat.zero_le _⟩
      | e :: l =>
        by_cases he : e = '\n'
        · subst he
          exact ⟨.nil, Nat.zero_le _⟩
        · obtain ⟨hbody, hle⟩ := isBody_take l
          rw [stringLength_escape he, Nat.add_comm]
          exact ⟨.escape he hbody, Nat.add_le_add_right hle 2⟩
    · obtain ⟨hbody, hle⟩ := isBody_take l
      rw [stringLength_char hquote hslash]
      exact ⟨.char hquote hslash hbody, Nat.succ_le_succ hle⟩
termination_by l.length

/-! ## One lexeme -/

namespace Finds

variable {token : Token} {result : Except LexError Token}

/-- A match of the characters up to some place. -/
theorem of_take (hn : n ≤ l.length) (h : IsLexeme (c :: l.take n) result) : Finds c l (result, n) :=
  ⟨l.take n, l.drop n, (List.take_append_drop n l).symm, (List.length_take_of_le hn).symm, h⟩

theorem single (h : IsLexeme [c] result) : Finds c l (result, 0) := ⟨[], l, rfl, rfl, h⟩

theorem takeWhile {p : Char → Bool} (h : IsLexeme (c :: l.takeWhile p) result) :
    Finds c l (result, (l.takeWhile p).length) :=
  ⟨_, l.dropWhile p, List.takeWhile_append_dropWhile.symm, rfl, h⟩

theorem ofNumber (hc : c.isDigit) : Finds c l (ofNumber c l) := by
  have htake : l.take (digitsLength l) = l.takeWhile Char.isDigit :=
    (List.prefix_iff_eq_take.1 (List.takeWhile_prefix _)).symm
  have hdigits : IsDigits (c :: l.take (digitsLength l)) :=
    ⟨List.cons_ne_nil _ _, List.forall_mem_cons.2 ⟨hc, htake ▸ fun _ => List.mem_takeWhile_imp⟩⟩
  have hle : digitsLength l ≤ l.length := (List.takeWhile_prefix _).length_le
  unfold Token.ofNumber
  extract_lets whole fraction digits all
  split
  · split
    · next n hn => exact .of_take hle (.integer hdigits hn)
    · next hn => exact .of_take hle (.tooBig hdigits hn)
  · next hfraction =>
    obtain ⟨rest, hrest, hlength⟩ : ∃ rest, l.drop whole = '.' :: rest ∧ fraction = digitsLength rest := by
      unfold fraction at hfraction ⊢
      split at hfraction
      · next rest hrest => exact ⟨rest, hrest, rfl⟩
      · exact absurd rfl hfraction
    obtain ⟨hpart, hle'⟩ := isDigits_take (hlength ▸ hfraction)
    have hl : l = l.take whole ++ '.' :: rest := by rw [← hrest, List.take_append_drop]
    have hafter : l.drop (whole + 1) = rest := by rw [← List.drop_drop, hrest, List.drop_succ_cons, List.drop_zero]
    have hall : all = (c :: l.take whole) ++ rest.take (digitsLength rest) := by
      unfold all digits
      rw [hafter, hlength]
    rw [hall, hlength]
    refine ⟨l.take whole ++ '.' :: rest.take (digitsLength rest), rest.drop (digitsLength rest), ?_, ?_, ?_⟩
    · rw [List.append_assoc, List.cons_append, List.take_append_drop, ← hl]
    · have hwhole : (l.take whole).length = whole := List.length_take_of_le hle
      rw [List.length_append, hwhole, List.length_cons, List.length_take_of_le hle']
      dsimp only
      omega
    · have hform := IsLexeme.floating hdigits hpart
      rwa [List.length_take_of_le hle'] at hform

theorem ofString : Finds '"' l (ofString l) := by
  obtain ⟨hbody, hle⟩ := isBody_take l
  unfold Token.ofString
  dsimp only
  generalize stringLength false l = n at hbody hle
  split
  · next hend =>
    have hlt : n < l.length := (List.getElem?_eq_some_iff.1 hend).1
    have htake : l.take (n + 1) = l.take n ++ ['"'] := by rw [List.take_add_one, hend, Option.toList_some]
    cases hs : unescape (l.take n) with
    | ok s => exact .of_take hlt (htake ▸ .string hbody hs)
    | error e => exact .of_take hlt (htake ▸ .badEscape hbody hs)
  · exact .of_take hle (.unclosed hbody)

theorem ofLiteral : Finds '\x27' l (ofLiteral l) := by
  unfold Token.ofLiteral
  split
  · exact .single (.stray _)
  · next hname =>
    obtain ⟨hn, hle⟩ := isName_take hname
    exact .of_take hle (.literal hn)

theorem ofPoint : Finds '.' l (ofPoint l) := by
  unfold Token.ofPoint
  split
  · split
    · next hpoint =>
      obtain ⟨tail, rfl⟩ := List.head?_eq_some_iff.1 hpoint
      exact ⟨['.'], tail, rfl, rfl, .symbol rfl⟩
    · exact .single (.stray _)
  · next hname =>
    obtain ⟨hn, hle⟩ := isName_take hname
    dsimp only
    split
    · next hcolon =>
      have hlt := (List.getElem?_eq_some_iff.1 hcolon).1
      have htake : l.take (nameLength l + 1) = l.take (nameLength l) ++ [':'] := by
        rw [List.take_add_one, hcolon, Option.toList_some]
      exact .of_take hlt (htake ▸ .attrLabel hn)
    · exact .of_take hle (.attr hn)

theorem ofName (hc : isNameStart c) : Finds c l (ofName c l) := by
  have hcons : nameLength (c :: l) = nameLength (c :: l) - 1 + 1 := by
    rw [nameLength, if_pos hc]
    dsimp only
    omega
  obtain ⟨hn, hle⟩ := isName_take (l := c :: l) (by omega)
  rw [hcons, List.take_succ_cons] at hn
  rw [hcons, List.length_cons] at hle
  unfold Token.ofName
  generalize nameLength (c :: l) - 1 = name at hn hle
  have hsegs := segmentsLength_le (l.drop name)
  rw [List.length_drop] at hsegs
  dsimp only
  generalize hall : segmentsLength (l.drop name) = found at hsegs
  obtain ⟨segs, isOpen⟩ := found
  dsimp only at hsegs ⊢
  have hn' : name + segs ≤ l.length := by omega
  have hcolon (h : (isOpen && l[name + segs]? == some ':') = true) :
      isOpen = true ∧ name + segs + 1 ≤ l.length ∧
        l.take (name + segs + 1) = l.take (name + segs) ++ [':'] := by
    obtain ⟨hopen, hcolon⟩ := Bool.and_eq_true_iff.1 h
    have hcolon : l[name + segs]? = some ':' := by simpa using hcolon
    exact ⟨hopen, (List.getElem?_eq_some_iff.1 hcolon).1, by rw [List.take_add_one, hcolon, Option.toList_some]⟩
  split
  · next hzero =>
    subst hzero
    split
    · next hlabel =>
      obtain ⟨-, hlt, htake⟩ := hcolon hlabel
      exact .of_take hlt (htake ▸ .label hn)
    · exact .of_take hn' (.word hn)
  · next hne =>
    obtain ⟨segments, htake, hsegments⟩ := exists_isSegments (l := l.drop name) (by rwa [hall])
    have hpath := IsPath.intro hn hsegments
    rw [← htake, hall, List.cons_append, ← List.take_add] at hpath
    split
    · next hlabel =>
      obtain ⟨hopen, hlt, htake⟩ := hcolon hlabel
      subst hopen
      exact .of_take hlt (htake ▸ .pathLabel hpath)
    · exact .of_take hn' (.path hpath)

theorem ofSymbol {longer : List (Char × Symbol)} (hsingle : IsLexeme [c] result)
    (hlonger : ∀ e ∈ longer, e.2.text.toList = [c, e.1]) : Finds c l (ofSymbol result longer l) := by
  unfold Token.ofSymbol
  split
  · exact .single hsingle
  · next d l =>
    split
    · next s hs =>
      obtain ⟨before, after, rfl, -⟩ := List.lookup_eq_some_iff.1 hs
      exact ⟨[d], l, rfl, rfl, .symbol (hlonger (d, s) (by simp))⟩
    · exact .single hsingle

end Finds

/-- **What the lexer finds is a lexeme.** -/
theorem finds_scan (c : Char) (l : List Char) : Finds c l (scan c l) := by
  unfold Token.scan
  dsimp only
  split
  case h_29 =>
    split
    · exact .ofNumber ‹_›
    · split
      · exact .ofName ‹_›
      · exact .single (.stray c)
  all_goals first
    | exact .takeWhile (.blank (by decide) fun _ => List.mem_takeWhile_imp)
    | exact .single .lineEnd
    | exact .takeWhile (.comment fun d hd => by simpa using List.mem_takeWhile_imp hd)
    | exact .ofString
    | exact .ofLiteral
    | exact .ofPoint
    | exact .ofSymbol (.symbol rfl) (by decide)
    | exact .ofSymbol (.stray _) (by decide)
    | exact .single (.symbol rfl)
    | exact .single .openBlock
    | exact .single .closeBlock
    | exact .single .openInline
    | exact .single .closeInline

/-! ## All lexemes -/

/-- The lexemes of a text that begins at offset `start`: each of them is what the lexer finds in front of the rest of
the text. -/
inductive Lexed : (start : Nat) → List Char → List Lexeme → Prop
  | nil {start : Nat} : Lexed start [] []
  | cons {start : Nat} {c : Char} {p q : List Char} {result : Except LexError Token} {rest : List Lexeme} :
      scan c (p ++ q) = (result, p.length) → IsLexeme (c :: p) result →
      Lexed (start + byteLength (c :: p)) q rest →
      Lexed start (c :: (p ++ q)) (⟨start, c :: p, result⟩ :: rest)

theorem lexemesFrom_pending (p q : List Char) (start : Nat) :
    lexemesFrom start p.length (p ++ q) = lexemesFrom (start + byteLength p) 0 q := by
  induction p generalizing start with
  | nil => rfl
  | cons c p ih =>
    rw [List.length_cons, List.cons_append, lexemesFrom, ih, Nat.add_assoc]
    rfl

/-- A piece that the lexer finds is its first lexeme. -/
theorem lexemesFrom_of_scan {result : Except LexError Token} (h : scan c (p ++ q) = (result, p.length))
    (start : Nat) : lexemesFrom start 0 (c :: (p ++ q)) =
      ⟨start, c :: p, result⟩ :: lexemesFrom (start + byteLength (c :: p)) 0 q := by
  rw [lexemesFrom, h]
  dsimp only
  rw [List.take_left, lexemesFrom_pending, Nat.add_assoc]
  rfl

theorem lexed_lexemesFrom (start : Nat) (l : List Char) : Lexed start l (lexemesFrom start 0 l) := by
  match l with
  | [] => exact .nil
  | c :: l =>
    obtain ⟨p, q, rfl, hlength, hform⟩ := finds_scan c l
    have hscan : scan c (p ++ q) = ((scan c (p ++ q)).1, p.length) := Prod.ext rfl hlength
    rw [lexemesFrom_of_scan hscan]
    exact .cons hscan hform (lexed_lexemesFrom _ q)
termination_by l.length

/-- **The lexemes of a source text** are found one behind the other. -/
theorem lexed_lexemes (source : String) : Lexed 0 source.toList (lexemes source) := lexed_lexemesFrom ..

theorem Lexed.isLexeme {start : Nat} {lexemes : List Lexeme} (h : Lexed start l lexemes) :
    ∀ x ∈ lexemes, IsLexeme x.text x.result := by
  induction h with
  | nil => exact nofun
  | cons _ hform _ ih => exact List.forall_mem_cons.2 ⟨hform, ih⟩

theorem isLexeme_of_mem_lexemes {source : String} {x : Lexeme} (h : x ∈ lexemes source) :
    IsLexeme x.text x.result := (lexed_lexemes source).isLexeme x h

end Token

end BlockLang
