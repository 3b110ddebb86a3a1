import BlockLang.Proofs.Reading.Longest
import Mathlib.Data.List.Chain
import Mathlib.Data.String.Basic

/-!
# Lexemes tile the source text

**Theorem (`Token.lexemes_tile`).** The lexemes of a source text, errors among them, cover it from its first byte to
its last: none is empty, each begins where the one before it ends, on a boundary between two characters, and holds
what the source text has there (`Token.Tiles`). So lexing ends, after no more lexemes than there are characters, and
no character is passed over or read twice. Each lexeme is the longest one there is at its place (`Token.IsLongest`).

What carries this is `Token.Lexed`: the lexemes from some place on tell how the rest of the text is cut into pieces
(`Lexed.texts`), and a lexeme begins as many bytes behind that place as the ones in front of it have
(`Lexed.start_eq`).
-/

namespace BlockLang

theorem byteLength_eq_utf8Len (l : List Char) : byteLength l = String.utf8Len l := by
  induction l with
  | nil => rfl
  | cons c l ih => rw [String.utf8Len_cons, ← ih, Nat.add_comm]; rfl

@[simp] theorem byteLength_append (l l' : List Char) : byteLength (l ++ l') = byteLength l + byteLength l' := by
  simp [byteLength_eq_utf8Len]

@[simp] theorem byteLength_toList (s : String) : byteLength s.toList = s.utf8ByteSize := by
  rw [byteLength_eq_utf8Len, String.utf8Len_toList]

theorem byteLength_pos {l : List Char} (h : l ≠ []) : 0 < byteLength l := by
  rw [byteLength_eq_utf8Len, Nat.pos_iff_ne_zero]
  exact mt String.utf8Len_eq_zero.1 h

namespace Token

variable {start : Nat} {l : List Char} {xs before after : List Lexeme} {x : Lexeme}

/-! ## A row of lexemes -/

namespace Lexed

/-- The texts of the lexemes make up the whole text. -/
theorem texts (h : Lexed start l xs) : xs.flatMap Lexeme.text = l := by
  induction h with
  | nil => rfl
  | cons _ _ _ ih => rw [List.flatMap_cons, ih, List.cons_append]

theorem length_le (h : Lexed start l xs) : xs.length ≤ l.length := by
  induction h with
  | nil => exact Nat.le_refl _
  | cons _ _ _ ih =>
    rw [List.length_cons, List.length_cons, List.length_append]
    omega

theorem start_eq_of_head? (h : Lexed start l xs) (hx : x ∈ xs.head?) : x.start = start := by
  cases h with
  | nil => cases hx
  | cons =>
    cases hx
    rfl

theorem isChain (h : Lexed start l xs) : xs.IsChain fun x y => x.stop = y.start := by
  induction h with
  | nil => exact .nil
  | cons _ _ hrest ih => exact List.isChain_cons.2 ⟨fun y hy => (hrest.start_eq_of_head? hy).symm, ih⟩

theorem start_le (h : Lexed start l xs) : ∀ x ∈ xs, start ≤ x.start := by
  induction h with
  | nil => exact nofun
  | cons _ _ _ ih =>
    exact List.forall_mem_cons.2 ⟨Nat.le_refl _, fun x hx => (Nat.le_add_right _ _).trans (ih x hx)⟩

/-- Lexemes do not overlap. -/
theorem pairwise (h : Lexed start l xs) : xs.Pairwise fun x y => x.stop ≤ y.start := by
  induction h with
  | nil => exact .nil
  | cons _ _ hrest ih => exact .cons hrest.start_le ih

/-- A lexeme is the longest one in front of those behind it. -/
theorem isLongest (h : Lexed start l (before ++ x :: after)) :
    IsLongest x.text (after.flatMap Lexeme.text) x.result := by
  induction before generalizing start l with
  | nil =>
    cases h with
    | cons hscan hform hrest => exact hrest.texts.symm ▸ isLongest_of_scan hscan hform
  | cons y before ih =>
    cases h with
    | cons _ _ hrest => exact ih hrest

theorem start_lt_stop (h : Lexed start l xs) (hx : x ∈ xs) : x.start < x.stop :=
  Nat.lt_add_of_pos_right (byteLength_pos (h.isLexeme x hx).ne_nil)

/-- A lexeme begins where those in front of it end. -/
theorem start_eq (h : Lexed start l (before ++ x :: after)) :
    x.start = start + byteLength (before.flatMap Lexeme.text) := by
  induction before generalizing start l with
  | nil =>
    cases h
    rfl
  | cons y before ih =>
    cases h with
    | cons _ _ hrest => rw [ih hrest, List.flatMap_cons, byteLength_append, Nat.add_assoc]

/-- A lexeme with what is in front of it and what is behind it. -/
theorem exists_append (h : Lexed 0 l (before ++ x :: after)) :
    ∃ a, x.start = byteLength a ∧ x.stop = byteLength (a ++ x.text) ∧
      l = a ++ x.text ++ after.flatMap Lexeme.text := by
  have hstart := h.start_eq
  rw [Nat.zero_add] at hstart
  refine ⟨_, hstart, by rw [Lexeme.stop, hstart, byteLength_append], ?_⟩
  rw [← h.texts, List.flatMap_append, List.flatMap_cons, List.append_assoc]

end Lexed

/-! ## All lexemes of a source text -/

/-- The lexemes cover the source text, each byte of it once. -/
structure Tiles (source : String) (xs : List Lexeme) : Prop where
  /-- No lexeme is empty. -/
  nonempty : ∀ x ∈ xs, x.start < x.stop
  /-- A lexeme begins and ends on a boundary between characters. -/
  boundaries : ∀ x ∈ xs,
    String.Pos.Raw.IsValid source ⟨x.start⟩ ∧ String.Pos.Raw.IsValid source ⟨x.stop⟩
  /-- Its text stands there. -/
  text : ∀ x ∈ xs, String.Pos.Raw.extract source ⟨x.start⟩ ⟨x.stop⟩ = String.ofList x.text
  /-- The first one begins the source text. -/
  first : ∀ x ∈ xs.head?, x.start = 0
  /-- Each other one begins where the one before it ends. -/
  next : xs.IsChain fun x y => x.stop = y.start
  /-- The last one ends the source text. -/
  last : ∀ x ∈ xs.getLast?, x.stop = source.utf8ByteSize
  /-- Together they are the source text. -/
  texts : xs.flatMap Lexeme.text = source.toList

theorem isValid_byteLength {source : String} {a b : List Char} (h : source.toList = a ++ b) :
    String.Pos.Raw.IsValid source ⟨byteLength a⟩ := by
  refine String.Pos.Raw.isValid_iff_exists_append.2 ⟨String.ofList a, String.ofList b, ?_, ?_⟩
  · rw [← String.ofList_append, ← h, String.ofList_toList]
  · rw [String.rawEndPos_ofList, byteLength_eq_utf8Len]

theorem extract_byteLength {source : String} {a p b : List Char} (h : source.toList = a ++ p ++ b) :
    String.Pos.Raw.extract source ⟨byteLength a⟩ ⟨byteLength (a ++ p)⟩ = String.ofList p := by
  rw [byteLength_append, byteLength_eq_utf8Len, byteLength_eq_utf8Len, ← String.ofList_toList (s := source), h]
  exact String.extract_of_valid a p b

theorem Lexed.tiles {source : String} (h : Lexed 0 source.toList xs) : Tiles source xs where
  nonempty _ := h.start_lt_stop
  boundaries x hx := by
    obtain ⟨before, after, rfl⟩ := List.append_of_mem hx
    obtain ⟨a, hstart, hstop, hsource⟩ := h.exists_append
    rw [hstart, hstop]
    exact ⟨isValid_byteLength (hsource.trans (List.append_assoc ..)), isValid_byteLength hsource⟩
  text x hx := by
    obtain ⟨before, after, rfl⟩ := List.append_of_mem hx
    obtain ⟨a, hstart, hstop, hsource⟩ := h.exists_append
    rw [hstart, hstop, extract_byteLength hsource]
  first _ := h.start_eq_of_head?
  next := h.isChain
  last x hx := by
    obtain ⟨before, rfl⟩ := List.getLast?_eq_some_iff.1 hx
    obtain ⟨a, -, hstop, hsource⟩ := h.exists_append
    rw [hstop, ← byteLength_toList, hsource, List.flatMap_nil, List.append_nil]
  texts := h.texts

/-- **The lexemes of a source text tile it**, there are no more of them than it has characters, and each is the
longest one in front of those behind it. -/
theorem lexemes_tile (source : String) :
    Tiles source (lexemes source) ∧
    (lexemes source).length ≤ source.length ∧
    ∀ before x after, lexemes source = before ++ x :: after →
      IsLongest x.text (after.flatMap Lexeme.text) x.result := by
  have h := lexed_lexemes source
  refine ⟨h.tiles, ?_, fun before x after heq => ?_⟩
  · rw [← String.length_toList]
    exact h.length_le
  · rw [heq] at h
    exact h.isLongest

/-- A character of two bytes that no token begins with, a string that breaks off, and the path that a last backslash
belongs to. -/
example : (lexemes "é\"a\\\na\\b\\").map (fun x => (x.start, x.stop)) = [(0, 2), (2, 4), (4, 5), (5, 6), (6, 10)] := rfl

end Token

end BlockLang
