import BlockLang.Machine.Basic
import BlockLang.Proofs.Reading.Items
import BlockLang.Proofs.Reading.Lexemes
import BlockLang.Proofs.Simulation

/-!
# Reading and brackets

**Theorem (`readSource_brackets`).** A source text can be read exactly if the lexer finds no error in it
and its brackets are balanced (`Token.Balanced`). Written back, its items are its tokens in order, without
blanks and comments and with the indices of paths in plain form. Any other text is a syntax error.

The grammar of brackets knows nothing of the reader. What relates the two is what lexemes yield
(`Reading.Yields`), which has brackets in it but no stack of open ones.

- Lexemes that yield items are balanced tokens, and the items are written as these (`Reading.Yields.solids`).
- A balanced row of tokens is read to its end, and leaves open what was open (`steps_of_balanced`).

Indices keep no leading zeros: different texts are read into the same items, so that nothing could write
the tokens back as they were (`no_exact_writing`).
-/

namespace BlockLang

namespace Token

/-! ## The grammar of brackets -/

def isBracket : Token → Bool
  | .openBlock | .closeBlock | .openInline | .closeInline => true
  | _ => false

/-- Every bracket is closed by one of its kind, and what stands in between is balanced as well. -/
inductive Balanced : List Token → Prop
  | nil : Balanced []
  | plain {token : Token} {rest : List Token} :
      token.isBracket = false → Balanced rest → Balanced (token :: rest)
  | nested (b : Bracket) {inner rest : List Token} :
      Balanced inner → Balanced rest → Balanced (opening b :: (inner ++ closing b :: rest))

/-- The lexer finds no error in a source text, and these tokens apart from blanks and comments. -/
def Solids (source : String) (tokens : List Token) : Prop :=
  ∃ all : List Token, (lexemes source).map Lexeme.result = all.map .ok ∧ all.filter isSolid = tokens

/-- A token with the indices of its path in plain form. -/
def plain : Token → Token
  | .path text => .path (Reading.plainPath text)
  | .pathLabel text => .pathLabel (Reading.plainPath text)
  | token => token

/-- No index of the path has leading zeros. -/
def HasPlainPath (token : Token) : Prop :=
  ∀ text, token.path? = some text →
    ∀ segment ∈ Reading.splitPath text.toList, ¬Reading.HasLeadingZero segment

theorem plain_eq {token : Token} (h : token.HasPlainPath) : token.plain = token := by
  cases token with
  | path text => exact congrArg path (Reading.plainPath_eq (h text rfl))
  | pathLabel text => exact congrArg pathLabel (Reading.plainPath_eq (h text rfl))
  | _ => rfl

@[simp] theorem plain_opening (b : Bracket) : (opening b).plain = opening b := by cases b <;> rfl

@[simp] theorem plain_closing (b : Bracket) : (closing b).plain = closing b := by cases b <;> rfl

end Token

/-! ## Writing items back -/

namespace Value

mutual

/-- The tokens that a value is written with, if a source text can hold it. -/
def written? : Value → Option (List Token)
  | .integer n => some [.integer n]
  | .floating x => some [.floating x]
  | .string s => some [.string s]
  | .word name => some [.word name]
  | .label name => some [.label name]
  | .literal name => some [.literal name]
  | .attr name => some [.attr name]
  | .attrLabel name => some [.attrLabel name]
  | .symbol s => some [.symbol s]
  | .path segments => (Reading.writtenPath? segments).map fun text => [.path text]
  | .pathLabel segments => (Reading.writtenPath? segments).map fun text => [.pathLabel text]
  | .newline _ => some [.lineEnd]
  | .block items false => (writtenAll? items).map fun l => .openBlock :: (l ++ [.closeBlock])
  | .inline items => (writtenAll? items).map fun l => .openInline :: (l ++ [.closeInline])
  | _ => none

/-- The tokens that values are written with, one after the other. -/
def writtenAll? : List Value → Option (List Token)
  | [] => some []
  | v :: rest => (written? v).bind fun tokens => (writtenAll? rest).map (tokens ++ ·)

end

theorem written?_ofBracket {b : Bracket} {items : List Value} {tokens : List Token}
    (h : writtenAll? items = some tokens) :
    written? (ofBracket b items) = some (Token.opening b :: (tokens ++ [Token.closing b])) := by
  cases b <;> simp [ofBracket, written?, h, Token.opening, Token.closing]

end Value

namespace Reading

open Token

/-! ## What has been read is written back -/

/-- A token that is read as a value is no bracket, and the value is written as the token. -/
theorem written?_valueOf {l : List Char} {token : Token} {v : Value} (hform : IsLexeme l (.ok token))
    (hv : valueOf? token = some v) :
    v.written? = some [token.plain] ∧ token.isBracket = false ∧ token.isSolid = true := by
  cases token with
  | path text | pathLabel text =>
    cases hv
    refine ⟨?_, rfl, rfl⟩
    rw [Value.written?, writtenPath?_segments (hform.isPathChar rfl)]
    rfl
  | _ => cases hv <;> exact ⟨rfl, rfl, rfl⟩

/-- **Lexemes that yield items are all tokens, these are balanced, and the items are written as them.** -/
theorem Yields.solids {n m : Nat} {l : List Lexeme} {items : List Value} (h : Yields n l items m)
    (hl : ∀ x ∈ l, IsLexeme x.text x.result) :
    ∃ all : List Token, l.map Lexeme.result = all.map .ok ∧ Balanced (all.filter isSolid) ∧
      Value.writtenAll? items = some ((all.filter isSolid).map plain) := by
  induction h with
  | nil => exact ⟨[], rfl, .nil, rfl⟩
  | @skip _ _ _ token _ _ hx hsolid _ ih =>
    obtain ⟨all, hall, hb, hw⟩ := ih (List.forall_mem_cons.1 hl).2
    exact ⟨token :: all, by simp [hx, hall], by simpa [hsolid] using hb, by simpa [hsolid] using hw⟩
  | line hx _ ih =>
    obtain ⟨all, hall, hb, hw⟩ := ih (List.forall_mem_cons.1 hl).2
    refine ⟨.lineEnd :: all, by simp [hx, hall], .plain rfl hb, ?_⟩
    rw [Value.writtenAll?, hw]
    rfl
  | @value _ _ _ token v _ _ hx hv _ ih =>
    obtain ⟨hform, hl⟩ := List.forall_mem_cons.1 hl
    obtain ⟨hwritten, hplain, hsolid⟩ := written?_valueOf (hx ▸ hform) hv
    obtain ⟨all, hall, hb, hw⟩ := ih hl
    refine ⟨token :: all, by simp [hx, hall], ?_, ?_⟩ <;> rw [List.filter_cons_of_pos hsolid]
    · exact .plain hplain hb
    · rw [Value.writtenAll?, hwritten, hw]
      rfl
  | bracket b hx hy _ _ ihInner ihRest =>
    obtain ⟨-, hl⟩ := List.forall_mem_cons.1 hl
    obtain ⟨hinner, hl⟩ := List.forall_mem_append.1 hl
    obtain ⟨-, hrest⟩ := List.forall_mem_cons.1 hl
    obtain ⟨all, hall, hb, hw⟩ := ihInner hinner
    obtain ⟨all', hall', hb', hw'⟩ := ihRest hrest
    have hopening : isSolid (opening b) := by cases b <;> rfl
    have hclosing : isSolid (closing b) := by cases b <;> rfl
    have hfilter : (opening b :: (all ++ closing b :: all')).filter isSolid =
        opening b :: (all.filter isSolid ++ closing b :: all'.filter isSolid) := by
      simp [hopening, hclosing]
    refine ⟨opening b :: (all ++ closing b :: all'), by simp [hx, hy, hall, hall'], ?_, ?_⟩ <;> rw [hfilter]
    · exact .nested b hb hb'
    · rw [Value.writtenAll?, Value.written?_ofBracket hw, hw']
      simp

/-! ## What is balanced is read -/

/-- Neither a blank nor a comment; an error is neither. -/
def IsSolid (x : Lexeme) : Bool :=
  match x.result with
  | .ok token => token.isSolid
  | .error _ => true

/-- Blanks and comments are passed over. -/
theorem steps_filter (l : List Lexeme) (r : Reading) : r.steps l = r.steps (l.filter IsSolid) := by
  induction l generalizing r with
  | nil => rfl
  | cons x l ih =>
    by_cases hx : IsSolid x
    · rw [List.filter_cons_of_pos hx, steps, steps]
      split
      · exact ih _
      · rfl
    · have hskip : r.step x = .ok r := by
        unfold IsSolid at hx
        unfold step
        split at hx
        · next token ht =>
          rw [ht]
          cases token <;> first | rfl | exact absurd rfl hx
        · exact absurd rfl hx
      rw [List.filter_cons_of_neg hx, steps, hskip]
      exact ih r

theorem map_result_filter {l : List Lexeme} {all : List Token}
    (h : l.map Lexeme.result = all.map .ok) :
    (l.filter IsSolid).map Lexeme.result = (all.filter isSolid).map .ok := by
  induction l generalizing all with
  | nil =>
    have hall : all = [] := by simpa using h.symm
    subst hall
    rfl
  | cons x l ih =>
    cases all with
    | nil => cases h
    | cons token all =>
      obtain ⟨hx, hl⟩ := List.cons.inj h
      have hsolid : IsSolid x = token.isSolid := by simp [IsSolid, hx]
      simp only [List.filter_cons, hsolid]
      split
      · simp [hx, ih hl]
      · exact ih hl

theorem steps_append {a b : List Lexeme} {r r' : Reading} (h : r.steps a = (r', none)) :
    r.steps (a ++ b) = r'.steps b := by
  induction a generalizing r with
  | nil =>
    cases h
    rfl
  | cons x a ih =>
    rw [steps] at h
    rw [List.cons_append, steps]
    cases hx : r.step x with
    | ok next =>
      rw [hx] at h
      exact ih h
    | error e =>
      rw [hx] at h
      cases h

/-- A token that is no bracket leaves open what was open. -/
theorem exists_step {r : Reading} {x : Lexeme} {token : Token} (hx : x.result = .ok token)
    (ht : token.isBracket = false) : ∃ r', r.step x = .ok r' ∧ r'.opened = r.opened := by
  unfold step
  rw [hx]
  cases token <;> first | exact ⟨_, rfl, rfl⟩ | cases ht

/-- **A balanced row of tokens is read to its end**, and leaves open what was open. -/
theorem steps_of_balanced {tokens : List Token} (hb : Balanced tokens) {l : List Lexeme}
    (hl : l.map Lexeme.result = tokens.map .ok) (r : Reading) :
    ∃ r', r.steps l = (r', none) ∧ r'.opened = r.opened := by
  induction hb generalizing l r with
  | nil =>
    have hnil : l = [] := by simpa using hl
    subst hnil
    exact ⟨r, rfl, rfl⟩
  | plain ht _ ih =>
    obtain ⟨x, l, rfl, hx, hl⟩ := List.map_eq_cons_iff.1 hl
    obtain ⟨next, hstep, hnext⟩ := exists_step (r := r) hx ht
    obtain ⟨r', hrun, hopen⟩ := ih hl next
    exact ⟨r', by rw [steps, hstep]; exact hrun, hopen.trans hnext⟩
  | nested b _ _ ihInner ihRest =>
    rw [List.map_cons, List.map_append, List.map_cons] at hl
    obtain ⟨x, l, rfl, hx, hl⟩ := List.map_eq_cons_iff.1 hl
    obtain ⟨inner, l, rfl, hinner, hl⟩ := List.map_eq_append_iff.1 hl
    obtain ⟨y, rest, rfl, hy, hrest⟩ := List.map_eq_cons_iff.1 hl
    have henter : r.step x = .ok (r.enter b x.start) := by
      unfold step
      rw [hx]
      cases b <;> rfl
    obtain ⟨next, hrun, hopen⟩ := ihInner hinner (r.enter b x.start)
    obtain ⟨closed, hclose, hclosed⟩ :
        ∃ closed, next.step y = .ok closed ∧ closed.opened = r.opened := by
      have hclose : next.step y = next.close b y.start := by
        unfold step
        rw [hy]
        cases b <;> rfl
      rw [hclose, close, hopen]
      simp [enter]
    obtain ⟨r', hrun', hopen'⟩ := ihRest hrest closed
    refine ⟨r', ?_, hopen'.trans hclosed⟩
    rw [steps, henter]
    dsimp only
    rw [steps_append hrun, steps, hclose]
    exact hrun'

end Reading

/-! ## Reading a source text -/

open Token

/-- A text that is read has balanced tokens, and its items are written as these. -/
theorem solids_of_readSource {source : String} {items : List Value}
    (h : readSource source = .ok items) :
    ∃ tokens, Solids source tokens ∧ Balanced tokens ∧
      Value.writtenAll? items = some (tokens.map plain) := by
  obtain ⟨line, hl⟩ := yields_of_readSource h
  obtain ⟨all, hall, hb, hw⟩ := hl.solids fun _ => isLexeme_of_mem_lexemes
  exact ⟨_, ⟨all, hall, rfl⟩, hb, hw⟩

/-- A text with balanced tokens is read. -/
theorem exists_readSource {source : String} {tokens : List Token} (h : Solids source tokens)
    (hb : Balanced tokens) : ∃ items, readSource source = .ok items := by
  obtain ⟨all, hall, rfl⟩ := h
  obtain ⟨r, hs, ho⟩ := Reading.steps_of_balanced hb (Reading.map_result_filter hall) {}
  refine ⟨r.items.reverse, ?_⟩
  unfold readSource
  rw [Reading.steps_filter, hs]
  dsimp only
  rw [Reading.finish, ho]

theorem Token.Solids.unique {source : String} {tokens tokens' : List Token}
    (h : Solids source tokens) (h' : Solids source tokens') : tokens = tokens' := by
  obtain ⟨all, hall, rfl⟩ := h
  obtain ⟨all', hall', rfl⟩ := h'
  have hmap : all.map (Except.ok (ε := LexError)) = all'.map .ok := hall.symm.trans hall'
  rw [(List.map_inj_right fun _ _ h => Except.ok.inj h).1 hmap]

/-- **The reader accepts exactly the grammar of brackets.** What it reads is written back as the tokens
of the source, paths with their indices in plain form, and exactly as they are if no index has leading
zeros. For any other text it stops every run with a syntax error. -/
theorem readSource_brackets (source : String) :
    ((∃ items, readSource source = .ok items) ↔
      ∃ tokens, Solids source tokens ∧ Balanced tokens) ∧
    (∀ items tokens, readSource source = .ok items → Solids source tokens →
      Value.writtenAll? items = some (tokens.map plain) ∧
      ((∀ token ∈ tokens, token.HasPlainPath) → Value.writtenAll? items = some tokens)) ∧
    ((¬∃ tokens, Solids source tokens ∧ Balanced tokens) →
      ∃ e, readSource source = .error e ∧
        (Error.reading e).message = "syntax error: " ++ e.message ∧
        ∀ m : Machine, ((Exec.read source).run.run m).1 = .error (.error (.reading e))) := by
  refine ⟨⟨?_, ?_⟩, ?_, ?_⟩
  · rintro ⟨items, h⟩
    obtain ⟨tokens, hs, hb, -⟩ := solids_of_readSource h
    exact ⟨tokens, hs, hb⟩
  · rintro ⟨tokens, hs, hb⟩
    exact exists_readSource hs hb
  · intro items tokens h hs
    obtain ⟨tokens', hs', -, hw⟩ := solids_of_readSource h
    obtain rfl := hs.unique hs'
    refine ⟨hw, fun hp => hw.trans ?_⟩
    rw [(List.map_congr_left fun t ht => plain_eq (hp t ht)).trans (List.map_id tokens)]
  · intro hn
    cases h : readSource source with
    | ok items =>
      obtain ⟨tokens, hs, hb, -⟩ := solids_of_readSource h
      exact absurd ⟨tokens, hs, hb⟩ hn
    | error e =>
      refine ⟨e, rfl, rfl, fun m => ?_⟩
      have hread : (Exec.inWorld (·.read source)).run.run m =
          (.ok (.error e), { m with world := m.world.learnAll (namesRead source) }) := by
        rw [Exec.inWorld, run_modifyGet, World.read, h]
      rw [Exec.read, run_bind_of_ok hread]
      rfl

theorem readSource_brackets_nested :
    ∃ items, readSource "[a (b)]; c" = .ok items ∧
      Value.writtenAll? items =
        some [.openBlock, .word "a", .openInline, .word "b", .closeInline, .closeBlock] := by
  have hsolids : Solids "[a (b)]; c"
      [.openBlock, .word "a", .openInline, .word "b", .closeInline, .closeBlock] :=
    ⟨[.openBlock, .word "a", .blank, .openInline, .word "b", .closeInline, .closeBlock, .comment],
      rfl, rfl⟩
  have hbalanced : Balanced
      [.openBlock, .word "a", .openInline, .word "b", .closeInline, .closeBlock] :=
    .nested .block (.plain rfl (.nested .inline (.plain rfl .nil) .nil)) .nil
  obtain ⟨items, h⟩ := (readSource_brackets "[a (b)]; c").1.2 ⟨_, hsolids, hbalanced⟩
  exact ⟨items, h, ((readSource_brackets "[a (b)]; c").2.1 items _ h hsolids).1⟩

/-- Two source texts with different tokens are read into the same items, so there is no way to write
items back as exactly the tokens of their source. -/
theorem no_exact_writing :
    ¬∃ write : List Value → List Token, ∀ source items tokens,
      readSource source = .ok items → Solids source tokens → write items = tokens := by
  rintro ⟨write, h⟩
  have hlong := h "a\\01" [.path [.word "a", .integer 1]] [.path "a\\01"] rfl
    ⟨[.path "a\\01"], rfl, rfl⟩
  have hshort := h "a\\1" [.path [.word "a", .integer 1]] [.path "a\\1"] rfl
    ⟨[.path "a\\1"], rfl, rfl⟩
  exact absurd (hlong.symm.trans hshort) (by decide)

end BlockLang
