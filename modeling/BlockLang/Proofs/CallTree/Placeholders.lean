import BlockLang.CallTree.Build
import BlockLang.Proofs.Simulation
import Mathlib.Data.List.Nodup
import Mathlib.Data.List.Perm.Basic

/-!
# Placeholders

`=>` in front of a block makes the parameters and the body of a function from it: each ampersand outside
the nested blocks, through inlines at any depth, becomes a parameter of its own.

**Theorem (`World.placeItem_thickArrow`).** In every world and every draft, the two operands that `=>` and a
block add are a block of names and a body. The names are distinct, there are as many as ampersands, and the
body is the block with the names filled in from left to right (`Filled`), which is one body only
(`Filled.body_eq`).

The names are numbered, and no name is avoided. So a name occurs in the body once more than in the block,
and stands for its parameter alone exactly if the block does not write the same word itself
(`count_allWords_of_filled`): `=> [& + _0]` adds the argument to itself.
-/

namespace BlockLang.World

open CallTree (Draft)

/-! ## Names -/

theorem placeholder_injective : Function.Injective placeholder := by
  intro j k h
  have hrepr : j.repr = k.repr := by simpa [placeholder] using h
  have hdigits : Nat.toDigits 10 j = Nat.toDigits 10 k := by
    rw [← Nat.toList_repr, hrepr, Nat.toList_repr]
  rw [← Nat.ofDigitChars_ten_toDigits (n := j), hdigits, Nat.ofDigitChars_ten_toDigits]

theorem nodup_placeholders (count : Nat) : (placeholders count).Nodup :=
  List.Nodup.map placeholder_injective List.nodup_range

/-! ## Counting and filling -/

mutual

/-- The number of ampersands in a value, outside of its blocks. -/
def ampersands : Value → Nat
  | .symbol .ampersand => 1
  | .inline items => allAmpersands items
  | _ => 0

/-- The number of ampersands in values, outside of their blocks. -/
def allAmpersands : List Value → Nat
  | [] => 0
  | v :: l => ampersands v + allAmpersands l

end

/-- The value is no ampersand and no inline, so that no name is filled in. -/
def IsFixed : Value → Prop
  | .symbol .ampersand | .inline _ => False
  | _ => True

/-- The names are filled in for the ampersands outside of blocks, from left to right, and everything else is
left as it is. -/
inductive Filled : List String → List Value → List Value → Prop
  | nil : Filled [] [] []
  | ampersand (name : String) {names items body} (h : Filled names items body) :
    Filled (name :: names) (.symbol .ampersand :: items) (.word name :: body)
  | inline {innerNames inner innerBody names items body} (hinner : Filled innerNames inner innerBody)
    (h : Filled names items body) :
    Filled (innerNames ++ names) (.inline inner :: items) (.inline innerBody :: body)
  | fixed {v names items body} (hv : IsFixed v) (h : Filled names items body) :
    Filled names (v :: items) (v :: body)

theorem of_not_isFixed {v : Value} (h : ¬ IsFixed v) :
    v = .symbol .ampersand ∨ ∃ inner, v = .inline inner := by
  unfold IsFixed at h
  split at h
  · exact .inl rfl
  · exact .inr ⟨_, rfl⟩
  · exact absurd trivial h

variable {names : List String} {items body : List Value}

theorem IsFixed.ampersands_eq {v : Value} (hv : IsFixed v) : ampersands v = 0 := by
  unfold ampersands
  split <;> first | exact hv.elim | rfl

theorem IsFixed.nameAmpersands_eq {v : Value} (hv : IsFixed v) (k : Nat) : nameAmpersands k v = (v, k) := by
  unfold nameAmpersands
  split <;> first | exact hv.elim | rfl

/-- There is a name for each ampersand. -/
theorem Filled.length_eq (h : Filled names items body) : names.length = allAmpersands items := by
  induction h with
  | nil => rfl
  | ampersand name _ ih =>
    rw [List.length_cons, ih, allAmpersands, ampersands, Nat.add_comm]
  | inline _ _ ihinner ih =>
    rw [List.length_append, ihinner, ih, allAmpersands, ampersands]
  | fixed hv _ ih => rw [ih, allAmpersands, hv.ampersands_eq, Nat.zero_add]

/-- The names and the block determine the body. -/
theorem Filled.body_eq (h : Filled names items body) {names' : List String} {body' : List Value}
    (h' : Filled names' items body') (hnames : names = names') : body = body' := by
  induction h generalizing names' body' with
  | nil => cases h' with | nil => rfl
  | ampersand name _ ih =>
    cases h' with
    | ampersand name' h' =>
      obtain ⟨hname, hnames⟩ := List.cons.inj hnames
      rw [hname, ih h' hnames]
    | fixed hv => exact hv.elim
  | inline hinner _ ihinner ih =>
    cases h' with
    | inline hinner' h' =>
      obtain ⟨hinnerNames, hnames⟩ :=
        List.append_inj hnames (hinner.length_eq.trans hinner'.length_eq.symm)
      rw [ihinner hinner' hinnerNames, ih h' hnames]
    | fixed hv => exact hv.elim
  | fixed hv _ ih =>
    cases h' with
    | fixed _ h' => rw [ih h' hnames]
    | ampersand | inline => exact hv.elim

/-- **Naming fills in numbered names**, one for each ampersand, from the given number on. -/
theorem filled_nameAllAmpersands (k : Nat) (items : List Value) :
    (nameAllAmpersands k items).2 = k + allAmpersands items ∧
      Filled ((List.range' k (allAmpersands items)).map placeholder) items (nameAllAmpersands k items).1 := by
  cases items with
  | nil => exact ⟨rfl, .nil⟩
  | cons v items =>
    by_cases hv : IsFixed v
    · obtain ⟨hcount, hfilled⟩ := filled_nameAllAmpersands k items
      simp only [nameAllAmpersands, allAmpersands, hv.nameAmpersands_eq, hv.ampersands_eq, Nat.zero_add]
      exact ⟨hcount, .fixed hv hfilled⟩
    · obtain rfl | ⟨inner, rfl⟩ := of_not_isFixed hv
      · obtain ⟨hcount, hfilled⟩ := filled_nameAllAmpersands (k + 1) items
        simp only [nameAllAmpersands, allAmpersands, nameAmpersands, ampersands, List.range'_succ,
          Nat.add_comm 1, List.map_cons]
        exact ⟨by rw [hcount]; omega, .ampersand _ hfilled⟩
      · obtain ⟨hcountInner, hinner⟩ := filled_nameAllAmpersands k inner
        obtain ⟨hcount, hfilled⟩ := filled_nameAllAmpersands (k + allAmpersands inner) items
        simp only [nameAllAmpersands, allAmpersands, nameAmpersands, ampersands, hcountInner]
        rw [← List.range'_append_1, List.map_append]
        exact ⟨by rw [hcount]; omega, .inline hinner hfilled⟩

/-- What `=>` makes of a block. -/
theorem placeholderForm?_block (w : World) (items : List Value) (dynamic : Bool) (rest : List Value) :
    ∃ body, w.placeholderForm? (.block items dynamic :: rest) =
        some (placeholders (allAmpersands items), body) ∧
      Filled (placeholders (allAmpersands items)) items body := by
  obtain ⟨hcount, hfilled⟩ := filled_nameAllAmpersands 0 items
  rw [Nat.zero_add] at hcount
  rw [← List.range_eq_range'] at hfilled
  refine ⟨_, ?_, hfilled⟩
  simp only [placeholderForm?, hcount]

/-! ## Words -/

mutual

/-- The words written in a value, at any depth. -/
def words : Value → List String
  | .word name => [name]
  | .inline items | .block items _ | .path items | .pathLabel items => allWords items
  | _ => []

/-- The words written in values, at any depth. -/
def allWords : List Value → List String
  | [] => []
  | v :: l => words v ++ allWords l

end

/-- Filling in adds the names to the words, and no other. -/
theorem Filled.words_perm (h : Filled names items body) :
    (allWords body).Perm (names ++ allWords items) := by
  induction h with
  | nil => exact .refl _
  | ampersand name _ ih =>
    simp only [allWords, words, List.cons_append, List.nil_append]
    exact ih.cons name
  | @inline innerNames _ _ _ _ _ _ _ ihinner ih =>
    simp only [allWords, words]
    refine (ihinner.append ih).trans ?_
    simp only [List.append_assoc]
    exact (List.perm_append_comm_assoc ..).append_left innerNames
  | @fixed v _ _ _ _ _ ih =>
    simp only [allWords]
    exact (ih.append_left (words v)).trans (List.perm_append_comm_assoc ..)

/-- Each name occurs in the body once more than in the block, and every other word as often. -/
theorem count_allWords_of_filled (h : Filled names items body) (hnames : names.Nodup) (word : String) :
    (allWords body).count word = (if word ∈ names then 1 else 0) + (allWords items).count word := by
  rw [h.words_perm.count_eq, List.count_append, hnames.count]

/-! ## The operands -/

/-- **What `=>` makes of a block**: two operands, a block of distinct names, one for each ampersand, and a
body, the block with the names filled in. A name stands for an ampersand alone exactly if the block does not
write the word itself, and so all of them do exactly if the block writes none of the numbered names. -/
theorem placeItem_thickArrow (w : World) (d : Draft) (items : List Value) (dynamic : Bool)
    (rest : List Value) :
    ∃ names body, names.Nodup ∧ names.length = allAmpersands items ∧
      (∀ body', Filled names items body' ↔ body' = body) ∧
      (placeItem d (.symbol .thickArrow) (.block items dynamic :: rest)).run.run w =
        (let w := w.learnAll names
          let d := d.put (.constant (.block (names.map .word) false))
          let (d, used) := w.attachConstant d (.block body false) rest
          (.ok (d, used + 1), w)) ∧
      (∀ name ∈ names, (allWords body).count name = 1 + (allWords items).count name) ∧
      ((∀ name ∈ names, name ∉ allWords items) ↔
        ∀ k < allAmpersands items, placeholder k ∉ allWords items) := by
  obtain ⟨body, hform, hfilled⟩ := w.placeholderForm?_block items dynamic rest
  refine ⟨_, body, nodup_placeholders _, hfilled.length_eq,
    fun body' => ⟨fun h => h.body_eq hfilled rfl, fun h => h ▸ hfilled⟩, ?_, fun name hname => ?_, ?_⟩
  · rw [placeItem, run_get_bind, placeThickArrow, run_get_bind, hform]
    rfl
  · rw [count_allWords_of_filled hfilled (nodup_placeholders _), if_pos hname]
  · simp [placeholders]

/-- **A word of the block may be captured**: `=> [& + _0]` makes the parameters `[_0]` and the body
`_0 + _0`, whatever `_0` is bound to. -/
theorem placeholder_captures :
    let items : List Value := [.symbol .ampersand, .symbol .plus, .word (placeholder 0)]
    placeholder 0 ∈ allWords items ∧
      (World.initial {}).placeholderForm? [.block items false] =
        some ([placeholder 0], [.word (placeholder 0), .symbol .plus, .word (placeholder 0)]) :=
  ⟨by decide, rfl⟩

end BlockLang.World
