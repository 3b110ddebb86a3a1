import BlockLang.Heap
import Mathlib.Data.Fintype.EquivFin

/-!
# Values inside values

What a value is made of, how deep inside it another one sits, and when going into it comes to an end.

Items are parts of a value for good, and no value is an item of itself. A dictionary is known by
reference, though, and its entries change: an entry may lead back to the dictionary that holds it.

**Theorem (`bottoms_iff_not_loops`).** Going into a value, part by part, comes to an end on every way exactly
if no dictionary that is met on the way holds itself. There are only as many dictionaries as the heap
has, so a way that never ends meets one of them twice.

The results hold of any choice of parts to go into (`held`): all of them (`Value.parts`), or those alone
that count when programs compare values (`Value.comparedParts`).
-/

namespace BlockLang.Value

/-- The values that a value is made of. What a function or code refers to is no part of it. -/
def parts (h : Heap) : Value → List Value
  | path items | pathLabel items | block items _ | inline items => items
  | dictionary ref => (h.dictionary ref).map (·.2)
  | _ => []

/-- The parts of a value that are looked at when it is compared with another one. -/
def comparedParts (h : Heap) : Value → List Value
  | block items _ => items
  | dictionary ref => (h.dictionary ref).map (·.2)
  | _ => []

/-- The value can have parts. -/
def isCompound : Value → Bool
  | path _ | pathLabel _ | block .. | inline _ | dictionary _ => true
  | _ => false

/-- `SitsAt held depth v u`: the value `u` sits in `v` at this depth of nesting. -/
inductive SitsAt (held : Value → List Value) : (depth : Nat) → (v u : Value) → Prop
  | self (v : Value) : SitsAt held 0 v v
  | part {depth : Nat} {v p u : Value} : p ∈ held v → SitsAt held depth p u →
    SitsAt held (depth + 1) v u

/-- The dictionary sits in itself. -/
def HoldsItself (held : Value → List Value) (ref : DictionaryRef) : Prop :=
  ∃ depth, SitsAt held (depth + 1) (dictionary ref) (dictionary ref)

/-- A dictionary in the value holds itself. -/
def Loops (held : Value → List Value) (v : Value) : Prop :=
  ∃ depth ref, SitsAt held depth v (dictionary ref) ∧ HoldsItself held ref

/-- Going into the value comes to an end, whichever way is taken. -/
def Bottoms (held : Value → List Value) (v : Value) : Prop := Acc (fun p v => p ∈ held v) v

variable {h : Heap} {held : Value → List Value} {v u w : Value}

theorem parts_of_atom (hv : v.isCompound = false) : parts h v = [] := by
  cases v <;> first | rfl | cases hv

theorem comparedParts_subset (h : Heap) (v : Value) : comparedParts h v ⊆ parts h v := by
  cases v <;> simp [comparedParts, parts]

theorem SitsAt.trans {m n : Nat} (hu : SitsAt held m v u) (hw : SitsAt held n u w) :
    SitsAt held (m + n) v w := by
  induction hu with
  | self => exact (Nat.zero_add n).symm ▸ hw
  | part hp _ ih => exact (Nat.succ_add _ n).symm ▸ .part hp (ih hw)

/-! ## Loops -/

theorem Loops.of_part {p : Value} (hp : p ∈ held v) (hl : Loops held p) : Loops held v := by
  obtain ⟨depth, ref, hs, hself⟩ := hl
  exact ⟨depth + 1, ref, .part hp hs, hself⟩

/-- In a value that loops, one of the parts loops. -/
theorem Loops.exists_part (hl : Loops held v) : ∃ p ∈ held v, Loops held p := by
  obtain ⟨depth, ref, hs, k, hself⟩ := hl
  cases hs with
  | self =>
    cases hself with
    | part hp hs => exact ⟨_, hp, k, ref, hs, k, .part hp hs⟩
  | part hp hs => exact ⟨_, hp, _, ref, hs, k, hself⟩

theorem Bottoms.not_loops (hb : Bottoms held v) : ¬ Loops held v := by
  induction hb with
  | intro v _ ih =>
    intro hl
    obtain ⟨p, hp, hl⟩ := hl.exists_part
    exact ih p hp hl

mutual

/-- Going into a value ends if going into the dictionaries in it does. -/
theorem bottoms_of_dictionaries (hheld : ∀ v, held v ⊆ parts h v) : (v : Value) →
    (∀ depth ref, SitsAt held depth v (dictionary ref) → Bottoms held (dictionary ref)) →
    Bottoms held v
  | dictionary ref, hd => hd 0 ref (.self _)
  | path l, hd | pathLabel l, hd | block l _, hd | inline l, hd => by
    all_goals
      exact ⟨_, fun p hp => bottoms_of_dictionaries_all hheld l p (hheld _ hp) fun depth ref hs =>
        hd (depth + 1) ref (.part hp hs)⟩
  | null, _ | logical _, _ | integer _, _ | floating _, _ | rational _, _ | string _, _
  | word _, _ | literal _, _ | label _, _ | attr _, _ | attrLabel _, _ | symbol _, _
  | function _, _ | bytecode _, _ | newline _, _ => by
    all_goals exact ⟨_, fun p hp => absurd (hheld _ hp) List.not_mem_nil⟩

theorem bottoms_of_dictionaries_all (hheld : ∀ v, held v ⊆ parts h v) : (l : List Value) → ∀ v ∈ l,
    (∀ depth ref, SitsAt held depth v (dictionary ref) → Bottoms held (dictionary ref)) →
    Bottoms held v
  | v :: l, u, hu, hd => by
    rcases List.mem_cons.1 hu with heq | hu
    · exact heq ▸ bottoms_of_dictionaries hheld v (heq ▸ hd)
    · exact bottoms_of_dictionaries_all hheld l u hu hd

end

/-- A dictionary that is not there has no entries. -/
theorem bottoms_of_absent (hheld : ∀ v, held v ⊆ parts h v) {ref : DictionaryRef}
    (hr : h.dictionaries.size ≤ ref.index) : Bottoms held (dictionary ref) := by
  refine ⟨_, fun p hp => absurd (hheld _ hp) ?_⟩
  simp [parts, Heap.dictionary, Array.getElem?_eq_none hr]

/-- **Where nothing loops, everything ends.** The dictionaries in the value are finitely many and none of
them holds itself, so one can go from each to those that it holds only so often. -/
theorem bottoms_of_not_loops (hheld : ∀ v, held v ⊆ parts h v) (hl : ¬ Loops held v) :
    Bottoms held v := by
  -- the inner ones of the dictionaries in the value are below the outer ones
  let below (i j : Fin h.dictionaries.size) : Prop :=
    (∃ depth, SitsAt held depth v (dictionary ⟨j⟩)) ∧
      ∃ depth, SitsAt held (depth + 1) (dictionary ⟨j⟩) (dictionary ⟨i⟩)
  have irrefl : Std.Irrefl below := ⟨fun i ⟨⟨depth, hs⟩, hself⟩ => hl ⟨depth, ⟨i⟩, hs, hself⟩⟩
  have trans : IsTrans _ below :=
    ⟨fun i j k ⟨_, m, hi⟩ ⟨hk, n, hj⟩ => ⟨hk, n + 1 + m, hj.trans hi⟩⟩
  have entries (i : Fin h.dictionaries.size) (depth : Nat)
      (hi : SitsAt held depth v (dictionary ⟨i⟩)) : Bottoms held (dictionary ⟨i⟩) := by
    induction i using (Finite.wellFounded_of_trans_of_irrefl below).induction generalizing depth with
    | _ i ih =>
      refine ⟨_, fun p hp => bottoms_of_dictionaries hheld p fun d ref hs => ?_⟩
      have hin : SitsAt held (d + 1) (dictionary ⟨i⟩) (dictionary ref) := .part hp hs
      by_cases hr : ref.index < h.dictionaries.size
      · exact ih ⟨ref.index, hr⟩ ⟨⟨depth, hi⟩, d, hin⟩ (depth + (d + 1)) (hi.trans hin)
      · exact bottoms_of_absent hheld (Nat.le_of_not_lt hr)
  refine bottoms_of_dictionaries hheld v fun depth ref hs => ?_
  by_cases hr : ref.index < h.dictionaries.size
  · exact entries ⟨ref.index, hr⟩ depth hs
  · exact bottoms_of_absent hheld (Nat.le_of_not_lt hr)

theorem bottoms_iff_not_loops (hheld : ∀ v, held v ⊆ parts h v) : Bottoms held v ↔ ¬ Loops held v :=
  ⟨Bottoms.not_loops, bottoms_of_not_loops hheld⟩

end BlockLang.Value
