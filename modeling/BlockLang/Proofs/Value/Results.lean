import BlockLang.Proofs.CallTree.Reading
import BlockLang.Proofs.Value.Code
import BlockLang.Value.Fingerprint
import BlockLang.Value.Order

/-!
# What operations on values answer

Two facts about every operation that only looks at its operands. The result refers to no code and no
function but those of the operands, and of a heap it depends on the dictionaries alone, so heaps that are alike give the
same answer.
-/

namespace BlockLang

variable {A : CodeRef → Prop} {B : FunctionRef → Prop} {a b v : Value}

theorem exists_of_bind_ok {ε α β : Type} {x : Except ε α} {f : α → Except ε β} {y : β}
    (h : x >>= f = .ok y) : ∃ r, x = .ok r ∧ f r = .ok y := by
  cases x with
  | error e => cases h
  | ok r => exact ⟨r, rfl, h⟩

/-! ## Numbers, bits and truth values -/

theorem Arith.refersIn_of_apply {op : Arith} (h : op.apply a b = .ok v) : v.RefersIn A B :=
  Value.refersIn_of_isNumeric (isNumeric_of_apply h)

theorem refersIn_of_negate (h : negate a = .ok v) : v.RefersIn A B :=
  Value.refersIn_of_isNumeric (isNumeric_of_negate h)

theorem BitOperation.refersIn_of_apply {op : BitOperation} (h : op.apply a b = .ok v) :
    v.RefersIn A B := by
  obtain ⟨x, -, h⟩ := exists_of_bind_ok h
  obtain ⟨y, -, h⟩ := exists_of_bind_ok h
  split at h <;> cases h
  trivial

theorem Comparison.refersIn_of_apply {c : Comparison} (h : c.apply a b = .ok v) : v.RefersIn A B := by
  unfold apply at h
  split at h <;> cases h
  trivial

namespace Value

theorem refersIn_of_complement (h : complement a = .ok v) : v.RefersIn A B := by
  obtain ⟨n, -, h⟩ := exists_of_bind_ok h
  cases h
  trivial

theorem refersIn_of_opposite (h : opposite a = .ok v) : v.RefersIn A B := by
  obtain ⟨x, -, h⟩ := exists_of_bind_ok h
  cases h
  trivial

theorem refersIn_of_combine {operation : String} {f : Bool → Bool → Bool}
    (h : combine operation f a b = .ok v) : v.RefersIn A B := by
  obtain ⟨x, -, h⟩ := exists_of_bind_ok h
  obtain ⟨y, -, h⟩ := exists_of_bind_ok h
  cases h
  trivial

theorem refersIn_of_toInteger (h : toInteger a = .ok v) : v.RefersIn A B := by
  unfold toInteger at h
  split at h
  · cases h; trivial
  · split at h <;> cases h
    trivial
  · cases h; trivial
  · cases h; trivial
  · next s =>
    cases hs : spelled Numeral.word? "integer" s <;> rw [hs] at h <;> cases h
    trivial
  · cases h

theorem refersIn_of_toFloating (h : toFloating a = .ok v) : v.RefersIn A B := by
  unfold toFloating at h
  split at h
  · next s =>
    cases hs : spelled Numeral.binary64? "floating" s <;> rw [hs] at h <;> cases h
    trivial
  · split at h <;> cases h
    trivial

theorem refersIn_of_toLogical (h : toLogical a = .ok v) : v.RefersIn A B := by
  unfold toLogical at h
  split at h <;> cases h <;> trivial

/-! ## Collections -/

theorem refersIn_characters (s : String) : ∀ v ∈ characters s, v.RefersIn A B := by
  intro v hv
  obtain ⟨c, -, rfl⟩ := List.mem_map.1 hv
  trivial

theorem refersIn_between (x y : Int64) : ∀ v ∈ between x y, v.RefersIn A B := by
  intro v hv
  obtain ⟨k, -, rfl⟩ := List.mem_map.1 hv
  trivial

theorem refersIn_of_range (h : range a b = .ok v) : v.RefersIn A B := by
  obtain ⟨x, -, h⟩ := exists_of_bind_ok h
  obtain ⟨y, -, h⟩ := exists_of_bind_ok h
  cases h
  exact refersIn_block.2 (refersIn_between x y)

theorem refersIn_of_splitUp (h : splitUp a = .ok v) : v.RefersIn A B := by
  unfold splitUp at h
  split at h <;> cases h
  exact refersIn_block.2 (refersIn_characters _)

theorem refersIn_of_reversed (h : reversed a = .ok v) (ha : a.RefersIn A B) : v.RefersIn A B := by
  unfold reversed at h
  split at h <;> cases h
  · rw [refersIn_block] at ha ⊢
    simpa using ha
  · trivial

theorem refersIn_of_itemCount {heap : Heap} (h : itemCount heap a = .ok v) : v.RefersIn A B := by
  unfold itemCount at h
  split at h <;> cases h <;> trivial

theorem refersIn_of_itemAt {items : List Value} {i : Int64} (h : itemAt items i = .ok v)
    (hi : ∀ v ∈ items, v.RefersIn A B) : v.RefersIn A B := by
  unfold itemAt at h
  split at h
  · cases h
  · split at h
    · next hv =>
      cases h
      exact hi _ (List.mem_of_getElem? hv)
    · cases h

theorem refersIn_of_part {heap : Heap} (h : part heap a b = .ok v) (ha : a.RefersIn A B)
    (hd : ∀ ref key v, (heap.dictionary ref).get? key = some v → v.RefersIn A B) : v.RefersIn A B := by
  unfold part at h
  split at h
  · exact refersIn_of_itemAt h (refersIn_block.1 ha)
  · exact refersIn_of_itemAt h (refersIn_characters _)
  · obtain ⟨key, -, h⟩ := exists_of_bind_ok h
    unfold entry at h
    split at h
    · cases h
      exact hd _ _ _ ‹_›
    · cases h
  · cases h

theorem refersIn_of_elements {heap : Heap} {operation : String} {l : List Value}
    (h : elements heap operation a = .ok l) (ha : a.RefersIn A B)
    (hd : ∀ ref, ∀ e ∈ heap.dictionary ref, e.2.RefersIn A B) : ∀ v ∈ l, v.RefersIn A B := by
  unfold elements at h
  split at h <;> cases h
  · exact fun v hv => refersIn_block.1 ha v (List.mem_filter.1 hv).1
  · split
    · simp
    · exact refersIn_between _ _
  · exact refersIn_characters _
  · intro v hv
    obtain ⟨e, he, hv⟩ := List.mem_flatMap.1 hv
    rcases List.mem_cons.1 hv with rfl | hv
    · trivial
    · rw [List.mem_singleton.1 hv]
      exact hd _ e he

end Value

/-! ## Source text -/

/-- All items read so far, in whatever bracket, refer to code in `A` and functions in `B` only. -/
structure Reading.RefersIn (A : CodeRef → Prop) (B : FunctionRef → Prop) (r : Reading) : Prop where
  items : ∀ v ∈ r.items, v.RefersIn A B
  opened : ∀ b ∈ r.opened, ∀ v ∈ b.before, v.RefersIn A B

namespace Reading.RefersIn

variable {r r' : Reading}

theorem push (h : r.RefersIn A B) (hv : v.RefersIn A B) (names : List String) :
    (r.push v names).RefersIn A B :=
  ⟨List.forall_mem_cons.2 ⟨hv, h.items⟩, h.opened⟩

theorem close {bracket : Bracket} {pos : Nat} (h : r.close bracket pos = .ok r')
    (hr : r.RefersIn A B) : r'.RefersIn A B := by
  unfold Reading.close at h
  split at h
  · cases h
  · next top opened ho =>
    have hopened := hr.opened
    rw [ho] at hopened
    obtain ⟨htop, hopened⟩ := List.forall_mem_cons.1 hopened
    split at h
    · cases h
      refine ⟨List.forall_mem_cons.2 ⟨?_, htop⟩, hopened⟩
      cases bracket <;> simpa using hr.items
    · cases h

theorem refersIn_segments (path : String) : ∀ v ∈ segments path, v.RefersIn A B := by
  intro v hv
  obtain ⟨segment, -, rfl⟩ := List.mem_map.1 hv
  unfold segmentValue
  split <;> trivial

theorem step {l : Lexeme} (h : r.step l = .ok r') (hr : r.RefersIn A B) : r'.RefersIn A B := by
  unfold Reading.step at h
  split at h
  · cases h
  · split at h
    case h_6 | h_7 => exact close h hr
    case h_4 | h_5 =>
      cases h
      exact ⟨by simp [Reading.enter], List.forall_mem_cons.2 ⟨hr.items, hr.opened⟩⟩
    case h_16 | h_17 =>
      cases h
      exact hr.push (by simpa using refersIn_segments _) _
    case h_1 | h_2 =>
      cases h
      exact hr
    case h_3 =>
      cases h
      exact ⟨List.forall_mem_cons.2 ⟨trivial, hr.items⟩, hr.opened⟩
    all_goals
      cases h
      refine hr.push ?_ _
      trivial

theorem steps {l : List Lexeme} (hr : r.RefersIn A B) : (r.steps l).1.RefersIn A B := by
  induction l generalizing r with
  | nil => exact hr
  | cons l rest ih =>
    unfold Reading.steps
    split
    · exact ih (step ‹_› hr)
    · exact hr

end Reading.RefersIn

/-- **Source text holds no compiled code and no functions.** -/
theorem refersIn_of_readSource {source : String} {items : List Value}
    (h : readSource source = .ok items) : ∀ v ∈ items, v.RefersIn A B := by
  have hr : (({} : Reading).steps (Token.lexemes source)).1.RefersIn A B :=
    Reading.RefersIn.steps ⟨by simp, by simp⟩
  unfold readSource at h
  split at h
  · next r hs =>
    rw [hs] at hr
    unfold Reading.finish at h
    split at h
    · cases h
      simpa using hr.items
    · cases h
  · cases h

/-! ## Heaps that are alike -/

section

variable {h h' : Heap} (hd : ∀ ref, h.dictionary ref = h'.dictionary ref)

include hd

theorem Value.part_congr : part h = part h' := by
  funext a b
  simp only [part, hd]

theorem Value.itemCount_congr : itemCount h = itemCount h' := by
  funext v
  simp only [itemCount, hd]

theorem Value.elements_congr : elements h = elements h' := by
  funext operation v
  simp only [elements, hd]

theorem Value.equalWithin_congr (depth : Nat) : equalWithin h depth = equalWithin h' depth := by
  induction depth with
  | zero => rfl
  | succ depth ih =>
    funext a b
    simp only [equalWithin, ih, hd]

end

namespace Heap.Alike

variable {h h' : Heap}

theorem part (hh : h.Alike h') : Value.part h = Value.part h' := Value.part_congr hh.dictionary

theorem itemCount (hh : h.Alike h') : Value.itemCount h = Value.itemCount h' :=
  Value.itemCount_congr hh.dictionary

theorem elements (hh : h.Alike h') : Value.elements h = Value.elements h' :=
  Value.elements_congr hh.dictionary

theorem equalWithin (hh : h.Alike h') (depth : Nat) :
    Value.equalWithin h depth = Value.equalWithin h' depth :=
  Value.equalWithin_congr hh.dictionary depth

theorem contentMarks (hh : h.Alike h') (levels : Nat) :
    Value.contentMarks h levels = Value.contentMarks h' levels := by
  induction levels with
  | zero => rfl
  | succ levels ih =>
    funext v
    simp only [Value.contentMarks, ih, hh.dictionary]

theorem argumentFingerprint (hh : h.Alike h') :
    Value.argumentFingerprint h = Value.argumentFingerprint h' := by
  funext args
  simp only [Value.argumentFingerprint, hh.contentMarks]

end Heap.Alike

end BlockLang
