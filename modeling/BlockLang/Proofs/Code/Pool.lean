import BlockLang.CallTree.Basic
import BlockLang.Code.OfCalls
import BlockLang.Proofs.Value.Identity
import Mathlib.Data.List.Forall2

/-!
# The constants of a unit

**The pool** of a list of values (`firsts`) keeps the first of all values that are the same. No two of
its values are the same, and every value of the list is the same as one of them.

**Theorem (`assembles_foldl`).** Assembling emissions gives the pool of the constants that they ask
for. Each emission becomes one instruction, which addresses a constant that is the same as its own,
and each slot is addressed.
-/

namespace BlockLang

namespace Value

/-- The values of a list without those that are the same as an earlier one. -/
def firsts : List Value → List Value
  | [] => []
  | v :: l => v :: (firsts l).filter fun u => !same v u

variable {l : List Value} {v u : Value}

theorem mem_of_mem_firsts (h : v ∈ firsts l) : v ∈ l := by
  induction l with
  | nil => exact h
  | cons a l ih =>
    rcases List.mem_cons.1 h with rfl | h
    · exact List.mem_cons_self
    · exact List.mem_cons_of_mem _ (ih (List.mem_of_mem_filter h))

theorem length_firsts_le (l : List Value) : (firsts l).length ≤ l.length := by
  induction l with
  | nil => exact Nat.le_refl 0
  | cons a l ih =>
    exact Nat.succ_le_succ (Nat.le_trans (List.length_filter_le ..) ih)

theorem exists_same_of_mem (h : v ∈ l) : ∃ u ∈ firsts l, same u v := by
  induction l with
  | nil => cases h
  | cons a l ih =>
    by_cases ha : same a v
    · exact ⟨a, List.mem_cons_self, ha⟩
    · rcases List.mem_cons.1 h with rfl | h
      · exact absurd (same_refl v) ha
      · obtain ⟨u, hu, huv⟩ := ih h
        refine ⟨u, List.mem_cons_of_mem _ (List.mem_filter.2 ⟨hu, ?_⟩), huv⟩
        cases hau : same a u with
        | true => exact absurd (same_trans hau huv) ha
        | false => rfl

/-- **No two values of a pool are the same.** -/
theorem pairwise_firsts (l : List Value) : (firsts l).Pairwise fun u v => ¬ same u v := by
  induction l with
  | nil => exact .nil
  | cons a l ih =>
    refine .cons (fun u hu => ?_) (ih.filter _)
    simpa using (List.mem_filter.1 hu).2

/-- One more value changes the pool only if no value before was the same. -/
theorem firsts_concat (l : List Value) (v : Value) :
    firsts (l ++ [v]) = if ∃ u ∈ l, same u v then firsts l else firsts l ++ [v] := by
  induction l with
  | nil => simp [firsts]
  | cons a l ih =>
    rw [List.cons_append, firsts, ih]
    by_cases hl : ∃ u ∈ l, same u v
    · rw [if_pos hl, if_pos (by simpa using Or.inr hl)]
      rfl
    · rw [if_neg hl, List.filter_append]
      cases ha : same a v with
      | true =>
        rw [if_pos (by simp [ha])]
        simp [firsts, ha]
      | false =>
        rw [if_neg (by simpa [ha] using hl)]
        simp [firsts, ha]

end Value

namespace Emission

/-- The constant that an emission asks for. -/
def constant? : Emission → Option Value
  | op _ => none
  | indexed _ v => some v

/-- The instruction is that of the emission, and addresses a constant that is the same. -/
def Assembled (constants : Array Value) : Emission → Instruction → Prop
  | op o, .op o' => o = o'
  | indexed family v, .indexed family' i =>
    family = family' ∧ ∃ c, constants[i]? = some c ∧ Value.same c v
  | _, _ => False

theorem Assembled.push {constants : Array Value} {e : Emission} {i : Instruction}
    (h : e.Assembled constants i) (v : Value) : e.Assembled (constants.push v) i := by
  cases e <;> cases i <;> try exact h
  obtain ⟨hf, c, hc, hs⟩ := h
  refine ⟨hf, c, ?_, hs⟩
  rw [Array.getElem?_push, if_neg, hc]
  exact Nat.ne_of_lt (Array.getElem?_eq_some_iff.1 hc).1

end Emission

/-- The assembly of a sequence of emissions. -/
structure Assembly.Assembles (l : List Emission) (a : Assembly) : Prop where
  pool : a.constants.toList = Value.firsts (l.filterMap Emission.constant?)
  instructions : List.Forall₂ (Emission.Assembled a.constants) l a.instructions.toList
  addressed : ∀ i < a.constants.size, ∃ family, .indexed family i ∈ a.instructions.toList

namespace Assembly.Assembles

variable {l : List Emission} {a : Assembly}

protected theorem empty : Assembles [] {} := ⟨rfl, .nil, fun _ h => absurd h (Nat.not_lt_zero _)⟩

theorem emit_op (h : Assembles l a) (o : Opcode) : Assembles (l ++ [.op o]) (a.emit (.op o)) where
  pool := by
    rw [List.filterMap_append]
    exact h.pool.trans (congrArg Value.firsts (List.append_nil _).symm)
  instructions := by
    simp only [Assembly.emit, Array.toList_push]
    exact List.rel_append h.instructions (.cons rfl .nil)
  addressed i hi := by
    obtain ⟨family, hf⟩ := h.addressed i hi
    exact ⟨family, by simp [Assembly.emit, Array.mem_toList_iff.1 hf]⟩

/-- A constant that has a slot. -/
theorem emit_known (h : Assembles l a) {family : Family} {v : Value} {i : Nat}
    (hs : a.slot? v = some i) : Assembles (l ++ [.indexed family v]) (a.emit (.indexed family v)) := by
  obtain ⟨hi, hv, -⟩ := Array.findIdx?_eq_some_iff_getElem.1 hs
  have hc : a.constants[i]? = some a.constants[i] := Array.getElem?_eq_getElem hi
  simp only [Assembly.emit, hs]
  refine ⟨?_, ?_, fun j hj => ?_⟩
  · have hu : ∃ u ∈ l.filterMap Emission.constant?, Value.same u v := by
      refine ⟨a.constants[i], Value.mem_of_mem_firsts ?_, Value.same_symm hv⟩
      rw [← h.pool]
      exact Array.mem_toList_iff.2 (Array.getElem_mem hi)
    rw [h.pool, List.filterMap_append]
    exact ((Value.firsts_concat _ v).trans (if_pos hu)).symm
  · rw [Array.toList_push]
    exact List.rel_append h.instructions (.cons ⟨rfl, _, hc, Value.same_symm hv⟩ .nil)
  · obtain ⟨family', hf⟩ := h.addressed j hj
    exact ⟨family', by simp [Array.mem_toList_iff.1 hf]⟩

/-- A constant that gets a slot. -/
theorem emit_new (h : Assembles l a) {family : Family} {v : Value} (hs : a.slot? v = none) :
    Assembles (l ++ [.indexed family v]) (a.emit (.indexed family v)) := by
  have hnew : ¬ ∃ u ∈ l.filterMap Emission.constant?, Value.same u v := by
    rintro ⟨u, hu, huv⟩
    obtain ⟨c, hc, hcu⟩ := Value.exists_same_of_mem hu
    rw [← h.pool, Array.mem_toList_iff] at hc
    have := Array.findIdx?_eq_none_iff.1 hs c hc
    rw [Value.same_comm, Value.same_trans hcu huv] at this
    cases this
  simp only [Assembly.emit, hs]
  refine ⟨?_, ?_, fun j hj => ?_⟩
  · rw [Array.toList_push, h.pool, List.filterMap_append]
    exact ((Value.firsts_concat _ v).trans (if_neg hnew)).symm
  · rw [Array.toList_push]
    refine List.rel_append (h.instructions.imp fun _ _ h => h.push v) (.cons ⟨rfl, v, ?_, ?_⟩ .nil)
    · simp
    · exact Value.same_refl v
  · rw [Array.size_push] at hj
    by_cases hjs : j = a.constants.size
    · exact ⟨family, by simp [hjs]⟩
    · obtain ⟨family', hf⟩ := h.addressed j (by omega)
      exact ⟨family', by simp [Array.mem_toList_iff.1 hf]⟩

theorem emit (h : Assembles l a) (e : Emission) : Assembles (l ++ [e]) (a.emit e) := by
  cases e with
  | op o => exact h.emit_op o
  | indexed family v =>
    cases hs : a.slot? v with
    | some i => exact h.emit_known hs
    | none => exact h.emit_new hs

end Assembly.Assembles

/-- **Emissions are assembled in order, with a pool of their constants.** -/
theorem Assembly.assembles_foldl {l m : List Emission} {a : Assembly} (h : Assembles l a) :
    Assembles (l ++ m) (m.foldl emit a) := by
  induction m generalizing l a with
  | nil => simpa using h
  | cons e m ih => simpa using ih (h.emit e)

end BlockLang
