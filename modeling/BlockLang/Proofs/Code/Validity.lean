import BlockLang.Proofs.Code.Faithful

/-!
# Valid code

A machine finds code invalid where its bytes are no instruction, where an instruction addresses a
constant that is missing, or one without a name where a name is needed, and where nothing stands behind
an opcode.

**Theorem (`validFrom_of_ofCalls`).** The code of call trees is valid from its beginning on.

Code that is generated never jumps, so an offset is valid when the instructions that follow one another
from there are, up to an end.
-/

namespace BlockLang

open CallTree

variable {A : CodeRef → Prop} {constants : Array Value} {n : Located} {i : Instruction}
  {trees : List CallTree} {u : CodeUnit}

/-- The instructions of the family need the name of their constant. -/
def Family.needsName : Family → Bool
  | push | call => false
  | store | load | storeKeep | attr => true

/-- A machine can run the instruction with these constants. -/
def Instruction.IsValid (constants : Array Value) : Instruction → Prop
  | .indexed family index =>
    ∃ v, constants[index]? = some v ∧ (family.needsName = true → v.name?.isSome = true)
  | .op o => o.immediate?.isSome = true ∨ (Builtin.ofOpcode? o).isSome = true ∨
    o ∈ [.nop, .pop, .dup, .dupSecond, .swap, .stop]
  | .jump .. => True

/-- A machine can run the unit from the offset on, and comes to an end without a jump. -/
inductive CodeUnit.ValidFrom (u : CodeUnit) : Nat → Prop
  | stop {pos next : Nat} (hi : decode u.code pos = ⟨some (.op .stop), next⟩) : ValidFrom u pos
  | step {pos next : Nat} {i : Instruction} (hi : decode u.code pos = ⟨some i, next⟩)
      (hvalid : i.IsValid u.constants) (hjump : ∀ condition target, i ≠ .jump condition target)
      (hnext : ValidFrom u next) : ValidFrom u pos

theorem Holds.of_word {index : Nat} {name : String} (h : Holds constants index (.word name)) :
    ∃ v, constants[index]? = some v ∧ v.name?.isSome = true := by
  obtain ⟨c, hc, hs⟩ := h
  refine ⟨c, hc, ?_⟩
  cases c with
  | word => rfl
  | _ => cases hs

/-- What a node becomes is valid, and no jump. -/
theorem valid_of_becomes (hn : n.node.WellFormed A) (h : Becomes constants n i) :
    i.IsValid constants ∧ ∀ condition target, i ≠ .jump condition target := by
  refine ⟨?_, by cases h <;> nofun⟩
  cases h with
  | immediate hc _ => exact .inl (Option.isSome_of_eq_some hc)
  | operation =>
    cases hn with
    | call hhead _ _ =>
      obtain ⟨b, hb⟩ := hhead
      exact .inr (.inl (Option.isSome_of_eq_some (Builtin.ofOpcode?_eq_some_iff.2 hb)))
  | push h | other h =>
    obtain ⟨c, hc, -⟩ := h
    exact ⟨c, hc, nofun⟩
  | load h | attr h | store h | storeKeep _ h =>
    obtain ⟨c, hc, hname⟩ := h.of_word
    exact ⟨c, hc, fun _ => hname⟩

theorem Decodes.validFrom {body : List Instruction} {pos stop next : Nat}
    (h : Decodes u.code pos body stop) (hstop : decode u.code stop = ⟨some (.op .stop), next⟩)
    (hbody : ∀ i ∈ body, i.IsValid u.constants ∧ ∀ condition target, i ≠ .jump condition target) :
    u.ValidFrom pos := by
  induction h with
  | nil pos => exact .stop hstop
  | cons hi _ ih =>
    obtain ⟨⟨hvalid, hjump⟩, hbody⟩ := List.forall_mem_cons.1 hbody
    exact .step hi hvalid hjump (ih hstop hbody)

/-- **The code of call trees is valid.** -/
theorem validFrom_of_ofCalls (ht : ∀ t ∈ trees, t.WellFormed A)
    (h : CodeUnit.ofCalls trees = .ok u) : u.ValidFrom 0 := by
  have hu := faithful_of_ofCalls ht h
  obtain ⟨body, hdecodes, hbecomes, -⟩ := hu.reads
  refine hdecodes.validFrom hu.ends fun i hi => ?_
  obtain ⟨n, hn, hb⟩ := exists_of_mem_right hbecomes hi
  exact valid_of_becomes (Calls.node_of_mem_postorder ht hn) hb

end BlockLang
