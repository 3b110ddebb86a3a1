import BlockLang.Proofs.CallTree.Heads

/-!
# Well-formed call trees

A call tree is well-formed when every call in it has as many operands as its arity, does something
that a call can do (`Head.IsCall`), and when the code that its constants refer to lies in a given set.
What calls do is a property that the simplifier respects (`Head.lawful_isCall`), so simplifying keeps a tree
well-formed, and so does putting a tree into a draft.
-/

namespace BlockLang

/-- A call that building makes: an attribute or a binding has one operand, a target is a word or a
function, and an opcode stands for an operation of the language. -/
def Head.IsCall : Head → (arity : Nat) → Prop
  | .attr _, arity | .store _, arity => arity = 1
  | .other (.word _), _ | .other (.function _), _ => True
  | .other _, _ => False
  | .operation op, _ => ∃ b : Builtin, b.opcode? = some op

theorem Opcode.exists_builtin_of_negated {op op' : Opcode} (h : op.negatedComparison? = some op') :
    ∃ b : Builtin, b.opcode? = some op' := by
  cases op <;> simp only [negatedComparison?, Option.some.injEq, reduceCtorEq] at h <;> subst h
  case eq => exact ⟨.ne, rfl⟩
  case ne => exact ⟨.eq, rfl⟩
  case gt => exact ⟨.le, rfl⟩
  case ge => exact ⟨.lt, rfl⟩
  case lt => exact ⟨.ge, rfl⟩
  case le => exact ⟨.gt, rfl⟩

theorem Head.lawful_isCall : Head.Lawful Head.IsCall where
  attr _ := rfl
  store _ := rfl
  operation hb := ⟨_, hb⟩
  negated hop _ := Opcode.exists_builtin_of_negated hop

namespace CallTree

variable {A : CodeRef → Prop} {l : List CallTree}

/-- Every call in the tree is complete, and the code of its constants lies in `A`. -/
abbrev WellFormed (A : CodeRef → Prop) (t : CallTree) : Prop := t.Calls Head.IsCall A fun _ => True

/-- Operands are not attributes, so a call of them alone is complete. -/
theorem wellFormed_operation {op : Opcode} (hop : ∃ b : Builtin, b.opcode? = some op)
    (hl : ∀ t ∈ l, WellFormed A t ∧ t.isAttr = false) : WellFormed A (operation op l) := by
  refine .call hop ?_ fun t ht => (hl t ht).1
  rw [operands, List.filter_eq_self.2 fun t ht => by simp [(hl t ht).2]]

end CallTree

end BlockLang
