import BlockLang.Proofs.CallTree.Labels

/-!
# The operands of operations

An opcode takes the operands that its operation waits for. The builder finds the opcode of a call in the
binding of the name and the number of its operands in the table of arities, and a label writes to that
table ahead of the binding it belongs to. So the two may disagree: behind `add: function [a] [..]`, a call of
`add` is still an addition, and has one operand.

**Theorem (`World.operands_of_operation`).** That is the only way to a wrong number. In the trees of any
items built in any world, an operation has as many operands as it waits for, or the arity of the name that
it was called by had been changed under its first binding: by a label among the items, in front of a
function form, or in the world from the beginning (`World.Miscounts`).

The calls that the builder begins have this property in every world that building passes through, and
`calls_callTrees` carries it through drafts and the simplifier, which turns comparisons round and otherwise
puts operations in with their own arity.
-/

namespace BlockLang

open CallTree

namespace World

variable {items : List Value} {w₀ w : World}

/-! ## Operations -/

/-- An operation that still has its first binding can be called with another number of operands than it
waits for: the world says so, or a label among the items. Its calls have the given opcode, or come to
have it when a comparison is turned round. -/
def Miscounts (w : World) (items : List Value) (op : Opcode) (count : Nat) : Prop :=
  ∃ b : Builtin, b.arity ≠ count ∧
    (b.opcode? = some op ∨ b.opcode?.bind Opcode.negatedComparison? = some op) ∧
    w.opcodeOf? b.name = b.opcode? ∧ (w.arity? b.name = some count ∨ Says items b.name (some count))

/-- An operation has the operands that it waits for, or else its name has got another arity. -/
def Counted (w : World) (items : List Value) : Head → (arity : Nat) → Prop
  | .operation op, arity => ∃ b : Builtin, b.opcode? = some op ∧ (arity = b.arity ∨ w.Miscounts items op arity)
  | _, _ => True

theorem exists_negated {b : Builtin} {op op' : Opcode} (h : op.negatedComparison? = some op')
    (hb : b.opcode? = some op) : ∃ b' : Builtin, b'.opcode? = some op' ∧ b'.arity = b.arity := by
  cases b <;> cases hb <;> cases h
  · exact ⟨.ne, rfl, rfl⟩
  · exact ⟨.eq, rfl, rfl⟩
  · exact ⟨.le, rfl, rfl⟩
  · exact ⟨.lt, rfl, rfl⟩
  · exact ⟨.ge, rfl, rfl⟩
  · exact ⟨.gt, rfl, rfl⟩

theorem negatedComparison_symm {op op' : Opcode} (h : op.negatedComparison? = some op') :
    op'.negatedComparison? = some op := by
  cases op <;> cases h <;> rfl

theorem Miscounts.negated {op op' : Opcode} {count : Nat} (hop : op.negatedComparison? = some op')
    (h : w.Miscounts items op count) : w.Miscounts items op' count := by
  obtain ⟨b, hne, hb, hrest⟩ := h
  refine ⟨b, hne, ?_, hrest⟩
  rcases hb with hb | hb
  · exact .inr (by rw [hb, Option.bind_some, hop])
  · obtain ⟨op'', hb, hneg⟩ := Option.bind_eq_some_iff.1 hb
    have hsame := negatedComparison_symm hneg
    rw [hop] at hsame
    cases hsame
    exact .inl hb

theorem lawful_counted (w : World) (items : List Value) : Head.Lawful (w.Counted items) where
  attr _ := trivial
  store _ := trivial
  operation hb := ⟨_, hb, .inl rfl⟩
  negated := by
    rintro op op' arity hop ⟨b, hb, hcount⟩
    obtain ⟨b', hb', harity⟩ := exists_negated hop hb
    exact ⟨b', hb', hcount.imp (·.trans harity.symm) (·.negated hop)⟩

theorem Rebuilt.opcodeOf? (h : w₀.Rebuilt w) (name : String) :
    w.opcodeOf? name = w₀.opcodeOf? name := by
  obtain ⟨arities, names, rfl⟩ := h
  rfl

theorem RelabelledBy.admits_counted (h : RelabelledBy items w₀ w) : w.Admits (w₀.Counted items) where
  name name eager arity ha := by
    unfold callHead
    split
    · next op hop =>
      obtain ⟨b, rfl, hb⟩ := of_opcodeOf? hop
      refine ⟨b, hb, ?_⟩
      by_cases heq : arity = b.arity
      · exact .inl heq
      · refine .inr ⟨b, Ne.symm heq, .inl hb, ?_, ?_⟩
        · rw [← h.rebuilt.opcodeOf?, hop, hb]
        · rw [← ha]
          exact (h.arity? b.name).imp Eq.symm id
    · split <;> trivial
  path _ _ _ := trivial

/-- **Opcodes get the operands that they consume, unless a name was given another arity under its first
binding.** -/
theorem operands_of_operation {trees : List CallTree} (h : (w.callTrees items).1 = .ok trees)
    {n : Located} (hn : n ∈ postorder trees) {op : Opcode} {arity : Nat} {children : List CallTree}
    (hc : n.node = .call (.operation op) arity children) :
    ∃ b, Builtin.ofOpcode? op = some b ∧
      ((operands children).length = b.arity ∨ w.Miscounts items op (operands children).length) := by
  have hcalls := calls_callTrees (lawful_counted w items) (fun v hv => hv.admits_counted)
    (fun v _ => v.codesIn_true) h
  obtain ⟨⟨b, hb, hcount⟩, hlen⟩ := Calls.of_mem_postorder hcalls hn hc
  exact ⟨b, Builtin.ofOpcode?_eq_some_iff.2 hb, hlen ▸ hcount⟩

/-- Where the table of arities is right about the operations that have their first binding, and no label
gives one of them another arity, every operation has the operands that it waits for. -/
theorem operands_of_inStep {trees : List CallTree} (h : (w.callTrees items).1 = .ok trees)
    (hw : ∀ b : Builtin, w.opcodeOf? b.name = b.opcode? → ∀ k, w.arity? b.name = some k → k = b.arity)
    (hl : ∀ b : Builtin, ∀ k, Says items b.name (some k) → k = b.arity)
    {n : Located} (hn : n ∈ postorder trees) {op : Opcode} {arity : Nat} {children : List CallTree}
    (hc : n.node = .call (.operation op) arity children) :
    ∃ b, Builtin.ofOpcode? op = some b ∧ (operands children).length = b.arity := by
  obtain ⟨b, hb, hcount | ⟨c, hne, -, hbound, ha⟩⟩ := operands_of_operation h hn hc
  · exact ⟨b, hb, hcount⟩
  · rcases ha with ha | ha
    · exact absurd (hw c hbound _ ha).symm hne
    · exact absurd (hl c _ ha).symm hne

/-- `add: function [a] [a] print add 1`, read. -/
def relabelledAddition : List Value :=
  [.label "add", .word "function", .block [.word "a"] false, .block [.word "a"] false, .word "print",
    .word "add", .integer 1]

/-- The tree adds one operand to nothing. -/
def addsOne : CallTree → Bool
  | .call (.operation .add) _ children => (operands children).length == 1
  | _ => false

theorem exists_addition_of_one :
    ∃ trees n arity children, ((initial {}).callTrees relabelledAddition).1 = .ok trees ∧
      n ∈ postorder trees ∧ n.node = .call (.operation .add) arity children ∧
      (operands children).length = 1 := by
  have hbuilt : (((initial {}).callTrees relabelledAddition).1.toOption.map fun trees =>
      (postorder trees).any fun n => addsOne n.node) = some true := by decide +kernel
  obtain ⟨trees, htrees, hany⟩ := Option.map_eq_some_iff.1 hbuilt
  obtain ⟨n, hn, hone⟩ := List.any_eq_true.1 hany
  have hok : ((initial {}).callTrees relabelledAddition).1 = .ok trees := by
    revert htrees
    cases ((initial {}).callTrees relabelledAddition).1 with
    | ok l => exact fun hl => congrArg _ (Option.some.inj hl)
    | error e =>
      intro hl
      cases hl
  unfold addsOne at hone
  split at hone
  · next arity children hnode => exact ⟨trees, n, arity, children, hok, hn, hnode, eq_of_beq hone⟩
  · cases hone

theorem operands_of_operation_addition :
    ∃ trees n arity children, ((initial {}).callTrees relabelledAddition).1 = .ok trees ∧
      n ∈ postorder trees ∧ n.node = .call (.operation .add) arity children ∧
      ∃ b, Builtin.ofOpcode? .add = some b ∧ ((operands children).length = b.arity ∨
        (initial {}).Miscounts relabelledAddition .add (operands children).length) := by
  obtain ⟨trees, n, arity, children, hok, hn, hnode, -⟩ := exists_addition_of_one
  exact ⟨trees, n, arity, children, hok, hn, hnode, operands_of_operation hok hn hnode⟩

/-- **An operation may get fewer operands than it consumes**: where `add` has been declared with one
parameter, it is still called as an addition. -/
theorem relabelled_operand_missing :
    ¬∀ (items : List Value) (trees : List CallTree),
      ((initial {}).callTrees items).1 = .ok trees → ∀ n ∈ postorder trees,
        ∀ op arity children b, n.node = .call (.operation op) arity children →
          Builtin.ofOpcode? op = some b → (operands children).length = b.arity := by
  intro h
  obtain ⟨trees, n, arity, children, hok, hn, hnode, hone⟩ := exists_addition_of_one
  have hcount := h relabelledAddition trees hok n hn .add arity children .add hnode rfl
  rw [hone] at hcount
  cases hcount

end World

end BlockLang
