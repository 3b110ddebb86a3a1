import BlockLang.Proofs.CallTree.Soundness
import Mathlib.Logic.Relation

/-!
# Two ways through call trees

The nodes from one node on are listed by recursion (`Located.postorder`), or by a loop that keeps a
stack of nodes still to be visited (`Unwinding`). A turn of the loop visits the node on top of the stack
and puts its children there, the last child on top; what is visited goes in front of what was visited
before. `unwind` is this loop with a bound on the number of turns.

**Theorem (`callTrees_traversals`).** In call trees that are built, the loop ends wherever it starts, and
has then visited the nodes in the order that recursion gives: every node at or below the start, each
once.

**The invariant** (`outcome_of_next?`). On the stack are whole trees, none of which has been entered.
Listed from the bottom of the stack to its top, in front of what was visited, they give the order that
the loop will end with. A turn takes one node off the trees on the stack, so there are as many turns as
nodes.
-/

namespace BlockLang

namespace CallTree

variable {l starts order : List Located} {m n : Located} {turns count : Nat}

/-- The nodes from one node on, by recursion: children before parents, siblings from left to right. -/
def Located.postorder (n : Located) : List Located := postorderAt n.place n.node

/-- The children of a node, at their places. -/
def Located.children (n : Located) : List Located := locate n.place 0 n.node.children

theorem Located.postorder_eq (n : Located) :
    n.postorder = n.children.flatMap Located.postorder ++ [n] := postorderAt_eq n

theorem postorder_eq_flatMap (l : List CallTree) :
    CallTree.postorder l = (locate [] 0 l).flatMap Located.postorder := postorderFrom_eq [] 0 l

/-! ## The loop -/

/-- The state of the loop. -/
structure Unwinding where
  /-- The nodes still to be visited, the next one first. -/
  stack : List Located
  /-- The nodes visited, the latest one first. -/
  visited : List Located := []

namespace Unwinding

variable {v v' : Unwinding}

/-- The loop before its first turn, with nodes to start from, from left to right. -/
def start (starts : List Located) : Unwinding := { stack := starts.reverse }

/-- One turn. Where the stack is empty, the loop has ended. -/
def next? (v : Unwinding) : Option Unwinding :=
  match v.stack with
  | [] => none
  | top :: stack => some { stack := top.children.reverse ++ stack, visited := top :: v.visited }

/-- After so many turns the loop ends, and the nodes have been visited in this order. -/
inductive Ends : (v : Unwinding) → (turns : Nat) → (order : List Located) → Prop
  | done {v : Unwinding} : v.next? = none → Ends v 0 v.visited
  | turn {v v' : Unwinding} {turns : Nat} {order : List Located} : v.next? = some v' →
    Ends v' turns order → Ends v (turns + 1) order

/-- What the loop is to end with. -/
def outcome (v : Unwinding) : List Located := v.stack.reverse.flatMap Located.postorder ++ v.visited

/-- The number of nodes in the trees on the stack. -/
def remaining (v : Unwinding) : Nat := stackSize v.stack

theorem next?_eq_none : v.next? = none ↔ v.stack = [] := by
  unfold next?
  split <;> simp [*]

theorem next?_eq_some (h : v.next? = some v') : ∃ top stack, v.stack = top :: stack ∧
    v' = { stack := top.children.reverse ++ stack, visited := top :: v.visited } := by
  unfold next? at h
  split at h
  · cases h
  · next top stack hs => exact ⟨top, stack, hs, (Option.some.inj h).symm⟩

/-- **A turn does not change what the loop is to end with.** -/
theorem outcome_of_next? (h : v.next? = some v') : v'.outcome = v.outcome := by
  obtain ⟨top, stack, hs, rfl⟩ := next?_eq_some h
  simp [outcome, hs, top.postorder_eq]

/-- A turn takes one node off the trees on the stack. -/
theorem remaining_of_next? (h : v.next? = some v') : v.remaining = v'.remaining + 1 := by
  obtain ⟨top, stack, hs, rfl⟩ := next?_eq_some h
  have hchildren : stackSize top.children.reverse = sizeAll top.node.children := by
    rw [stackSize_reverse, Located.children, stackSize_locate]
  show stackSize v.stack = stackSize (top.children.reverse ++ stack) + 1
  rw [hs, stackSize, size_eq, stackSize_append, hchildren]
  omega

/-- Nothing remains only where nothing is on the stack. -/
theorem stack_eq_nil (h : v.remaining = 0) : v.stack = [] := by
  cases hs : v.stack with
  | nil => rfl
  | cons top stack =>
    rw [remaining, hs, stackSize, size_eq] at h
    omega

/-- **The loop ends**, after as many turns as nodes remain, and in one way only. -/
theorem ends_iff : v.Ends turns order ↔ turns = v.remaining ∧ order = v.outcome := by
  constructor
  · intro h
    induction h with
    | @done v h =>
      have hs := next?_eq_none.1 h
      simp [remaining, outcome, hs, stackSize]
    | turn h _ ih => exact ⟨by rw [remaining_of_next? h, ih.1], by rw [← outcome_of_next? h, ih.2]⟩
  · rintro ⟨rfl, rfl⟩
    -- Each turn leaves one node less, so this is by induction on their number.
    generalize hr : v.remaining = k
    induction k generalizing v with
    | zero =>
      have hs := stack_eq_nil hr
      have hv : v.outcome = v.visited := by simp [outcome, hs]
      rw [hv]
      exact .done (next?_eq_none.2 hs)
    | succ k ih =>
      cases hv : v.next? with
      | none =>
        rw [remaining, next?_eq_none.1 hv] at hr
        cases hr
      | some v' =>
        have hr' : v'.remaining = k := by
          have := remaining_of_next? hv
          omega
        rw [← outcome_of_next? hv]
        exact .turn hv (ih hr')

/-- A bound that the loop stays under does not show. -/
theorem unwind_of_ends (h : v.Ends turns order) (hc : turns ≤ count) :
    unwind count v.stack v.visited = order := by
  induction h generalizing count with
  | done h =>
    rw [next?_eq_none.1 h]
    cases count <;> rfl
  | turn h _ ih =>
    obtain ⟨top, stack, hs, rfl⟩ := next?_eq_some h
    obtain ⟨count, rfl⟩ := Nat.exists_eq_add_of_le' hc
    rw [hs]
    exact ih (Nat.le_add_left ..)

theorem outcome_start (starts : List Located) :
    (start starts).outcome = starts.flatMap Located.postorder := by
  simp [outcome, start]

end Unwinding

/-! ## The nodes below -/

/-- **What is listed from a node on is that node and what lies below it.** -/
theorem Located.mem_postorder : m ∈ n.postorder ↔ Relation.ReflTransGen Located.IsParent n m := by
  rw [Located.postorder, mem_postorderAt]
  constructor
  · rintro ⟨p, hplace, hnode⟩
    induction p generalizing m with
    | nil =>
      obtain rfl : n = m := by
        cases n
        cases m
        cases hplace
        cases hnode
        rfl
      exact .refl
    | cons i p ih =>
      obtain ⟨u, hu, hchild⟩ := Option.bind_eq_some_iff.1 hnode
      have hu : Relation.ReflTransGen Located.IsParent n ⟨p ++ n.place, u⟩ :=
        ih (m := ⟨_, u⟩) rfl hu
      exact hu.tail ⟨i, hplace, hchild⟩
  · intro h
    induction h with
    | refl => exact ⟨[], rfl, rfl⟩
    | tail _ hparent ih =>
      obtain ⟨p, hplace, hnode⟩ := ih
      obtain ⟨i, hi, hchild⟩ := hparent
      exact ⟨i :: p, by rw [hi, hplace]; rfl, by simpa [hnode] using hchild⟩

/-- From some nodes on, the loop and the recursion list the same. -/
structure Traversed (starts order : List Located) : Prop where
  /-- The loop ends, with this order and no other. -/
  ends : ∀ result, (∃ turns, (Unwinding.start starts).Ends turns result) ↔ result = order
  /-- A bound on the turns lets the loop end if there are as many as nodes. -/
  computed : ∀ count, order.length ≤ count → unwind count starts.reverse [] = order
  /-- No node is listed twice. -/
  once : (order.map Located.place).Nodup
  /-- The nodes at or below those to start from are listed, and no others. -/
  listed : ∀ m, m ∈ order ↔ ∃ n ∈ starts, Relation.ReflTransGen Located.IsParent n m

theorem stackSize_eq_length (l : List Located) :
    stackSize l = (l.flatMap Located.postorder).length := by
  induction l with
  | nil => rfl
  | cons n l ih =>
    have hn : n.postorder.length = n.node.size := length_postorderAt n.place n.node
    rw [stackSize, ih, List.flatMap_cons, List.length_append, hn]

theorem Traversed.of_nodup (h : ((starts.flatMap Located.postorder).map Located.place).Nodup) :
    Traversed starts (starts.flatMap Located.postorder) := by
  have hends : (Unwinding.start starts).Ends (starts.flatMap Located.postorder).length
      (starts.flatMap Located.postorder) := by
    refine Unwinding.ends_iff.2 ⟨?_, (Unwinding.outcome_start starts).symm⟩
    rw [Unwinding.remaining, Unwinding.start, stackSize_reverse, stackSize_eq_length]
  refine ⟨fun result => ⟨?_, ?_⟩, fun count hc => Unwinding.unwind_of_ends hends hc, h, fun m => ?_⟩
  · rintro ⟨turns, hresult⟩
    rw [(Unwinding.ends_iff.1 hresult).2, Unwinding.outcome_start]
  · rintro rfl
    exact ⟨_, hends⟩
  · simp only [List.mem_flatMap, Located.mem_postorder]

/-- From the root on, which is no node itself. -/
theorem Traversed.root (l : List CallTree) : Traversed (locate [] 0 l) (CallTree.postorder l) := by
  have h := nodup_places l
  rw [postorder_eq_flatMap] at h ⊢
  exact .of_nodup h

theorem Traversed.node (n : Located) : Traversed [n] n.postorder := by
  have h : [n].flatMap Located.postorder = n.postorder := by simp
  have hnodup : (n.postorder.map Located.place).Nodup := nodup_postorderAt n.place n.node
  rw [← h] at hnodup ⊢
  exact .of_nodup hnodup

end CallTree

namespace World

open CallTree

/-- **In call trees that are built, loop and recursion agree**, from the root on and from every node
on. -/
theorem callTrees_traversals (w : World) (items : List Value) :
    ∀ trees w', w.callTrees items = (.ok trees, w') →
      stackOrder trees = postorder trees ∧ Traversed (locate [] 0 trees) (postorder trees) ∧
        ∀ n ∈ postorder trees, Traversed [n] n.postorder :=
  fun trees _ _ => ⟨stackOrder_eq trees, .root trees, fun n _ => .node n⟩

/-- The sum of a variable and a multiple of it is built as a product. From there on both ways list four
nodes, and from its second factor on two of them. -/
theorem callTrees_traversals_product :
    let scope : Scope := { bindings := [("add", .function ⟨0⟩), ("mul", .function ⟨1⟩)],
                           arities := [("add", 2), ("mul", 2)] }
    let heap : Heap := { callables := #[.builtin .add, .builtin .mul] }
    let w : World := { config := {}, memo := .empty 1, scope, heap }
    let items : List Value := [.word "x", .symbol .plus, .word "x", .symbol .asterisk, .word "y"]
    let y : Located := ⟨[0, 1, 0], .load "y"⟩
    let factor : Located := ⟨[1, 0], operation .inc [y.node]⟩
    let product : Located := ⟨[0], operation .mul [.load "x", factor.node]⟩
    ∃ trees w', w.callTrees items = (.ok trees, w') ∧ trees = [product.node] ∧
      stackOrder trees = [⟨[0, 0], .load "x"⟩, y, factor, product] ∧
      Traversed [product] [⟨[0, 0], .load "x"⟩, y, factor, product] ∧
      Traversed [factor] [y, factor] := by
  intro scope heap w items y factor product
  have hbuilt : w.callTrees items = (.ok [product.node], w) := rfl
  obtain ⟨hstack, -, hnodes⟩ := callTrees_traversals w items _ _ hbuilt
  have hproduct : product ∈ postorder [product.node] := mem_postorder_root.2 rfl
  have hfactor : factor ∈ postorder [product.node] := mem_of_isParent hproduct ⟨1, rfl, rfl⟩
  exact ⟨_, _, hbuilt, rfl, hstack, hnodes _ hproduct, hnodes _ hfactor⟩

end World

end BlockLang
