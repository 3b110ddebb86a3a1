import BlockLang.CallTree.Basic

/-!
# Nodes and their places

The order of evaluation lists a node together with its place, the positions that lead to it.

**Theorem (`mem_postorder`).** A node is listed at a place exactly if it is found there by going from a
tree of the sequence to a child, again and again.

**Theorem (`nodup_places`).** No place is listed twice.

**Theorem (`stackOrder_eq`).** The order found with a stack is the same. What is on the stack are whole
trees that come before everything visited so far.

So the places make a forest of what is listed: the parent of a node stands at the rest of its place.
-/

namespace BlockLang.CallTree

variable {l : List CallTree} {t u : CallTree} {n : Located} {place p : List Nat} {i j : Nat}

/-! ## Going down -/

/-- The node that some positions lead to, the last position first. -/
def at? (t : CallTree) : List Nat → Option CallTree
  | [] => some t
  | i :: p => (t.at? p).bind fun u => u.children[i]?

@[simp] theorem at?_nil : t.at? [] = some t := rfl

@[simp] theorem at?_cons : t.at? (i :: p) = (t.at? p).bind fun u => u.children[i]? := rfl

/-- The way from a child is the way from its parent, one step shorter. -/
theorem at?_append_child (t : CallTree) (i : Nat) (p : List Nat) :
    t.at? (p ++ [i]) = t.children[i]?.bind fun u => u.at? p := by
  induction p with
  | nil => simp
  | cons j p ih =>
    rw [List.cons_append, at?_cons, ih]
    cases t.children[i]? with
    | none => rfl
    | some u => rfl

/-- A node without children leads nowhere. -/
theorem at?_leaf (ht : t.children = []) : t.at? p = some u ↔ p = [] ∧ t = u := by
  rcases List.eq_nil_or_concat p with rfl | ⟨p, i, rfl⟩
  · simp
  · rw [List.concat_eq_append, at?_append_child, ht]
    simp

/-! ## What is listed -/

theorem mem_leaf (ht : t.children = []) :
    n ∈ [⟨place, t⟩] ↔ ∃ p, n.place = p ++ place ∧ t.at? p = some n.node := by
  simp only [at?_leaf ht, List.mem_singleton]
  constructor
  · rintro rfl
    exact ⟨[], rfl, rfl, rfl⟩
  · rintro ⟨_, hp, rfl, rfl⟩
    cases n
    cases hp
    rfl

mutual

theorem mem_postorderAt (place : List Nat) (n : Located) : (t : CallTree) →
    (n ∈ postorderAt place t ↔ ∃ p, n.place = p ++ place ∧ t.at? p = some n.node)
  | call head arity children => by
    rw [postorderAt, List.mem_append, mem_postorderFrom place 0 n children, List.mem_singleton]
    constructor
    · rintro (⟨p, i, u, hp, hu, hn⟩ | rfl)
      · refine ⟨p ++ [i], by simpa using hp, ?_⟩
        rw [at?_append_child]
        simpa [CallTree.children, hu] using hn
      · exact ⟨[], rfl, rfl⟩
    · rintro ⟨p, hp, hn⟩
      rcases List.eq_nil_or_concat p with rfl | ⟨p, i, rfl⟩
      · cases n
        cases hp
        cases hn
        exact .inr rfl
      · rw [List.concat_eq_append, at?_append_child] at hn
        obtain ⟨u, hu, hn⟩ := Option.bind_eq_some_iff.1 hn
        exact .inl ⟨p, i, u, by simpa using hp, hu, hn⟩
  | constant v => mem_leaf rfl
  | load name => mem_leaf rfl

theorem mem_postorderFrom (place : List Nat) (i : Nat) (n : Located) : (l : List CallTree) →
    (n ∈ postorderFrom place i l ↔
      ∃ p j u, n.place = p ++ (i + j) :: place ∧ l[j]? = some u ∧ u.at? p = some n.node)
  | [] => by simp [postorderFrom]
  | t :: l => by
    rw [postorderFrom, List.mem_append, mem_postorderAt (i :: place) n t,
      mem_postorderFrom place (i + 1) n l]
    constructor
    · rintro (⟨p, hp, hn⟩ | ⟨p, j, u, hp, hu, hn⟩)
      · exact ⟨p, 0, t, hp, rfl, hn⟩
      · exact ⟨p, j + 1, u, by rw [hp, Nat.add_assoc, Nat.add_comm 1], hu, hn⟩
    · rintro ⟨p, _ | j, u, hp, hu, hn⟩
      · cases hu
        exact .inl ⟨p, hp, hn⟩
      · exact .inr ⟨p, j, u, by rw [hp, Nat.add_assoc, Nat.add_comm 1], hu, hn⟩

end

/-- **A node is listed at the places where it is found by going down.** -/
theorem mem_postorder :
    n ∈ postorder l ↔ ∃ p i t, n.place = p ++ [i] ∧ l[i]? = some t ∧ t.at? p = some n.node := by
  have h := mem_postorderFrom [] 0 n l
  simp only [Nat.zero_add] at h
  exact h

/-- Nodes below different siblings stand at different places. -/
theorem ne_of_siblings {q : List Nat} (h : i ≠ j) : p ++ i :: place ≠ q ++ j :: place := by
  intro he
  have he' : (p ++ [i]) ++ place = (q ++ [j]) ++ place := by simpa using he
  have := (List.append_inj' he' rfl).1
  exact h (by simpa using (List.append_inj' this rfl).2)

mutual

theorem nodup_postorderAt (place : List Nat) : (t : CallTree) →
    ((postorderAt place t).map Located.place).Nodup
  | call head arity children => by
    rw [postorderAt, List.map_append, List.nodup_append]
    refine ⟨nodup_postorderFrom place 0 children, by simp, ?_⟩
    intro q hq _ hplace
    obtain ⟨n, hn, rfl⟩ := List.mem_map.1 hq
    obtain ⟨p, j, u, hp, -⟩ := (mem_postorderFrom place 0 n children).1 hn
    obtain rfl : _ = place := by simpa using hplace
    rw [hp]
    intro h
    have hlen := congrArg List.length h
    simp only [List.length_append, List.length_cons] at hlen
    omega
  | constant v => by simp [postorderAt]
  | load name => by simp [postorderAt]

theorem nodup_postorderFrom (place : List Nat) (i : Nat) : (l : List CallTree) →
    ((postorderFrom place i l).map Located.place).Nodup
  | [] => by simp [postorderFrom]
  | t :: l => by
    rw [postorderFrom, List.map_append, List.nodup_append]
    refine ⟨nodup_postorderAt (i :: place) t, nodup_postorderFrom place (i + 1) l, ?_⟩
    intro _ ha _ hb
    obtain ⟨n, hn, rfl⟩ := List.mem_map.1 ha
    obtain ⟨m, hm, rfl⟩ := List.mem_map.1 hb
    obtain ⟨p, hp, -⟩ := (mem_postorderAt (i :: place) n t).1 hn
    obtain ⟨q, j, u, hq, -⟩ := (mem_postorderFrom place (i + 1) m l).1 hm
    rw [hp, hq]
    exact ne_of_siblings (by omega)

end

/-- **No place is listed twice.** -/
theorem nodup_places (l : List CallTree) : ((postorder l).map Located.place).Nodup :=
  nodup_postorderFrom [] 0 l

theorem postorderFrom_append (place : List Nat) (i : Nat) (l l' : List CallTree) :
    postorderFrom place i (l ++ l') =
      postorderFrom place i l ++ postorderFrom place (i + l.length) l' := by
  induction l generalizing i with
  | nil => rfl
  | cons t l ih =>
    rw [List.cons_append, postorderFrom, postorderFrom, ih, List.append_assoc, List.length_cons,
      Nat.add_assoc, Nat.add_comm 1]

mutual

theorem length_postorderAt (place : List Nat) : (t : CallTree) → (postorderAt place t).length = t.size
  | call head arity children => by
    rw [postorderAt, List.length_append, length_postorderFrom place 0 children, size, Nat.add_comm]
    rfl
  | constant v => rfl
  | load name => rfl

theorem length_postorderFrom (place : List Nat) (i : Nat) : (l : List CallTree) →
    (postorderFrom place i l).length = sizeAll l
  | [] => rfl
  | t :: l => by
    rw [postorderFrom, List.length_append, length_postorderAt (i :: place) t,
      length_postorderFrom place (i + 1) l, sizeAll]

end

theorem eq_of_singleton {α : Type} {a b : α} {l l' : List α} (h : [a] = l ++ b :: l') :
    l = [] ∧ b = a := by
  cases l with
  | nil => exact ⟨rfl, (List.cons.inj h).1.symm⟩
  | cons c l => simp at h

mutual

/-- The nodes of its children come right before a node. -/
theorem before_postorderAt (place : List Nat) {nodes later : List Located} : (t : CallTree) →
    postorderAt place t = nodes ++ n :: later →
      ∃ outer, nodes = outer ++ postorderFrom n.place 0 n.node.children
  | call head arity children => fun h => by
    rcases List.append_eq_append_iff.1 h with ⟨between, rfl, hlast⟩ | ⟨between, hc, hlast⟩
    · obtain ⟨rfl, rfl⟩ := eq_of_singleton hlast
      exact ⟨[], List.append_nil _⟩
    · cases between with
      | nil =>
        obtain ⟨-, rfl⟩ := eq_of_singleton (l := []) hlast.symm
        exact ⟨[], (hc.trans (List.append_nil _)).symm⟩
      | cons top between =>
        cases hlast
        exact before_postorderFrom place 0 children hc
  | constant v => fun h => by
    obtain ⟨rfl, rfl⟩ := eq_of_singleton h
    exact ⟨[], rfl⟩
  | load name => fun h => by
    obtain ⟨rfl, rfl⟩ := eq_of_singleton h
    exact ⟨[], rfl⟩

theorem before_postorderFrom (place : List Nat) (i : Nat) {nodes later : List Located} :
    (l : List CallTree) → postorderFrom place i l = nodes ++ n :: later →
      ∃ outer, nodes = outer ++ postorderFrom n.place 0 n.node.children
  | [] => fun h => by simp [postorderFrom] at h
  | t :: l => fun h => by
    rcases List.append_eq_append_iff.1 h with ⟨between, rfl, hl⟩ | ⟨between, ht, hl⟩
    · obtain ⟨outer, rfl⟩ := before_postorderFrom place (i + 1) l hl
      exact ⟨postorderAt (i :: place) t ++ outer, (List.append_assoc ..).symm⟩
    · cases between with
      | nil =>
        have hl : postorderFrom place (i + 1) l = [] ++ n :: later := hl.symm
        obtain ⟨outer, ho⟩ := before_postorderFrom place (i + 1) l hl
        have hempty := (List.append_eq_nil_iff.1 ho.symm).2
        exact ⟨nodes, by rw [hempty, List.append_nil]⟩
      | cons top between =>
        cases hl
        exact before_postorderAt (i :: place) t ht

end

/-! ## The order found with a stack -/

theorem postorderFrom_eq (place : List Nat) (i : Nat) (l : List CallTree) :
    postorderFrom place i l = (locate place i l).flatMap fun n => postorderAt n.place n.node := by
  induction l generalizing i with
  | nil => rfl
  | cons t l ih => rw [postorderFrom, locate, List.flatMap_cons, ih]

theorem postorderAt_eq (n : Located) :
    postorderAt n.place n.node =
      ((locate n.place 0 n.node.children).flatMap fun n => postorderAt n.place n.node) ++ [n] := by
  obtain ⟨place, node⟩ := n
  rw [← postorderFrom_eq]
  cases node <;> simp [postorderAt, postorderFrom, CallTree.children]

/-- The number of nodes in the trees on a stack. -/
def stackSize : List Located → Nat
  | [] => 0
  | n :: stack => n.node.size + stackSize stack

theorem stackSize_append (s s' : List Located) :
    stackSize (s ++ s') = stackSize s + stackSize s' := by
  induction s with
  | nil => simp [stackSize]
  | cons n s ih => simp [stackSize, ih, Nat.add_assoc]

theorem stackSize_reverse (s : List Located) : stackSize s.reverse = stackSize s := by
  induction s with
  | nil => rfl
  | cons n s ih => rw [List.reverse_cons, stackSize_append, ih, Nat.add_comm]; rfl

theorem stackSize_locate (place : List Nat) (i : Nat) (l : List CallTree) :
    stackSize (locate place i l) = sizeAll l := by
  induction l generalizing i with
  | nil => rfl
  | cons t l ih => rw [locate, stackSize, sizeAll, ih]

theorem size_eq (t : CallTree) : t.size = 1 + sizeAll t.children := by
  cases t <;> simp [size, sizeAll, CallTree.children]

theorem unwind_eq (count : Nat) (stack visited : List Located) (h : stackSize stack = count) :
    unwind count stack visited =
      (stack.reverse.flatMap fun n => postorderAt n.place n.node) ++ visited := by
  induction count generalizing stack visited with
  | zero =>
    cases stack with
    | nil => simp [unwind]
    | cons top stack =>
      rw [stackSize, size_eq] at h
      omega
  | succ count ih =>
    cases stack with
    | nil => cases h
    | cons top stack =>
      have hsize : stackSize ((locate top.place 0 top.node.children).reverse ++ stack) = count := by
        rw [stackSize, size_eq] at h
        rw [stackSize_append, stackSize_reverse, stackSize_locate]
        omega
      rw [unwind, ih _ _ hsize]
      simp [postorderAt_eq top]

/-- **The order found with a stack is the order of evaluation.** -/
theorem stackOrder_eq (l : List CallTree) : stackOrder l = postorder l := by
  have h : stackSize (locate [] 0 l).reverse = sizeAll l :=
    (stackSize_reverse _).trans (stackSize_locate [] 0 l)
  rw [stackOrder, unwind_eq _ _ _ h, List.reverse_reverse, List.append_nil, postorder,
    postorderFrom_eq]

/-! ## Parents -/

/-- The node is the parent of another one, which stands at the position of that child. -/
def Located.IsParent (m n : Located) : Prop :=
  ∃ i, n.place = i :: m.place ∧ m.node.children[i]? = some n.node

/-- The roots are the trees of the sequence. -/
theorem mem_postorder_root : ⟨[i], t⟩ ∈ postorder l ↔ l[i]? = some t := by
  rw [mem_postorder]
  constructor
  · rintro ⟨p, j, u, hp, hu, ht⟩
    obtain ⟨rfl, hij⟩ := List.append_inj' (show [] ++ [i] = p ++ [j] from hp) rfl
    cases hij
    cases ht
    exact hu
  · intro h
    exact ⟨[], i, t, rfl, h, rfl⟩

theorem place_ne_nil (hn : n ∈ postorder l) : n.place ≠ [] := by
  obtain ⟨p, i, t, hp, -⟩ := mem_postorder.1 hn
  simp [hp]

/-- Two nodes at one place are one node. -/
theorem eq_of_place {m : Located} (hn : n ∈ postorder l) (hm : m ∈ postorder l)
    (h : n.place = m.place) : n = m := by
  obtain ⟨p, i, t, hp, ht, hn⟩ := mem_postorder.1 hn
  obtain ⟨q, j, u, hq, hu, hm⟩ := mem_postorder.1 hm
  obtain ⟨rfl, hij⟩ := List.append_inj' (hp.symm.trans (h.trans hq)) rfl
  cases hij
  rw [ht] at hu
  cases hu
  rw [hn] at hm
  cases n
  cases m
  cases h
  cases hm
  rfl

/-- The children of what is listed are listed. -/
theorem mem_of_isParent {m : Located} (hm : m ∈ postorder l) (h : m.IsParent n) :
    n ∈ postorder l := by
  obtain ⟨p, i, t, hp, ht, hm⟩ := mem_postorder.1 hm
  obtain ⟨j, hj, hn⟩ := h
  exact mem_postorder.2 ⟨j :: p, i, t, by rw [hj, hp]; rfl, ht, by simpa [hm] using hn⟩

/-- **Whatever is no root has one parent.** -/
theorem existsUnique_parent (hn : n ∈ postorder l) (hr : n.place.length ≠ 1) :
    ∃ m ∈ postorder l, m.IsParent n ∧ ∀ m' ∈ postorder l, m'.IsParent n → m' = m := by
  obtain ⟨p, i, t, hp, ht, hat⟩ := mem_postorder.1 hn
  cases p with
  | nil => simp [hp] at hr
  | cons j p =>
    obtain ⟨u, hu, hchild⟩ := Option.bind_eq_some_iff.1 hat
    have hm : ⟨p ++ [i], u⟩ ∈ postorder l := mem_postorder.2 ⟨p, i, t, rfl, ht, hu⟩
    refine ⟨⟨p ++ [i], u⟩, hm, ⟨j, hp, hchild⟩, fun m' hm' ⟨k, hk, _⟩ => ?_⟩
    rw [hp, List.cons_append] at hk
    exact eq_of_place hm' hm (List.cons.inj hk).2.symm

/-- A place right below that of a node is that of its child. -/
theorem isParent_of_tail {m : Located} (hm : m ∈ postorder l) (hn : n ∈ postorder l)
    (h : n.place.tail = m.place) : m.IsParent n := by
  obtain ⟨i, p, hplace⟩ := List.exists_cons_of_ne_nil (place_ne_nil hn)
  obtain rfl : p = m.place := by rw [← h, hplace]; rfl
  have hr : n.place.length ≠ 1 := by
    rw [hplace]
    simpa using place_ne_nil hm
  obtain ⟨m', hm', ⟨j, hj, hchild⟩, -⟩ := existsUnique_parent hn hr
  obtain ⟨rfl, hsame⟩ := List.cons.inj (hplace.symm.trans hj)
  obtain rfl := eq_of_place hm hm' hsame
  exact ⟨i, hplace, hchild⟩

theorem mem_of_isChild {m : Located} (h : m.IsParent n) :
    n ∈ postorderFrom m.place 0 m.node.children := by
  obtain ⟨i, hplace, hchild⟩ := h
  exact (mem_postorderFrom ..).2 ⟨[], i, n.node, by simpa using hplace, hchild, rfl⟩

end BlockLang.CallTree
