import BlockLang.CallTree.Draft
import BlockLang.Proofs.CallTree.Postorder
import BlockLang.Proofs.Value.Code

/-!
# What the calls in a tree do

Every call in a tree has as many operands as its arity, a property of heads and arities holds of all of them,
and the code and the functions that constants refer to lie in given sets (`CallTree.Calls`). The simplifier
replaces calls by others, so it has to be a property that these have as well (`Head.Lawful`): operations with
the arity that they have in the language, and turned round comparisons with the arity that they had.

**Theorem (`Calls.simplify`).** Simplifying keeps such a property of all calls in a tree. The rewrites move
operands and change arities together, so each is checked against the operands it leaves.

**Theorem (`Draft.Calls.put`).** So does putting a tree into a draft: a frame is closed exactly when it has as
many operands as its arity, and then it makes a complete call.
-/

namespace BlockLang

/-- A property of calls that those made by the builder itself and by the simplifier have. -/
structure Head.Lawful (P : Head → (arity : Nat) → Prop) : Prop where
  attr : ∀ name, P (.attr name) 1
  store : ∀ name, P (.store name) 1
  operation : ∀ {b : Builtin} {op : Opcode}, b.opcode? = some op → P (.operation op) b.arity
  negated : ∀ {op op' : Opcode} {arity : Nat}, op.negatedComparison? = some op' →
    P (.operation op) arity → P (.operation op') arity

namespace CallTree

variable {P : Head → Nat → Prop} {A : CodeRef → Prop} {B : FunctionRef → Prop} {t : CallTree}
  {l children : List CallTree} {head : Head} {arity : Nat}

/-- Every call in the tree is complete, the property holds of its head and arity, and constants refer to code
in `A` and to functions in `B` only. -/
inductive Calls (P : Head → Nat → Prop) (A : CodeRef → Prop) (B : FunctionRef → Prop) : CallTree → Prop
  | constant {v : Value} (hv : v.RefersIn A B) : Calls P A B (constant v)
  | load (name : String) : Calls P A B (load name)
  | call {head : Head} {arity : Nat} {children : List CallTree} (hhead : P head arity)
      (harity : (operands children).length = arity) (hchildren : ∀ t ∈ children, Calls P A B t) :
      Calls P A B (call head arity children)

/-! ## Operands -/

theorem mem_operands : t ∈ operands l ↔ t ∈ l ∧ t.isAttr = false := by
  simp [operands]

theorem operands_cons : operands (t :: l) = if t.isAttr then operands l else t :: operands l := by
  cases h : t.isAttr <;> simp [operands, h]

@[simp] theorem isAttr_constant (v : Value) : (constant v).isAttr = false := rfl

@[simp] theorem isAttr_load (name : String) : (load name).isAttr = false := rfl

@[simp] theorem operands_nil : operands [] = [] := rfl

@[simp] theorem operands_append (l l' : List CallTree) :
    operands (l ++ l') = operands l ++ operands l' := List.filter_append ..

@[simp] theorem length_operands_reverse (l : List CallTree) :
    (operands l.reverse).length = (operands l).length := by
  simp [operands, List.filter_reverse]

@[simp] theorem operands_operands (l : List CallTree) : operands (operands l) = operands l := by
  simp [operands]

theorem Calls.of_mem_operands (h : Calls P A B (.call head arity children)) (ht : t ∈ operands children) :
    Calls P A B t := by
  cases h with
  | call _ _ hc => exact hc t (mem_operands.1 ht).1

theorem Calls.isComplete (h : Calls P A B t) : t.isComplete := by
  cases h with
  | call _ hn _ => simpa [CallTree.isComplete] using hn
  | _ => rfl

theorem Calls.at? {p : List Nat} {u : CallTree} (h : Calls P A B t) (hu : t.at? p = some u) :
    Calls P A B u := by
  induction p generalizing u with
  | nil => exact Option.some.inj hu ▸ h
  | cons i p ih =>
    obtain ⟨parent, hparent, hchild⟩ := Option.bind_eq_some_iff.1 hu
    cases ih hparent with
    | constant | load => simp [CallTree.children] at hchild
    | call _ _ hc => exact hc u (List.mem_of_getElem? hchild)

theorem Calls.node_of_mem_postorder {trees : List CallTree} {n : Located}
    (h : ∀ t ∈ trees, Calls P A B t) (hn : n ∈ postorder trees) : Calls P A B n.node := by
  obtain ⟨p, i, t, -, ht, hu⟩ := mem_postorder.1 hn
  exact (h t (List.mem_of_getElem? ht)).at? hu

/-- **The property holds of every call among the nodes.** -/
theorem Calls.of_mem_postorder {trees : List CallTree} {n : Located} (h : ∀ t ∈ trees, Calls P A B t)
    (hn : n ∈ postorder trees) (hc : n.node = .call head arity children) :
    P head arity ∧ (operands children).length = arity := by
  have hcalls := Calls.node_of_mem_postorder h hn
  rw [hc] at hcalls
  cases hcalls with
  | call hhead harity _ => exact ⟨hhead, harity⟩

/-! ## Simplifying -/

section

variable {a b c x y left right : CallTree} {op : Opcode} (hP : Head.Lawful P)

include hP

/-- Operands are not attributes, so a call of them alone is complete. -/
theorem calls_operation {b : Builtin} (hb : b.opcode? = some op) (hn : l.length = b.arity)
    (hl : ∀ t ∈ l, Calls P A B t ∧ t.isAttr = false) : Calls P A B (operation op l) := by
  refine .call (hn ▸ hP.operation hb) ?_ fun t ht => (hl t ht).1
  rw [operands, List.filter_eq_self.2 fun t ht => by simp [(hl t ht).2]]

omit hP in
theorem Calls.fold {arith : Arith} (h : fold? arith a b = some c) : Calls P A B c ∧ c.isAttr = false := by
  unfold fold? at h
  split at h
  · split at h
    · split at h
      · cases h
        exact ⟨.constant (Value.refersIn_of_isNumeric (Arith.isNumeric_of_apply ‹_›)), rfl⟩
      · cases h
    · cases h
  · cases h

theorem Calls.successor (ht : Calls P A B t) (ha : t.isAttr = false) :
    Calls P A B (successor t) ∧ (successor t).isAttr = false := by
  unfold CallTree.successor
  cases hf : fold? .add t (.constant (.integer 1)) with
  | some c => exact Calls.fold hf
  | none => exact ⟨calls_operation hP (b := .inc) rfl rfl (by simp [ht, ha]), rfl⟩

omit hP in
theorem calls_factors (h : factors? t = some (a, b)) (ht : Calls P A B t) :
    (Calls P A B a ∧ a.isAttr = false) ∧ Calls P A B b ∧ b.isAttr = false := by
  unfold factors? at h
  split at h
  · split at h
    · next hab =>
      cases h
      have mem (c : CallTree) (hc : c ∈ [a, b]) : Calls P A B c ∧ c.isAttr = false := by
        rw [← hab] at hc
        exact ⟨ht.of_mem_operands hc, (mem_operands.1 hc).2⟩
      exact ⟨mem a (by simp), mem b (by simp)⟩
    · cases h
  · cases h

theorem Calls.share {factors : CallTree × CallTree} {product : CallTree}
    (h : (cofactor? x factors).map (fun y => operation .mul [x, CallTree.successor y]) =
      some product)
    (hx : Calls P A B x ∧ x.isAttr = false)
    (hf : (Calls P A B factors.1 ∧ factors.1.isAttr = false) ∧
      Calls P A B factors.2 ∧ factors.2.isAttr = false) : Calls P A B product := by
  obtain ⟨y, hy, rfl⟩ := Option.map_eq_some_iff.1 h
  have hy : Calls P A B y ∧ y.isAttr = false := by
    unfold cofactor? at hy
    split at hy
    · cases hy; exact hf.2
    · split at hy
      · cases hy; exact hf.1
      · cases hy
  exact calls_operation hP (b := .mul) rfl rfl (by simp [hx, hy.1.successor hP hy.2])

theorem Calls.shareFactor (h : shareFactor? left right = some c)
    (hl : Calls P A B left ∧ left.isAttr = false) (hr : Calls P A B right ∧ right.isAttr = false) :
    Calls P A B c := by
  unfold shareFactor? at h
  split at h
  · exact share hP h hl (calls_factors ‹_› hr.1)
  · exact share hP h hr (calls_factors ‹_› hl.1)
  · cases h

theorem Calls.simplifyBinary (h : simplifyBinary? op left right = some c)
    (hl : Calls P A B left ∧ left.isAttr = false) (hr : Calls P A B right ∧ right.isAttr = false) :
    Calls P A B c := by
  have increment {t : CallTree} (ht : Calls P A B t ∧ t.isAttr = false) : Calls P A B (operation .inc [t]) :=
    calls_operation hP (b := .inc) rfl rfl (by simp [ht])
  simp only [simplifyBinary?, Option.orElse_eq_orElse, Option.orElse_eq_or,
    Option.or_eq_some_iff] at h
  rcases h with h | ⟨-, h⟩
  · obtain ⟨arith, -, h⟩ := Option.bind_eq_some_iff.1 h
    exact (Calls.fold h).1
  · split at h
    · split at h
      · cases h
        exact increment hl
      · split at h
        · cases h
          exact increment hr
        · exact Calls.shareFactor hP h hl hr
    · split at h
      · cases h
        exact calls_operation hP (b := .dec) rfl rfl (by simp [hl])
      · cases h
    · cases h

theorem Calls.opposite (ht : Calls P A B t) (ha : t.isAttr = false) :
    Calls P A B (opposite t) ∧ (opposite t).isAttr = false := by
  have wrapped : Calls P A B (operation .logicalNot [t]) :=
    calls_operation hP (b := .logicalNot) rfl rfl (by simp [ht, ha])
  unfold CallTree.opposite
  split
  · split
    · cases ht with
      | call hh hn hc => exact ⟨.call (hP.negated ‹_› hh) hn hc, rfl⟩
    · split
      · next inner hi _ =>
        have hm : inner ∈ operands _ := hi ▸ List.mem_singleton_self inner
        exact ⟨ht.of_mem_operands hm, (mem_operands.1 hm).2⟩
      · exact ⟨wrapped, rfl⟩
  · exact ⟨wrapped, rfl⟩

omit hP in
/-- Changing the first operand into another one keeps the number of operands. -/
theorem calls_modifyFirst {f : CallTree → CallTree}
    (hf : ∀ t, Calls P A B t → t.isAttr = false → Calls P A B (f t) ∧ (f t).isAttr = false)
    (hl : ∀ t ∈ l, Calls P A B t) :
    (operands (modifyFirst f l)).length = (operands l).length ∧ ∀ t ∈ modifyFirst f l, Calls P A B t := by
  induction l with
  | nil => simp [modifyFirst]
  | cons t l ih =>
    have ih := ih fun t ht => hl t (List.mem_cons_of_mem _ ht)
    have ht := hl t List.mem_cons_self
    unfold modifyFirst
    cases ha : t.isAttr with
    | true => simpa [operands_cons, ha, ht] using ih
    | false =>
      obtain ⟨hc, hn⟩ := hf t ht ha
      refine ⟨by simp [operands_cons, ha, hn], ?_⟩
      simp only [Bool.false_eq_true, if_false, List.forall_mem_cons]
      exact ⟨hc, fun t ht => hl t (List.mem_cons_of_mem _ ht)⟩

/-- **Simplifying keeps a property of all calls.** -/
theorem Calls.simplify (ht : Calls P A B t) : Calls P A B t.simplify := by
  unfold CallTree.simplify
  split
  · next op arity children =>
    split
    · next hoperands =>
      cases ht with
      | call _ hn hc =>
        obtain ⟨hlen, hall⟩ := calls_modifyFirst (fun t => Calls.opposite hP) hc
        rw [hoperands] at hn
        subst hn
        exact .call (hP.operation (b := .ifTrue) rfl) (hlen.trans (by rw [hoperands])) hall
    · next left right _ hlr =>
      have mem (c : CallTree) (hc : c ∈ [left, right]) : Calls P A B c ∧ c.isAttr = false := by
        rw [← hlr] at hc
        exact ⟨ht.of_mem_operands hc, (mem_operands.1 hc).2⟩
      cases hs : simplifyBinary? _ left right with
      | none => exact ht
      | some c => exact Calls.simplifyBinary hP hs (mem left (by simp)) (mem right (by simp))
    · exact ht
  · exact ht

end

/-! ## Drafts -/

/-- Splitting an operand off loses nothing. -/
theorem mem_splitOperand {u : CallTree} : u ∈ l ↔ (splitOperand l).1 = some u ∨ u ∈ (splitOperand l).2 := by
  induction l with
  | nil => simp [splitOperand]
  | cons t l ih =>
    unfold splitOperand
    split
    · dsimp only
      rw [List.mem_cons, List.mem_cons, ih]
      exact or_left_comm
    · rw [List.mem_cons, Option.some.injEq, eq_comm]

/-- The property holds of the call that the frame makes, and of all calls in its children. -/
structure Frame.Calls (P : Head → Nat → Prop) (A : CodeRef → Prop) (B : FunctionRef → Prop) (f : Frame) :
    Prop where
  head : P f.head f.arity
  given : ∀ t ∈ f.given, CallTree.Calls P A B t

/-- The property holds of all open frames and in all finished trees of a draft. -/
structure Draft.Calls (P : Head → Nat → Prop) (A : CodeRef → Prop) (B : FunctionRef → Prop) (d : Draft) :
    Prop where
  opened : ∀ f ∈ d.opened, f.Calls P A B
  done : ∀ t ∈ d.done, CallTree.Calls P A B t

variable {f : Frame} {d d' : Draft} {opened : List Frame} {done : List CallTree}

theorem Frame.Calls.push (hf : f.Calls P A B) (ht : CallTree.Calls P A B t) : (f.push t).Calls P A B :=
  ⟨hf.head, List.forall_mem_cons.2 ⟨ht, hf.given⟩⟩

theorem Frame.Calls.close (hP : Head.Lawful P) (hf : f.Calls P A B) (hfull : f.isFull)
    (simplifying : Bool) : CallTree.Calls P A B (f.close simplifying) := by
  have htree : CallTree.Calls P A B f.tree :=
    .call hf.head (by simpa [Frame.isFull, Frame.operandCount] using hfull) (by simpa using hf.given)
  cases simplifying with
  | true => exact htree.simplify hP
  | false => exact htree

namespace Draft.Calls

protected theorem empty : Draft.Calls P A B {} := ⟨by simp, by simp⟩

theorem putInto (hP : Head.Lawful P) (simplifying : Bool) (ht : CallTree.Calls P A B t)
    (ho : ∀ f ∈ opened, f.Calls P A B) (hd : ∀ t ∈ done, CallTree.Calls P A B t) :
    (Draft.putInto simplifying t done opened).Calls P A B := by
  induction opened generalizing t with
  | nil => exact ⟨by simp [Draft.putInto], by simpa [Draft.putInto] using ⟨ht, hd⟩⟩
  | cons f opened ih =>
    obtain ⟨hf, ho⟩ := List.forall_mem_cons.1 ho
    have hpush := hf.push ht
    unfold Draft.putInto
    by_cases hfull : (f.push t).isFull
    · simp only [hfull, if_true]
      exact ih (hpush.close hP hfull simplifying) ho
    · simp only [hfull]
      exact ⟨List.forall_mem_cons.2 ⟨hpush, ho⟩, hd⟩

/-- **Putting a tree into a draft keeps a property of all calls.** -/
theorem put (hP : Head.Lawful P) (hd : d.Calls P A B) (ht : CallTree.Calls P A B t) : (d.put t).Calls P A B :=
  putInto hP true ht hd.opened hd.done

theorem putPlain (hP : Head.Lawful P) (hd : d.Calls P A B) (ht : CallTree.Calls P A B t) :
    (d.putPlain t).Calls P A B := putInto hP false ht hd.opened hd.done

theorem enter (hd : d.Calls P A B) (hf : f.Calls P A B) : (d.enter f).Calls P A B :=
  ⟨List.forall_mem_cons.2 ⟨hf, hd.opened⟩, hd.done⟩

theorem begin (hd : d.Calls P A B) (hh : P head arity) : (d.begin head arity).Calls P A B :=
  hd.enter ⟨hh, by simp⟩

theorem trees (hd : d.Calls P A B) : ∀ t ∈ d.trees, CallTree.Calls P A B t := by
  simpa [Draft.trees] using hd.done

theorem takeOperand (h : d.takeOperand? = some (t, d')) (hd : d.Calls P A B) :
    CallTree.Calls P A B t ∧ d'.Calls P A B := by
  unfold Draft.takeOperand? at h
  split at h
  · next ho =>
    split at h
    · next hs =>
      cases h
      have hdone : ∀ u, some t = some u ∨ u ∈ _ → CallTree.Calls P A B u := fun u hu =>
        hd.done u (mem_splitOperand.2 (by rwa [hs]))
      exact ⟨hdone _ (.inl rfl), ho ▸ by simp, fun u hu => hdone u (.inr hu)⟩
    · cases h
  · next f opened ho =>
    split at h
    · next hs =>
      cases h
      have hall := hd.opened
      rw [ho] at hall
      obtain ⟨hf, hrest⟩ := List.forall_mem_cons.1 hall
      have hgiven : ∀ u, some t = some u ∨ u ∈ _ → CallTree.Calls P A B u := fun u hu =>
        hf.given u (mem_splitOperand.2 (by rwa [hs]))
      refine ⟨hgiven _ (.inl rfl), List.forall_mem_cons.2 ⟨⟨hf.head, ?_⟩, hrest⟩, hd.done⟩
      exact fun u hu => hgiven u (.inr hu)
    · cases h

/-- A call that takes its first operand from the trees in front of it. -/
theorem pipe (hP : Head.Lawful P) (h : d.pipe? head arity = some d') (hd : d.Calls P A B)
    (hh : P head arity) : d'.Calls P A B := by
  obtain ⟨⟨latest, d₁⟩, ht, rfl⟩ := Option.map_eq_some_iff.1 h
  obtain ⟨hlatest, hd₁⟩ := takeOperand ht hd
  dsimp only
  split
  · next name n children =>
    cases hlatest with
    | call hhead _ hc =>
      have hsplit : ∀ u, (splitOperand children.reverse).1 = some u ∨
          u ∈ (splitOperand children.reverse).2 → CallTree.Calls P A B u := fun u hu =>
        hc u (List.mem_reverse.1 (mem_splitOperand.2 hu))
      revert hsplit
      rcases splitOperand children.reverse with ⟨stored?, given⟩
      intro hsplit
      have hbegun := (hd₁.enter (f := { head := .store name, arity := n, given })
        ⟨hhead, fun u hu => hsplit u (.inr hu)⟩).begin hh
      cases stored? with
      | none => exact hbegun
      | some stored => exact hbegun.put hP (hsplit stored (.inl rfl))
  · exact (hd₁.begin hh).put hP hlatest

end Draft.Calls

end CallTree

end BlockLang
