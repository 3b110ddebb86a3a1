import BlockLang.Proofs.CallTree.Building

/-!
# Writing call trees

The plain way to write a call is to put the word in front of its operands, or an operator behind the
first of them if that one is a leaf. A `Term` is a tree of such calls together with the way in which each
is written; `Term.items` writes it down, and `Term.tree` is the call tree that it stands for.

**Theorem (`callTrees_itemsOf`).** Building reads every forest of terms back: the items of the terms, one
after the other, are the trees of the terms, each call simplified when its operands are.

Nothing in the items tells where an operand ends. What makes them readable is that each word of a call has
as many operands behind it as its arity says, that no term begins with a symbol, so that a leaf
becomes the first operand of an operator only where it is written as such, and that labels change no arity
that is looked up. The induction is on the term, for every draft that it is added to and all items behind
it.
-/

namespace BlockLang

open CallTree

/-! ## Terms -/

/-- The kinds of values that leaves are. -/
def Value.isLeaf : Value → Bool
  | .integer _ | .floating _ | .rational _ | .string _ | .literal _ | .block .. => true
  | _ => false

/-- A word that stands for what is bound to it. -/
structure PlainWord where
  name : String
  notConstant : World.constantWord? name = none

/-- A symbol that can be written behind the first operand of a call of the given name. -/
structure Operator where
  symbol : Symbol
  name : String
  stands : symbol.alias? = some ⟨name, .between⟩

/-- An item that is a tree by itself. -/
inductive Leaf where
  | constant (v : Value) (h : v.isLeaf)
  | load (x : PlainWord)

namespace Leaf

def item : Leaf → Value
  | constant v _ => v
  | load x => .word x.name

def tree : Leaf → CallTree
  | constant v _ => .constant v
  | load x => .load x.name

/-- A variable is no word that is called, and none that a label in `bound` binds. -/
def Fits (w : World) (bound : List String) : Leaf → Prop
  | constant .. => True
  | load x => w.arity? x.name = none ∧ x.name ∉ bound

end Leaf

/-- A tree of calls with the way in which they are written. -/
inductive Term where
  | leaf (l : Leaf)
  /-- A word in front of its operands. -/
  | call (f : PlainWord) (operands : List Term)
  /-- An operator behind its first operand. -/
  | between (first : Leaf) (op : Operator) (others : List Term)
  /-- A label in front of the value that its name gets. -/
  | label (name : String) (value : Term)

namespace Term

mutual

/-- The items that a term is written as. -/
def items : Term → List Value
  | leaf l => [l.item]
  | call f operands => .word f.name :: itemsOf operands
  | between first op others => first.item :: .symbol op.symbol :: itemsOf others
  | label name value => .label name :: value.items

/-- The items of terms, one after the other. -/
def itemsOf : List Term → List Value
  | [] => []
  | t :: l => t.items ++ itemsOf l

end

mutual

/-- The names that labels in a term bind. -/
def labels : Term → List String
  | leaf _ => []
  | call _ operands => labelsOf operands
  | between _ _ others => labelsOf others
  | label name value => name :: value.labels

def labelsOf : List Term → List String
  | [] => []
  | t :: l => t.labels ++ labelsOf l

end

variable (w : World)

mutual

/-- The call tree that a term stands for, every call in its simplified form. -/
def tree : Term → CallTree
  | leaf l => l.tree
  | call f operands =>
    (CallTree.call (w.callHead f.name false) operands.length (treesOf operands)).simplify
  | between first op others =>
    (CallTree.call (w.callHead op.name true) (others.length + 1)
      (first.tree :: treesOf others)).simplify
  | label name value => (CallTree.call (.store name) 1 [value.tree]).simplify

/-- The call trees of terms. -/
def treesOf : List Term → List CallTree
  | [] => []
  | t :: l => t.tree :: treesOf l

end

variable (bound : List String)

mutual

/-- Every call in a term has as many operands as its name takes, at least one, and its name is none that
a label in `bound` binds. -/
def Fits : Term → Prop
  | leaf l => l.Fits w bound
  | call f operands =>
    (w.arity? f.name = some operands.length ∧ f.name ∉ bound) ∧ operands ≠ [] ∧ AllFit operands
  | between first op others =>
    (w.arity? op.name = some (others.length + 1) ∧ op.name ∉ bound) ∧ first.Fits w bound ∧
      AllFit others
  | label _ value => value.Fits

def AllFit : List Term → Prop
  | [] => True
  | t :: l => t.Fits ∧ AllFit l

end

end Term

/-! ## Simplified calls are operands -/

section

variable {a b c left right t : CallTree} {op : Opcode}

theorem isAttr_of_fold? {arith : Arith} (h : fold? arith a b = some c) : c.isAttr = false := by
  unfold fold? at h
  split at h
  · split at h
    · split at h <;> cases h
      rfl
    · cases h
  · cases h

theorem isAttr_of_shareFactor? (h : shareFactor? left right = some c) : c.isAttr = false := by
  unfold shareFactor? at h
  dsimp only at h
  split at h
  · obtain ⟨y, -, rfl⟩ := Option.map_eq_some_iff.1 h
    rfl
  · obtain ⟨y, -, rfl⟩ := Option.map_eq_some_iff.1 h
    rfl
  · cases h

theorem isAttr_of_simplifyBinary? (h : simplifyBinary? op left right = some c) :
    c.isAttr = false := by
  simp only [simplifyBinary?, Option.orElse_eq_orElse, Option.orElse_eq_or,
    Option.or_eq_some_iff] at h
  rcases h with h | ⟨-, h⟩
  · obtain ⟨arith, -, h⟩ := Option.bind_eq_some_iff.1 h
    exact isAttr_of_fold? h
  · split at h
    · split at h
      · cases h
        rfl
      · split at h
        · cases h
          rfl
        · exact isAttr_of_shareFactor? h
    · split at h <;> cases h
      rfl
    · cases h

theorem isAttr_simplify (h : t.isAttr = false) : t.simplify.isAttr = false := by
  unfold simplify
  split
  · split
    · rfl
    · next left right _ _ =>
      cases hs : simplifyBinary? _ left right with
      | none => exact h
      | some c => exact isAttr_of_simplifyBinary? hs
    · exact h
  · exact h

end

theorem isAttr_callHead (w : World) (name : String) (eager : Bool) (n : Nat) (l : List CallTree) :
    (call (w.callHead name eager) n l).isAttr = false := by
  unfold World.callHead
  split
  · rfl
  · split <;> rfl

theorem Leaf.item_ne_symbol (l : Leaf) (s : Symbol) : l.item ≠ .symbol s := by
  intro h
  cases l with
  | constant v hv =>
    cases h
    cases hv
  | load x => cases h

theorem Leaf.item_ne_inline (l : Leaf) (items : List Value) : l.item ≠ .inline items := by
  intro h
  cases l with
  | constant v hv =>
    cases h
    cases hv
  | load x => cases h

theorem Leaf.isAttr_tree (l : Leaf) : l.tree.isAttr = false := by
  cases l <;> rfl

namespace Term

variable (w : World)

theorem isAttr_tree (t : Term) : (t.tree w).isAttr = false := by
  cases t with
  | leaf l => exact l.isAttr_tree
  | call f operands => exact isAttr_simplify (isAttr_callHead ..)
  | between first op others => exact isAttr_simplify (isAttr_callHead ..)
  | label name value => rfl

theorem isAttr_treesOf (l : List Term) : ∀ t ∈ treesOf w l, t.isAttr = false := by
  induction l with
  | nil => simp [treesOf]
  | cons t l ih => exact List.forall_mem_cons.2 ⟨isAttr_tree w t, ih⟩

theorem length_treesOf (l : List Term) : (treesOf w l).length = l.length := by
  induction l with
  | nil => rfl
  | cons t l ih => simp [treesOf, ih]

end Term

/-! ## Filling frames -/

theorem put_enter (d : Draft) (f : Frame) (t : CallTree) :
    (d.enter f).put t =
      if (f.push t).isFull then d.put ((f.push t).close true) else d.enter (f.push t) := rfl

theorem operandCount_push (f : Frame) (t : CallTree) :
    (f.push t).operandCount = f.operandCount + (operands [t]).length := by
  unfold Frame.operandCount Frame.push
  rw [operands_cons, operands_cons]
  split <;> rfl

/-- **A frame that gets all the operands that it waits for** becomes a call, and the call goes to the
frame outside. Attributes may come before the last operand. -/
theorem foldl_put_enter_concat (d : Draft) (trees : List CallTree) {last : CallTree}
    (hlast : last.isAttr = false) (f : Frame)
    (hn : f.operandCount + (operands trees).length + 1 = f.arity) :
    (trees ++ [last]).foldl Draft.put (d.enter f) =
      d.put (call f.head f.arity (f.given.reverse ++ (trees ++ [last]))).simplify := by
  induction trees generalizing f with
  | nil =>
    have hcount : (f.push last).operandCount = f.arity := by
      rw [operandCount_push, operands_cons, hlast]
      exact hn
    have hfull : (f.push last).isFull := beq_iff_eq.2 hcount
    rw [List.nil_append, List.foldl_cons, put_enter, if_pos hfull, List.foldl_nil, Frame.close, if_pos rfl,
      Frame.tree, Frame.push, List.reverse_cons]
  | cons t trees ih =>
    have hsplit : (operands (t :: trees)).length = (operands [t]).length + (operands trees).length := by
      rw [← List.length_append, ← operands_append, List.singleton_append]
    have hcount := operandCount_push f t
    have hopen : ¬ (f.push t).isFull := by
      intro hfull
      have hfull : (f.push t).operandCount = f.arity := beq_iff_eq.1 hfull
      omega
    have hrest : (f.push t).operandCount + (operands trees).length + 1 = (f.push t).arity := by
      change _ = f.arity
      omega
    rw [List.cons_append, List.foldl_cons, put_enter, if_neg hopen, ih (f.push t) hrest]
    simp [Frame.push]

theorem foldl_put_enter (d : Draft) {trees : List CallTree} (hne : trees ≠ [])
    (hattr : ∀ t ∈ trees, t.isAttr = false) (f : Frame)
    (hn : f.operandCount + trees.length = f.arity) :
    trees.foldl Draft.put (d.enter f) =
      d.put (call f.head f.arity (f.given.reverse ++ trees)).simplify := by
  obtain ⟨trees, last, rfl⟩ := List.eq_nil_or_concat trees |>.resolve_left hne
  rw [List.concat_eq_append] at hattr hn ⊢
  obtain ⟨htrees, hlast⟩ := List.forall_mem_append.1 hattr
  refine foldl_put_enter_concat d trees (hlast last List.mem_cons_self) f ?_
  have hall : operands trees = trees := List.filter_eq_self.2 fun t ht => by rw [htrees t ht]; rfl
  rw [hall, ← hn, List.length_append]
  rfl

/-- Trees outside of any frame are finished. -/
theorem foldl_put_settled (trees done : List CallTree) :
    trees.foldl Draft.put { opened := [], done } = { opened := [], done := trees.reverse ++ done } := by
  induction trees generalizing done with
  | nil => rfl
  | cons t trees ih =>
    have hput : Draft.put { opened := [], done } t = { opened := [], done := t :: done } := rfl
    rw [List.foldl_cons, hput, ih]
    simp

/-! ## Reading terms back -/

namespace World

variable {w v : World} {bound : List String} {d : Draft} {rest : List Value}

/-- The worlds differ at most in the arities of names in `bound`. -/
def Relabelled (bound : List String) (w v : World) : Prop :=
  ∃ arities, v = { w with scope.arities := arities } ∧
    ∀ name, name ∉ bound → arities.get? name = w.arity? name

namespace Relabelled

protected theorem refl (bound : List String) (w : World) : w.Relabelled bound w :=
  ⟨w.scope.arities, rfl, fun _ _ => rfl⟩

theorem arity? (h : w.Relabelled bound v) {name : String} (hn : name ∉ bound) :
    v.arity? name = w.arity? name := by
  obtain ⟨arities, rfl, ha⟩ := h
  exact ha name hn

theorem callHead (h : w.Relabelled bound v) : v.callHead = w.callHead := by
  obtain ⟨arities, rfl, -⟩ := h
  rfl

/-- A label changes no arity but that of its name. -/
theorem declare (h : w.Relabelled bound v) {name : String} (hn : name ∈ bound)
    (rest : List Value) : w.Relabelled bound (declare v name rest) := by
  rcases declare_eq name rest with he | ⟨a, he⟩
  · rw [he]
    exact h
  · rw [he]
    obtain ⟨arities, rfl, ha⟩ := h
    refine ⟨_, rfl, fun other ho => ?_⟩
    have hne : other ≠ name := fun e => ho (e ▸ hn)
    exact (NameTable.get?_put_of_ne hne).trans (ha other ho)

end Relabelled

/-- The next item is no symbol. -/
def Quiet (rest : List Value) : Prop := ∀ s l, rest ≠ .symbol s :: l

theorem attach_of_quiet (hq : Quiet rest) (d : Draft) (t : CallTree) :
    v.attach d t rest = (d.put t, 0) := by
  have hnone : v.operator? rest = none := by
    unfold operator?
    split
    · exact absurd rfl (hq _ _)
    · rfl
  rw [attach, hnone]

/-- An operator behind a tree takes it as the first operand. -/
theorem attach_of_operator (op : Operator) {n : Nat} (hn : v.arity? op.name = some (n + 1))
    (d : Draft) (t : CallTree) :
    v.attach d t (.symbol op.symbol :: rest) =
      ((d.begin (v.callHead op.name true) (n + 1)).put t, 1) := by
  have hsome : v.operator? (.symbol op.symbol :: rest) =
      some (v.callHead op.name true, n + 1) := by
    simp [operator?, op.stands, hn]
  rw [attach, hsome]

/-- A leaf is attached as its tree. -/
theorem run_placeItem_leaf {l : Leaf} (hl : l.Fits w bound) (hv : w.Relabelled bound v) (d : Draft)
    (rest : List Value) :
    (placeItem d l.item rest).run.run v = (.ok (v.attach d l.tree rest), v) := by
  cases l with
  | constant c hc => cases c <;> first | rfl | cases hc
  | load x =>
    obtain ⟨harity, hbound⟩ := hl
    rw [← hv.arity? hbound] at harity
    have hplace : v.placeWord d x.name rest = v.attach d (.load x.name) rest := by
      simp [placeWord, x.notConstant, harity]
    exact congrArg (fun r => (Except.ok r, v)) hplace

/-- One item, and then the rest. -/
theorem run_addItems_cons {item : Value} {d' : Draft} {v v' : World} {skip : Nat} (used : Nat)
    (hi : ∀ items, item ≠ .inline items) (ha : item ≠ .symbol .arrow)
    (h : (placeItem d item rest).run.run v = (.ok (d', skip), v')) :
    (addItems false d 0 used (item :: rest)).run.run v =
      (addItems false d' skip (used + 1) rest).run.run v' := by
  rw [addItems.eq_5 _ _ _ _ _ hi ha, run_bind_of_ok h]
  rfl

theorem quiet_items (t : Term) (rest : List Value) : Quiet (t.items ++ rest) := by
  intro s l h
  cases t with
  | leaf first => exact first.item_ne_symbol s (List.cons.inj h).1
  | call f operands => cases h
  | between first op others => exact first.item_ne_symbol s (List.cons.inj h).1
  | label name value => cases h

theorem quiet_itemsOf (l : List Term) (hq : Quiet rest) : Quiet (Term.itemsOf l ++ rest) := by
  cases l with
  | nil => exact hq
  | cons t l =>
    rw [Term.itemsOf, List.append_assoc]
    exact quiet_items t _

/-- A word with an arity begins a call. -/
theorem run_placeItem_call {f : PlainWord} {n : Nat} (harity : v.arity? f.name = some n)
    (hn : n ≠ 0) (d : Draft) (rest : List Value) :
    (placeItem d (.word f.name) rest).run.run v =
      (.ok (d.begin (v.callHead f.name false) n, 0), v) := by
  have hplace : v.placeWord d f.name rest = (d.begin (v.callHead f.name false) n, 0) := by
    simp [placeWord, f.notConstant, harity, beginCall, hn]
  exact congrArg (fun r => (Except.ok r, v)) hplace

/-- Some items at the beginning of others take one draft to another, whatever their number counts
from. -/
def Reads (bound : List String) (w v : World) (d d' : Draft) (items rest : List Value) : Prop :=
  ∀ used, ∃ v', w.Relabelled bound v' ∧
    (addItems false d 0 used (items ++ rest)).run.run v =
      (addItems false d' 0 (used + items.length) rest).run.run v'

theorem Reads.trans {d' d'' : Draft} {items items' : List Value}
    (h : Reads bound w v d d' items (items' ++ rest))
    (h' : ∀ v', w.Relabelled bound v' → Reads bound w v' d' d'' items' rest) :
    Reads bound w v d d'' (items ++ items') rest := by
  intro used
  obtain ⟨v₁, hv₁, hrun⟩ := h used
  obtain ⟨v₂, hv₂, hrun'⟩ := h' v₁ hv₁ (used + items.length)
  refine ⟨v₂, hv₂, ?_⟩
  rw [List.append_assoc, hrun, hrun', List.length_append, Nat.add_assoc]

/-- An item that uses up no others. -/
theorem reads_item {item : Value} {d' : Draft} {v' : World}
    (hi : ∀ items, item ≠ .inline items) (ha : item ≠ .symbol .arrow)
    (h : (placeItem d item rest).run.run v = (.ok (d', 0), v')) (hv : w.Relabelled bound v') :
    Reads bound w v d d' [item] rest :=
  fun used => ⟨v', hv, run_addItems_cons used hi ha h⟩

/-- A leaf with an operator behind it begins the call of the operator. -/
theorem reads_operator {first : Leaf} (hl : first.Fits w bound) {op : Operator} {n : Nat}
    (harity : v.arity? op.name = some (n + 1)) (hv : w.Relabelled bound v) (d : Draft) :
    Reads bound w v d ((d.begin (w.callHead op.name true) (n + 1)).put first.tree)
      [first.item, .symbol op.symbol] rest := by
  intro used
  have hplace := run_placeItem_leaf hl hv d (.symbol op.symbol :: rest)
  rw [attach_of_operator op harity, hv.callHead] at hplace
  have hrun := run_addItems_cons used first.item_ne_inline (first.item_ne_symbol _) hplace
  exact ⟨v, hv, hrun⟩

mutual

/-- **A term is read as its tree**, which goes to the innermost open frame. -/
theorem reads_term {v : World} {rest : List Value} (d : Draft) (hq : Quiet rest)
    (hv : w.Relabelled bound v) : (t : Term) →
    t.Fits w bound → t.labels ⊆ bound → Reads bound w v d (d.put (t.tree w)) t.items rest
  | .leaf l, hl, _ => by
    have hplace := run_placeItem_leaf hl hv d rest
    rw [attach_of_quiet hq] at hplace
    exact reads_item l.item_ne_inline (l.item_ne_symbol _) hplace hv
  | .call f operands, hf, hlabels => by
    obtain ⟨⟨harity, hbound⟩, hne, hall⟩ := hf
    have hlength : (Term.treesOf w operands).length = operands.length := Term.length_treesOf ..
    rw [← hv.arity? hbound] at harity
    have hplace := run_placeItem_call harity (by simpa using hne) d
      (Term.itemsOf operands ++ rest)
    rw [hv.callHead] at hplace
    have hword : Reads bound w v d (d.begin (w.callHead f.name false) operands.length)
        [.word f.name] (Term.itemsOf operands ++ rest) := reads_item (by simp) (by simp) hplace hv
    have htree : (Term.treesOf w operands).foldl Draft.put
        (d.begin (w.callHead f.name false) operands.length) = d.put (Term.tree w (.call f operands)) := by
      refine foldl_put_enter d ?_ (Term.isAttr_treesOf w operands) _ ?_
      · rwa [← List.length_pos_iff, hlength, List.length_pos_iff]
      · simpa [Frame.operandCount] using hlength
    rw [← htree]
    exact hword.trans fun v' hv' => reads_terms _ hq hv' operands hall hlabels
  | .between first op others, hf, hlabels => by
    obtain ⟨⟨harity, hbound⟩, hfirst, hall⟩ := hf
    have hlength : (Term.treesOf w others).length = others.length := Term.length_treesOf ..
    rw [← hv.arity? hbound] at harity
    have hop : Reads bound w v d _ [first.item, .symbol op.symbol] (Term.itemsOf others ++ rest) :=
      reads_operator hfirst harity hv d
    have htree : (first.tree :: Term.treesOf w others).foldl Draft.put
        (d.begin (w.callHead op.name true) (others.length + 1)) =
          d.put (Term.tree w (.between first op others)) := by
      refine foldl_put_enter d (by simp) ?_ _ ?_
      · exact List.forall_mem_cons.2 ⟨first.isAttr_tree, Term.isAttr_treesOf w others⟩
      · simp [Frame.operandCount, hlength]
    rw [← htree]
    exact hop.trans fun v' hv' => reads_terms _ hq hv' others hall hlabels
  | .label name value, hf, hlabels => by
    obtain ⟨hname, hlabels⟩ := List.cons_subset.1 hlabels
    have hv' := hv.declare hname (value.items ++ rest)
    have hplace : (placeItem d (.label name) (value.items ++ rest)).run.run v =
        (.ok (d.begin (.store name) 1, 0), declare v name (value.items ++ rest)) := rfl
    have hlabel : Reads bound w v d (d.begin (.store name) 1) [.label name]
        (value.items ++ rest) := reads_item (by simp) (by simp) hplace hv'
    have htree : (d.begin (.store name) 1).put (value.tree w) =
        d.put (Term.tree w (.label name value)) := by
      refine foldl_put_enter d (List.cons_ne_nil (value.tree w) []) ?_ _ rfl
      simpa using value.isAttr_tree w
    rw [← htree]
    exact hlabel.trans fun v' hv' => reads_term _ hq hv' value hf hlabels

theorem reads_terms {v : World} {rest : List Value} (d : Draft) (hq : Quiet rest)
    (hv : w.Relabelled bound v) : (l : List Term) →
    Term.AllFit w bound l → Term.labelsOf l ⊆ bound →
    Reads bound w v d ((Term.treesOf w l).foldl Draft.put d) (Term.itemsOf l) rest
  | [], _, _ => fun used => ⟨v, hv, rfl⟩
  | t :: l, hf, hlabels => by
    obtain ⟨ht, hl⟩ := hf
    obtain ⟨hlabel, hlabels⟩ := List.append_subset.1 hlabels
    have hterm := reads_term d (quiet_itemsOf l hq) hv t ht hlabel
    exact hterm.trans fun v' hv' => reads_terms (d.put (t.tree w)) hq hv' l hl hlabels

end

/-- **Building inverts writing.** Terms written one after the other, each with as many operands as its
arity says and none called by a name that a label binds, are built into their trees. Only the arities of
the names that they label may change. -/
theorem callTrees_itemsOf {w : World} {forest : List Term}
    (h : Term.AllFit w (Term.labelsOf forest) forest) :
    ∃ v, w.Relabelled (Term.labelsOf forest) v ∧
      w.callTrees (Term.itemsOf forest) = (.ok (Term.treesOf w forest), v) := by
  have hquiet : Quiet [] := fun _ _ h => nomatch h
  obtain ⟨v, hv, hrun⟩ := reads_terms {} hquiet (.refl _ w) forest h (List.Subset.refl _) 0
  refine ⟨v, hv, ?_⟩
  have hdone := foldl_put_settled (Term.treesOf w forest) []
  rw [List.append_nil] at hrun hdone
  rw [callTrees_eq, hrun, hdone]
  change (Except.ok (Draft.trees _), v) = _
  simp [Draft.trees]

/-- `x: add 1 y + 2 * 3`: operators group to the right, and the calls are simplified from inside. -/
theorem callTrees_operators :
    let items : List Value := [.label "x", .word "add", .integer 1, .word "y", .symbol .plus,
      .integer 2, .symbol .asterisk, .integer 3]
    ∃ v, (initial {}).callTrees items =
      (.ok [.call (.store "x") 1 [.call (.operation .inc) 1
        [.call (.operation .add) 2 [.load "y", .constant (.integer 6)]]]], v) := by
  intro items
  let plus : Operator := ⟨.plus, "add", rfl⟩
  let times : Operator := ⟨.asterisk, "mul", rfl⟩
  let integer (n : Int64) : Leaf := .constant (.integer n) rfl
  let product : Term := .between (integer 2) times [.leaf (integer 3)]
  let sum : Term := .between (.load ⟨"y", rfl⟩) plus [product]
  let forest : List Term := [.label "x" (.call ⟨"add", rfl⟩ [.leaf (integer 1), sum])]
  have hfit : Term.AllFit (initial {}) (Term.labelsOf forest) forest := by
    simp only [forest, sum, product, Term.AllFit, Term.Fits, Leaf.Fits]
    decide +kernel
  obtain ⟨v, -, hv⟩ := callTrees_itemsOf hfit
  refine ⟨v, hv.trans ?_⟩
  have hadd : (initial {}).opcodeOf? "add" = some .add := by decide +kernel
  have hmul : (initial {}).opcodeOf? "mul" = some .mul := by decide +kernel
  simp only [forest, sum, product, Term.treesOf, Term.tree, callHead, plus, times, hadd, hmul]
  rfl

end World

end BlockLang
