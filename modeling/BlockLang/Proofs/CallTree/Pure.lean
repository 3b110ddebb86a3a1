import BlockLang.Proofs.CallTree.WellFormed
import BlockLang.Value.Comparison

/-!
# Pure expressions

A pure expression is built from constants and variables by operations that only look at their operands:
arithmetic, operations on bits and on truth values, and comparisons. `PureExpr.tree` is the call tree of
an expression, each call with as many operands as its operation takes and without attributes.

**Theorem (`opposite_tree`).** The opposite of a condition that is pure is pure.

**Theorem (`exists_shortens`).** An arithmetic call on pure operands that becomes a constant or a step by
one is pure again, and has become so in one of four ways (`Shortens`).
-/

namespace BlockLang

open CallTree

/-! ## Operations -/

/-- A pure operation on one operand. -/
inductive Unary where
  | neg | inc | dec | bnot | logicalNot
deriving DecidableEq, Repr

namespace Unary

def opcode : Unary → Opcode
  | neg => .neg
  | inc => .inc
  | dec => .dec
  | bnot => .bnot
  | logicalNot => .logicalNot

def builtin : Unary → Builtin
  | neg => .neg
  | inc => .inc
  | dec => .dec
  | bnot => .bnot
  | logicalNot => .logicalNot

/-- The result of the operation. -/
def apply : Unary → Value → Except RuntimeError Value
  | neg, v => negate v
  | inc, v => Arith.add.apply v (.integer 1)
  | dec, v => Arith.sub.apply v (.integer 1)
  | bnot, v => v.complement
  | logicalNot, v => v.opposite

theorem opcode?_builtin (f : Unary) : f.builtin.opcode? = some f.opcode := by
  cases f <;> rfl

end Unary

/-- The comparison that holds exactly when the given one does not. -/
def Comparison.complement : Comparison → Comparison
  | gt => le
  | ge => lt
  | lt => ge
  | le => gt

def Comparison.opcode : Comparison → Opcode
  | gt => .gt
  | ge => .ge
  | lt => .lt
  | le => .le

def Arith.opcode : Arith → Opcode
  | add => .add
  | sub => .sub
  | mul => .mul
  | div => .div
  | fdiv => .fdiv
  | mod => .mod
  | pow => .pow

/-- A pure operation on two operands. -/
inductive Binary where
  | arith (op : Arith)
  | bits (op : BitOperation)
  /-- Both truth values hold. -/
  | both
  /-- One of two truth values holds. -/
  | either
  | ordered (c : Comparison)
  /-- The operands are equal, if that is `expected`, or they differ. -/
  | equal (expected : Bool)
deriving DecidableEq, Repr

namespace Binary

def opcode : Binary → Opcode
  | arith op => op.opcode
  | bits .band => .band
  | bits .bor => .bor
  | bits .bxor => .bxor
  | bits .shl => .shl
  | bits .shr => .shr
  | both => .logicalAnd
  | either => .logicalOr
  | ordered c => c.opcode
  | equal expected => if expected then .eq else .ne

def builtin : Binary → Builtin
  | arith .add => .add
  | arith .sub => .sub
  | arith .mul => .mul
  | arith .div => .div
  | arith .fdiv => .fdiv
  | arith .mod => .mod
  | arith .pow => .pow
  | bits .band => .band
  | bits .bor => .bor
  | bits .bxor => .bxor
  | bits .shl => .shl
  | bits .shr => .shr
  | both => .logicalAnd
  | either => .logicalOr
  | ordered .gt => .gt
  | ordered .ge => .ge
  | ordered .lt => .lt
  | ordered .le => .le
  | equal expected => if expected then .eq else .ne

theorem opcode?_builtin (f : Binary) : f.builtin.opcode? = some f.opcode := by
  cases f with
  | arith op => cases op <;> rfl
  | bits op => cases op <;> rfl
  | ordered c => cases c <;> rfl
  | equal expected => cases expected <;> rfl
  | _ => rfl

end Binary

/-! ## Expressions -/

/-- The tree is a constant or a step by one. -/
def CallTree.IsShort : CallTree → Prop
  | constant _ => True
  | call (.operation .inc) .. | call (.operation .dec) .. => True
  | _ => False

/-- An expression that only computes a value. -/
inductive PureExpr where
  | constant (v : Value)
  | load (name : String)
  | unary (f : Unary) (a : PureExpr)
  | binary (f : Binary) (a b : PureExpr)

namespace PureExpr

/-- The call tree of an expression. -/
def tree : PureExpr → CallTree
  | constant v => .constant v
  | load name => .load name
  | unary f a => operation f.opcode [a.tree]
  | binary f a b => operation f.opcode [a.tree, b.tree]

theorem isAttr_tree (e : PureExpr) : e.tree.isAttr = false := by
  cases e <;> rfl

theorem wellFormed_tree (e : PureExpr) : e.tree.WellFormed (fun _ => True) := by
  induction e with
  | constant v => exact .constant v.codesIn_true
  | load name => exact .load name
  | unary f a ha =>
    refine wellFormed_operation ⟨_, f.opcode?_builtin⟩ fun t ht => ?_
    rw [List.mem_singleton.1 ht]
    exact ⟨ha, a.isAttr_tree⟩
  | binary f a b ha hb =>
    refine wellFormed_operation ⟨_, f.opcode?_builtin⟩ fun t ht => ?_
    simp only [List.mem_cons, List.not_mem_nil, or_false] at ht
    rcases ht with rfl | rfl
    · exact ⟨ha, a.isAttr_tree⟩
    · exact ⟨hb, b.isAttr_tree⟩

theorem operands_one (a : PureExpr) : operands [a.tree] = [a.tree] := by
  simp [operands_cons, a.isAttr_tree]

theorem operands_two (a b : PureExpr) : operands [a.tree, b.tree] = [a.tree, b.tree] := by
  simp [operands_cons, a.isAttr_tree, b.isAttr_tree]

/-! ## Opposites -/

/-- A condition that holds exactly when the given one does not. -/
def opposite : PureExpr → PureExpr
  | binary (.ordered c) a b => binary (.ordered c.complement) a b
  | binary (.equal expected) a b => binary (.equal !expected) a b
  | unary .logicalNot a => a
  | e => unary .logicalNot e

/-- **The opposite of a pure condition is pure.** -/
theorem opposite_tree (e : PureExpr) : CallTree.opposite e.tree = e.opposite.tree := by
  cases e with
  | constant v => rfl
  | load name => rfl
  | unary f a =>
    cases f
    case logicalNot =>
      change CallTree.opposite (operation .logicalNot [a.tree]) = a.tree
      unfold operation CallTree.opposite
      simp only [Opcode.negatedComparison?, a.operands_one]
    all_goals rfl
  | binary f a b =>
    cases f with
    | arith op => cases op <;> rfl
    | bits op => cases op <;> rfl
    | ordered c => cases c <;> rfl
    | equal expected => cases expected <;> rfl
    | both | either => rfl

theorem simplify_unless (c : PureExpr) (v : Value) :
    (operation .ifFalse [c.tree, .constant v]).simplify =
      operation .ifTrue [c.opposite.tree, .constant v] := by
  have ho : operands [c.tree, .constant v] = [c.tree, .constant v] :=
    c.operands_two (PureExpr.constant v)
  unfold operation simplify
  simp only [ho, modifyFirst, c.isAttr_tree, opposite_tree]
  rfl

/-! ## Arithmetic -/

/-- The ways in which an operation on two pure operands becomes a constant or a step by one. -/
inductive Shortens : Arith → (left right short : PureExpr) → Prop
  | folded {op : Arith} {a b v : Value} (ha : a.isNumeric) (hb : b.isNumeric)
      (h : op.apply a b = .ok v) : Shortens op (constant a) (constant b) (constant v)
  | plusOne (e : PureExpr) : Shortens .add e (constant (.integer 1)) (unary .inc e)
  | onePlus (e : PureExpr) : Shortens .add (constant (.integer 1)) e (unary .inc e)
  | minusOne (e : PureExpr) : Shortens .sub e (constant (.integer 1)) (unary .dec e)

variable {op : Arith} {l r : PureExpr} {t : CallTree}

theorem eq_constant_of_tree {e : PureExpr} {v : Value} (h : e.tree = .constant v) :
    e = constant v := by
  cases e <;> cases h
  rfl

theorem eq_one_of_isOne {e : PureExpr} (h : e.tree.isOne) : e = constant (.integer 1) := by
  unfold isOne at h
  split at h
  · next n hn =>
    rw [decide_eq_true_eq] at h
    rw [eq_constant_of_tree hn, h]
  · cases h

theorem shortens_of_fold (h : fold? op l.tree r.tree = some t) :
    ∃ e : PureExpr, t = e.tree ∧ Shortens op l r e := by
  unfold fold? at h
  split at h
  · next a b hl hr =>
    split at h
    · next hn =>
      rw [Bool.and_eq_true] at hn
      split at h
      · next v hv =>
        cases h
        rw [eq_constant_of_tree hl, eq_constant_of_tree hr]
        exact ⟨constant v, rfl, .folded hn.1 hn.2 hv⟩
      · cases h
    · cases h
  · cases h

/-- A product is neither a constant nor a step. -/
theorem shareFactor_ne {left right : CallTree} (h : shareFactor? left right = some t) :
    ∃ x y, t = operation .mul [x, y] := by
  unfold shareFactor? at h
  split at h
  · obtain ⟨y, -, rfl⟩ := Option.map_eq_some_iff.1 h
    exact ⟨_, _, rfl⟩
  · obtain ⟨y, -, rfl⟩ := Option.map_eq_some_iff.1 h
    exact ⟨_, _, rfl⟩
  · cases h

theorem simplify_two {o : Opcode} (ho : o ≠ .ifFalse) :
    (operation o [l.tree, r.tree]).simplify =
      (simplifyBinary? o l.tree r.tree).getD (operation o [l.tree, r.tree]) := by
  have hlr := operands_two l r
  unfold operation simplify
  simp only [hlr]

/-- **An arithmetic call that becomes a constant or a step is pure again**, and has become so in one of
four ways. -/
theorem exists_shortens (h : (binary (.arith op) l r).tree.simplify.IsShort) :
    ∃ e : PureExpr, (binary (.arith op) l r).tree.simplify = e.tree ∧ Shortens op l r e := by
  have hop : Arith.ofOpcode? op.opcode = some op := by cases op <;> rfl
  have htwo : (binary (.arith op) l r).tree.simplify = (simplifyBinary? op.opcode l.tree r.tree).getD
      (binary (.arith op) l r).tree := simplify_two (by cases op <;> decide)
  rw [htwo] at h ⊢
  unfold simplifyBinary? at h ⊢
  rw [hop, Option.bind_some] at h ⊢
  cases hf : fold? op l.tree r.tree with
  | some t => exact shortens_of_fold hf
  | none =>
    rw [hf] at h
    simp only [Option.orElse_eq_orElse, Option.orElse_eq_or, Option.none_or] at h ⊢
    cases op with
    | add =>
      dsimp only [Arith.opcode] at h ⊢
      by_cases hr : r.tree.isOne
      · rw [if_pos hr, eq_one_of_isOne hr]
        exact ⟨unary .inc l, rfl, .plusOne l⟩
      by_cases hl : l.tree.isOne
      · rw [if_neg hr, if_pos hl, eq_one_of_isOne hl]
        exact ⟨unary .inc r, rfl, .onePlus r⟩
      rw [if_neg hr, if_neg hl] at h
      cases hs : shareFactor? l.tree r.tree with
      | some t =>
        obtain ⟨x, y, rfl⟩ := shareFactor_ne hs
        rw [hs] at h
        exact absurd h id
      | none =>
        rw [hs] at h
        exact absurd h id
    | sub =>
      dsimp only [Arith.opcode] at h ⊢
      by_cases hr : r.tree.isOne
      · rw [if_pos hr, eq_one_of_isOne hr]
        exact ⟨unary .dec l, rfl, .minusOne l⟩
      rw [if_neg hr] at h
      exact absurd h id
    | _ => exact absurd h id

end PureExpr

end BlockLang
