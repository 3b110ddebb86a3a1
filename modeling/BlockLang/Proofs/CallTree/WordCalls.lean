import BlockLang.Proofs.CallTree.Resolving

/-!
# Calls by a word

Some of the calls that are written with a word are calls by that word in the unit as well, which look the
word up whenever they are made. The others have become operations.

**Theorem (`Resolves.of_wordCall`).** It is the opcode of the word that decides, and nothing else.

**Theorem (`Resolves.wordCalls`).** The calls by a word among the operands of a unit are those written whose
word has no opcode: all of them, in the order of evaluation, with their operands. Simplifying moves
operands, and loses none that makes a call (`wordCalls_simplify`). Only the attributes of an operation
that is replaced are lost, so what attributes are given is left out of the count.
-/

namespace BlockLang

open CallTree

namespace CallTree

variable {ops : String → Option Opcode} {t u c left right x : CallTree} {l l' children : List CallTree}
  {head : Head} {arity : Nat} {name : String}

/-- The word that the node calls. -/
def word? : CallTree → Option String
  | call (.other (.word name)) .. => some name
  | _ => none

/-- The node itself, if it calls a word. -/
def ownCall (t : CallTree) : List CallTree := if t.word?.isSome then [t] else []

mutual

/-- The calls by a word in a tree, in the order of evaluation. Attributes are left out. -/
def wordCalls : CallTree → List CallTree
  | call head arity children => wordCallsAll children ++ ownCall (call head arity children)
  | _ => []

/-- The calls by a word in the operands among some siblings. -/
def wordCallsAll : List CallTree → List CallTree
  | [] => []
  | t :: l => (if t.isAttr then [] else t.wordCalls) ++ wordCallsAll l

end

/-! ## Simplifying -/

@[simp] theorem wordCalls_call (op : Opcode) (arity : Nat) (children : List CallTree) :
    (call (.operation op) arity children).wordCalls = wordCallsAll children := by
  rw [wordCalls]
  exact List.append_nil _

@[simp] theorem wordCalls_operation (op : Opcode) (l : List CallTree) :
    (operation op l).wordCalls = wordCallsAll l := wordCalls_call ..

theorem wordCallsAll_operands (l : List CallTree) : wordCallsAll (operands l) = wordCallsAll l := by
  induction l with
  | nil => rfl
  | cons t l ih =>
    rw [operands_cons, wordCallsAll]
    cases ha : t.isAttr with
    | true => simpa using ih
    | false => simp [wordCallsAll, ha, ih]

theorem wordCallsAll_one (ha : t.isAttr = false) : wordCallsAll [t] = t.wordCalls := by
  simp [wordCallsAll, ha]

theorem wordCallsAll_two (hl : left.isAttr = false) (hr : right.isAttr = false) :
    wordCallsAll [left, right] = left.wordCalls ++ right.wordCalls := by
  simp [wordCallsAll, hl, hr]

theorem wordCalls_of_isOne (h : t.isOne = true) : t.wordCalls = [] := by
  cases t with
  | constant v => rfl
  | _ => cases h

theorem wordCalls_fold {arith : Arith} (h : fold? arith left right = some c) :
    c.wordCalls = left.wordCalls ++ right.wordCalls := by
  unfold fold? at h
  split at h
  · split at h
    · split at h <;> cases h
      rfl
    · cases h
  · cases h

theorem wordCalls_successor (ha : t.isAttr = false) : t.successor.wordCalls = t.wordCalls := by
  unfold successor
  cases hf : fold? .add t (constant (.integer 1)) with
  | some c =>
    have hconst : (constant (.integer 1)).wordCalls = [] := rfl
    rw [Option.getD_some, wordCalls_fold hf, hconst, List.append_nil]
  | none => simp [wordCallsAll_one ha]

theorem isAttr_factors {a b : CallTree} (h : factors? t = some (a, b)) :
    a.isAttr = false ∧ b.isAttr = false ∧ t.wordCalls = a.wordCalls ++ b.wordCalls := by
  unfold factors? at h
  split at h
  · next children =>
    split at h
    · next hab =>
      cases h
      have ha : a.isAttr = false := (mem_operands.1 (hab ▸ by simp : a ∈ operands children)).2
      have hb : b.isAttr = false := (mem_operands.1 (hab ▸ by simp : b ∈ operands children)).2
      refine ⟨ha, hb, ?_⟩
      rw [wordCalls_call, ← wordCallsAll_operands, hab, wordCallsAll_two ha hb]
    · cases h
  · cases h

/-- A variable makes no calls. -/
theorem wordCalls_of_sameVariable {y : CallTree} (h : sameVariable x y = true) :
    x.wordCalls = [] ∧ y.wordCalls = [] ∧ x.isAttr = false := by
  unfold sameVariable at h
  split at h
  · exact ⟨rfl, rfl, rfl⟩
  · cases h

theorem isComputed_successor (t : CallTree) : t.successor.IsComputed := by
  unfold successor
  cases hf : fold? .add t (constant (.integer 1)) with
  | some c => exact isComputed_fold hf
  | none => trivial

/-- A variable and a multiple of it make the calls of the other factor. -/
theorem wordCalls_share {factors : CallTree × CallTree}
    (hf : factors.1.isAttr = false ∧ factors.2.isAttr = false)
    (h : (cofactor? x factors).map (fun y => operation .mul [x, successor y]) = some c) :
    x.wordCalls = [] ∧ c.wordCalls = factors.1.wordCalls ++ factors.2.wordCalls := by
  have shared {y : CallTree} (hx : x.wordCalls = [] ∧ x.isAttr = false) (hy : y.isAttr = false) :
      (operation .mul [x, successor y]).wordCalls = y.wordCalls := by
    rw [wordCalls_operation, wordCallsAll_two hx.2 (isComputed_successor y).isAttr, hx.1,
      wordCalls_successor hy]
    rfl
  obtain ⟨y, hy, rfl⟩ := Option.map_eq_some_iff.1 h
  unfold cofactor? at hy
  split at hy
  · next hsame =>
    cases hy
    obtain ⟨hx, hz, ha⟩ := wordCalls_of_sameVariable hsame
    exact ⟨hx, by rw [shared ⟨hx, ha⟩ hf.2, hz]; rfl⟩
  · split at hy
    · next hsame =>
      cases hy
      obtain ⟨hx, hz, ha⟩ := wordCalls_of_sameVariable hsame
      exact ⟨hx, by rw [shared ⟨hx, ha⟩ hf.1, hz, List.append_nil]⟩
    · cases hy

theorem wordCalls_shareFactor (h : shareFactor? left right = some c) :
    c.wordCalls = left.wordCalls ++ right.wordCalls := by
  unfold shareFactor? at h
  split at h
  · next factors hf =>
    obtain ⟨h₁, h₂, hproduct⟩ := isAttr_factors hf
    obtain ⟨hx, hc⟩ := wordCalls_share ⟨h₁, h₂⟩ h
    rw [hc, hx, hproduct, List.nil_append]
  · next factors hf =>
    obtain ⟨h₁, h₂, hproduct⟩ := isAttr_factors hf
    obtain ⟨hx, hc⟩ := wordCalls_share ⟨h₁, h₂⟩ h
    rw [hc, hx, hproduct, List.append_nil]
  · cases h

/-- **The simpler form of an operation** makes the calls of its two operands. -/
theorem wordCalls_simplifyBinary {op : Opcode} (hl : left.isAttr = false) (hr : right.isAttr = false)
    (h : simplifyBinary? op left right = some c) : c.wordCalls = left.wordCalls ++ right.wordCalls := by
  have besideOne (op : Opcode) {t u : CallTree} (ht : t.isAttr = false) (hone : u.isOne = true) :
      (operation op [t]).wordCalls = t.wordCalls ∧ u.wordCalls = [] :=
    ⟨by rw [wordCalls_operation, wordCallsAll_one ht], wordCalls_of_isOne hone⟩
  simp only [simplifyBinary?, Option.orElse_eq_orElse, Option.orElse_eq_or, Option.or_eq_some_iff] at h
  rcases h with h | ⟨-, h⟩
  · obtain ⟨arith, -, h⟩ := Option.bind_eq_some_iff.1 h
    exact wordCalls_fold h
  · split at h
    · split at h
      · next hone =>
        cases h
        obtain ⟨hsame, hnone⟩ := besideOne .inc hl hone
        rw [hsame, hnone, List.append_nil]
      · split at h
        · next hone =>
          cases h
          obtain ⟨hsame, hnone⟩ := besideOne .inc hr hone
          rw [hsame, hnone, List.nil_append]
        · exact wordCalls_shareFactor h
    · split at h
      · next hone =>
        cases h
        obtain ⟨hsame, hnone⟩ := besideOne .dec hl hone
        rw [hsame, hnone, List.append_nil]
      · cases h
    · cases h

theorem wordCalls_opposite (ha : t.isAttr = false) :
    (opposite t).wordCalls = t.wordCalls ∧ (opposite t).isAttr = false := by
  have wrapped : (operation .logicalNot [t]).wordCalls = t.wordCalls := by
    rw [wordCalls_operation, wordCallsAll_one ha]
  unfold opposite
  split
  · next op arity children =>
    split
    · exact ⟨by simp, rfl⟩
    · split
      · next inner hi _ =>
        have hm : inner ∈ operands children := hi ▸ List.mem_singleton_self inner
        have hinner := (mem_operands.1 hm).2
        refine ⟨?_, hinner⟩
        rw [wordCalls_call, ← wordCallsAll_operands, hi, wordCallsAll_one hinner]
      · exact ⟨wrapped, rfl⟩
  · exact ⟨wrapped, rfl⟩

theorem wordCallsAll_modifyFirst (l : List CallTree) :
    wordCallsAll (modifyFirst opposite l) = wordCallsAll l := by
  induction l with
  | nil => rfl
  | cons t l ih =>
    unfold modifyFirst
    cases ha : t.isAttr with
    | true => simp [wordCallsAll, ha, ih]
    | false =>
      obtain ⟨hsame, hopposite⟩ := wordCalls_opposite ha
      simp [wordCallsAll, ha, hsame, hopposite]

/-- **Simplifying** loses no calls by a word, and adds none. -/
theorem wordCalls_simplify (t : CallTree) : t.simplify.wordCalls = t.wordCalls := by
  unfold simplify
  split
  · next op arity children =>
    split
    · rw [wordCalls_call, wordCalls_call, wordCallsAll_modifyFirst]
    · next op _ _ left right _ hoperands =>
      cases hs : simplifyBinary? op left right with
      | none => rfl
      | some c =>
        have isOperand {t : CallTree} (ht : t ∈ [left, right]) : t.isAttr = false :=
          (mem_operands.1 (hoperands ▸ ht)).2
        have hl := isOperand (t := left) (by simp)
        have hr := isOperand (t := right) (by simp)
        rw [Option.getD_some, wordCalls_simplifyBinary hl hr hs, wordCalls_call,
          ← wordCallsAll_operands, hoperands, wordCallsAll_two hl hr]
    · rfl
  · rfl

theorem wordCalls_finished (simplifying : Bool) (t : CallTree) :
    (finished simplifying t).wordCalls = t.wordCalls := by
  cases simplifying with
  | true => exact wordCalls_simplify t
  | false => rfl

/-! ## Resolving -/

/-- The tree calls no word that has an opcode. -/
def isLate (ops : String → Option Opcode) (t : CallTree) : Bool := (t.word?.bind ops).isNone

namespace Resolves

/-- **What becomes of a call that is written with a word.** If the word has an opcode, the call is one of the
operation, simplified or not. If it has none, it is still a call by the word. -/
theorem of_wordCall (h : Resolves ops (.call (.other (.word name)) arity children) u) :
    ∃ children', List.Forall₂ (Resolves ops) children children' ∧
      match ops name with
      | some op => ∃ simplifying, u = finished simplifying (.call (.operation op) arity children')
      | none => u = .call (.other (.word name)) arity children' := by
  cases h with
  | @call _ _ _ children' simplifying _ hc =>
    refine ⟨children', hc, ?_⟩
    unfold Head.resolve
    dsimp only
    cases ops name with
    | some op => exact ⟨simplifying, rfl⟩
    | none => cases simplifying <;> rfl

theorem ownCall (hh : head.IsWritten) (hc : List.Forall₂ (Resolves ops) children l) :
    List.Forall₂ (Resolves ops) ((CallTree.call head arity children).ownCall.filter (isLate ops))
      (CallTree.call (head.resolve ops) arity l).ownCall := by
  cases head with
  | other target =>
    cases target with
    | word name =>
      have hcall : Resolves ops (.call _ arity children) _ := .call false hh hc
      revert hcall
      unfold Head.resolve
      dsimp only
      cases hops : ops name with
      | some op =>
        intro _
        simp [CallTree.ownCall, word?, isLate, hops]
      | none =>
        intro hcall
        simpa [CallTree.ownCall, word?, isLate, hops, finished] using hcall
    | _ => exact .nil
  | _ => exact .nil

mutual

/-- **The calls by a word** in a tree are those written whose word has no opcode. -/
theorem wordCalls : (t : CallTree) → {u : CallTree} → Resolves ops t u →
    List.Forall₂ (Resolves ops) (t.wordCalls.filter (isLate ops)) u.wordCalls
  | .call head arity children, u, h => by
    cases h with
    | @call _ _ _ children' simplifying hh hc =>
      rw [wordCalls_finished, CallTree.wordCalls, CallTree.wordCalls, List.filter_append]
      exact List.rel_append (wordCallsAll children hc) (ownCall hh hc)
  | .constant v, u, h => by
    cases h
    exact .nil
  | .load name, u, h => by
    cases h
    exact .nil

theorem wordCallsAll : (l : List CallTree) → {l' : List CallTree} → List.Forall₂ (Resolves ops) l l' →
    List.Forall₂ (Resolves ops) ((CallTree.wordCallsAll l).filter (isLate ops))
      (CallTree.wordCallsAll l')
  | [], l', h => by
    cases h
    exact .nil
  | t :: l, l', h => by
    cases h with
    | cons ht hl =>
      rw [CallTree.wordCallsAll, CallTree.wordCallsAll, List.filter_append, ht.isAttr]
      refine List.rel_append ?_ (wordCallsAll l hl)
      split
      · exact .nil
      · exact wordCalls t ht

end

end Resolves

end CallTree

namespace World

variable {w w' : World} {items : List Value} {name : String}

/-- What a call by a word says about the opcode of the word. -/
def Late (w : World) (head : Head) (_ : Nat) : Prop :=
  ∀ name, head = .other (.word name) → w.opcodeOf? name = none

theorem lawful_late (w : World) : Head.Lawful w.Late where
  attr _ := nofun
  store _ := nofun
  operation _ := nofun
  negated _ _ := nofun

theorem RelabelledBy.admits_late (h : RelabelledBy items w w') : w'.Admits w.Late where
  name name eager arity _ := by
    unfold callHead
    split
    · nofun
    · next hops =>
      split
      · nofun
      · rintro _ ⟨⟩
        rw [← h.rebuilt.opcodeOf?, hops]
  path _ _ _ := nofun

/-- **A call by a word that is left** is of a word without an opcode, be it an operand or an attribute. -/
theorem opcodeOf?_of_word? {trees : List CallTree} {n : Located}
    (h : (w.callTrees items).1 = .ok trees) (hn : n ∈ postorder trees) (hname : n.node.word? = some name) :
    w.opcodeOf? name = none := by
  have hcalls := calls_callTrees w.lawful_late (fun v hv => hv.admits_late)
    (fun v _ => v.codesIn_true) h
  obtain ⟨place, node⟩ := n
  unfold word? at hname
  dsimp only at hname
  split at hname
  · cases hname
    exact (Calls.of_mem_postorder hcalls hn rfl).1 _ rfl
  · cases hname

end World

end BlockLang
