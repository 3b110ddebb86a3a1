import BlockLang.Proofs.CallTree.Soundness
import BlockLang.Proofs.Code.Pool
import BlockLang.Proofs.Code.RoundTrip

/-!
# The code of a call tree is faithful

**Theorem (`ofCalls_faithful`).** The code of call trees that were built reads, from offset `0` on, as
one instruction for each node in the order of evaluation and an end at the last byte. Its constants
are the ones that the nodes need slots for, each once, in the order of first use. There is no code
exactly if more than `65536` of them are needed.

The argument goes in two steps, each about a list: nodes become emissions, which are assembled
(`Assembly.Assembles`); and the instructions are written as bytes, which read back (`Decodes`). That
built trees are well-formed rules out opcodes that would read differently: a node never becomes a jump
or an end.
-/

namespace BlockLang

open CallTree

/-! ## Immediate constants -/

namespace Opcode

theorem immediate_of_lt {o : Opcode} (h : o.ctorIdx < 16) :
    o.immediate? = some (.integer (.ofNat o.ctorIdx)) := by
  cases o <;> first | rfl | exact absurd h (by decide)

theorem immediate_ofSmall {n : Int64} {o : Opcode} (h : ofSmall? n = some o) :
    o.immediate? = some (.integer n) := by
  have inOrder : ∀ k < 16, (all[k]?).map Opcode.ctorIdx = some k := by decide
  unfold ofSmall? at h
  split at h
  · next hn =>
    have hk : n.toNatClampNeg < 16 := by
      have h₁ := Int64.lt_iff_toInt_lt.1 hn.2
      have : (16 : Int64).toInt = 16 := rfl
      change n.toInt.toNat < 16
      omega
    have hctor := inOrder _ hk
    rw [show n.toNatClampNeg = n.toInt.toNat from rfl, h, Option.map_some,
      Option.some.injEq] at hctor
    rw [immediate_of_lt (hctor ▸ hk), hctor]
    exact congrArg (fun n => some (Value.integer n)) (Int64.ofNat_toNatClampNeg n hn.1)
  · cases h

/-- An immediate constant pushes a constant that is the same. -/
theorem exists_immediate {v : Value} {o : Opcode} (h : ofImmediate? v = some o) :
    ∃ c, o.immediate? = some c ∧ Value.same c v := by
  unfold ofImmediate? at h
  split at h
  · exact ⟨_, immediate_ofSmall h, Value.same_refl _⟩
  · split at h
    · cases h
      exact ⟨_, rfl, by simp [Value.same, *]⟩
    · split at h
      · cases h
        exact ⟨_, rfl, by simp [Value.same, *]⟩
      · split at h
        · cases h
          exact ⟨_, rfl, by simp [Value.same, *]⟩
        · cases h
  · split at h
    · cases h
      exact ⟨_, rfl, by simp_all [Value.same]⟩
    · cases h
  · split at h
    · next items _ hi =>
      cases h
      obtain rfl := List.isEmpty_iff.1 hi
      exact ⟨_, rfl, rfl⟩
    · cases h
  · next b =>
    cases b <;> cases h <;> exact ⟨_, rfl, rfl⟩
  · cases h
    exact ⟨_, rfl, rfl⟩
  · cases h

/-- Opcodes that become instructions by themselves and go on to the next one. -/
def IsPlain (o : Opcode) : Prop := o.jump? = none ∧ o ≠ stop

theorem isPlain_of_immediate {v : Value} {o : Opcode} (h : o.immediate? = some v) : o.IsPlain := by
  cases o <;> first | exact ⟨rfl, by decide⟩ | cases h

theorem isPlain_of_builtin {b : Builtin} {o : Opcode} (h : b.opcode? = some o) : o.IsPlain := by
  cases b <;> cases h <;> exact ⟨rfl, by decide⟩

end Opcode

/-! ## Nodes and instructions -/

/-- The slot holds a constant that is the same as the value. -/
def Holds (constants : Array Value) (i : Nat) (v : Value) : Prop :=
  ∃ c, constants[i]? = some c ∧ Value.same c v

/-- The instruction that a node becomes. -/
inductive Becomes (constants : Array Value) : Located → Instruction → Prop
  | immediate {place : List Nat} {v c : Value} {o : Opcode} (hc : o.immediate? = some c)
      (hs : Value.same c v) : Becomes constants ⟨place, .constant v⟩ (.op o)
  | push {place : List Nat} {v : Value} {i : Nat} (h : Holds constants i v) :
      Becomes constants ⟨place, .constant v⟩ (.indexed .push i)
  | load {place : List Nat} {name : String} {i : Nat} (h : Holds constants i (.word name)) :
      Becomes constants ⟨place, .load name⟩ (.indexed .load i)
  | attr {place : List Nat} {name : String} {arity i : Nat} {children : List CallTree}
      (h : Holds constants i (.word name)) :
      Becomes constants ⟨place, .call (.attr name) arity children⟩ (.indexed .attr i)
  | store {i j : Nat} {name : String} {arity : Nat} {children : List CallTree}
      (h : Holds constants j (.word name)) :
      Becomes constants ⟨[i], .call (.store name) arity children⟩ (.indexed .store j)
  | storeKeep {place : List Nat} {name : String} {arity i : Nat} {children : List CallTree}
      (hp : place.length ≠ 1) (h : Holds constants i (.word name)) :
      Becomes constants ⟨place, .call (.store name) arity children⟩ (.indexed .storeKeep i)
  | other {place : List Nat} {target : Value} {arity i : Nat} {children : List CallTree}
      (h : Holds constants i target) :
      Becomes constants ⟨place, .call (.other target) arity children⟩ (.indexed .call i)
  | operation (place : List Nat) (o : Opcode) (arity : Nat) (children : List CallTree) :
      Becomes constants ⟨place, .call (.operation o) arity children⟩ (.op o)

/-- The constant that a node needs a slot for. -/
def CallTree.Located.pooled? (n : Located) : Option Value :=
  match n.node with
  | .constant v => if (Opcode.ofImmediate? v).isSome then none else some v
  | .load name => some (.word name)
  | .call head .. => head.value?

/-- The constants that call trees need slots for, as often as they need them. -/
def neededConstants (trees : List CallTree) : List Value :=
  (postorder trees).filterMap Located.pooled?

variable {A : CodeRef → Prop} {n : Located} {i : Instruction} {constants : Array Value}
  {trees : List CallTree} {items : List Value} {w w' : World}

theorem constant_emission (n : Located) : n.emission.constant? = n.pooled? := by
  obtain ⟨place, v | name | ⟨head, arity, children⟩⟩ := n
  · simp only [Located.emission, Located.pooled?]
    cases Opcode.ofImmediate? v <;> rfl
  · rfl
  · cases head <;> rfl

theorem becomes_of_assembled (h : n.emission.Assembled constants i) : Becomes constants n i := by
  obtain ⟨place, v | name | ⟨head, arity, children⟩⟩ := n
  · simp only [Located.emission] at h
    split at h
    · next o ho =>
      obtain ⟨c, hc, hs⟩ := Opcode.exists_immediate ho
      cases i with
      | op => cases h; exact .immediate hc hs
      | _ => cases h
    · cases i with
      | indexed => obtain ⟨rfl, h⟩ := h; exact .push h
      | _ => cases h
  · cases i with
    | indexed => obtain ⟨rfl, h⟩ := h; exact .load h
    | _ => cases h
  · cases head with
    | operation o =>
      cases i with
      | op => cases h; exact .operation ..
      | _ => cases h
    | store name =>
      cases i with
      | indexed =>
        obtain ⟨hf, h⟩ := h
        split at hf
        · next hp =>
          obtain ⟨j, rfl⟩ := List.length_eq_one_iff.1 hp
          subst hf
          exact .store h
        · next hp =>
          subst hf
          exact .storeKeep hp h
      | _ => cases h
    | attr name =>
      cases i with
      | indexed => obtain ⟨rfl, h⟩ := h; exact .attr h
      | _ => cases h
    | other target =>
      cases i with
      | indexed => obtain ⟨rfl, h⟩ := h; exact .other h
      | _ => cases h

/-- What a node becomes neither jumps nor ends the unit. -/
theorem plain_of_becomes (hn : n.node.WellFormed A) (h : Becomes constants n i) :
    i.IsProper ∧ i ≠ .op .stop := by
  have plain {o : Opcode} (ho : o.IsPlain) :
      (Instruction.op o).IsProper ∧ Instruction.op o ≠ .op .stop :=
    ⟨ho.1, fun h => ho.2 (Instruction.op.inj h)⟩
  cases h with
  | immediate hc _ => exact plain (Opcode.isPlain_of_immediate hc)
  | operation =>
    cases hn with
    | call hhead _ _ =>
      obtain ⟨b, hb⟩ := hhead
      exact plain (Opcode.isPlain_of_builtin hb)
  | _ => exact ⟨trivial, nofun⟩

/-! ## Units -/

/-- The code of call trees: an instruction for each node, and an end. The order of the nodes is also
the one found with a stack. -/
structure CodeUnit.Faithful (trees : List CallTree) (u : CodeUnit) : Prop where
  order : stackOrder trees = postorder trees
  reads : ∃ body, Decodes u.code 0 body (u.code.size - 1) ∧
    List.Forall₂ (Becomes u.constants) (postorder trees) body ∧ ∀ i ∈ body, i ≠ .op .stop
  ends : decode u.code (u.code.size - 1) = ⟨some (.op .stop), u.code.size⟩
  distinct : u.constants.toList.Pairwise fun a b => ¬ Value.same a b
  firstUse : u.constants.toList = Value.firsts (neededConstants trees)

theorem exists_of_mem_right {α β : Type} {R : α → β → Prop} {l : List α} {m : List β}
    (h : List.Forall₂ R l m) {b : β} (hb : b ∈ m) : ∃ a ∈ l, R a b := by
  induction h with
  | nil => cases hb
  | cons hR _ ih =>
    rcases List.mem_cons.1 hb with rfl | hb
    · exact ⟨_, List.mem_cons_self, hR⟩
    · obtain ⟨a, ha, hR⟩ := ih hb
      exact ⟨a, List.mem_cons_of_mem _ ha, hR⟩

theorem Instruction.encode_eq_none_iff {i : Instruction} :
    i.encode? = none ↔ ∃ family index, i = .indexed family index ∧ 0x10000 ≤ index := by
  cases i with
  | indexed family index =>
    have hs : Family.shortSlots = 14 := rfl
    simp only [Instruction.encode?]
    split <;> [skip; split <;> [skip; split]] <;> simp <;> omega
  | jump condition target =>
    simp only [Instruction.encode?]
    split <;> simp
  | op o => simp [Instruction.encode?]

/-- Bytes are missing only for a slot that two bytes cannot address. -/
theorem encodeAll_eq_none_iff {l : List Instruction} :
    encodeAll? l = none ↔ ∃ family index, .indexed family index ∈ l ∧ 0x10000 ≤ index := by
  induction l with
  | nil => simp [encodeAll?]
  | cons i l ih =>
    have hi := i.encode_eq_none_iff
    rw [encodeAll_cons, Option.bind_eq_none_iff]
    constructor
    · intro h
      cases hb : i.encode? with
      | none =>
        obtain ⟨family, index, rfl, hn⟩ := hi.1 hb
        exact ⟨family, index, List.mem_cons_self, hn⟩
      | some b =>
        obtain ⟨family, index, hm, hn⟩ := ih.1 (Option.map_eq_none_iff.1 (h b hb))
        exact ⟨family, index, List.mem_cons_of_mem _ hm, hn⟩
    · rintro ⟨family, index, hm, hn⟩ b hb
      rcases List.mem_cons.1 hm with rfl | hm
      · rw [hi.2 ⟨family, index, rfl, hn⟩] at hb
        cases hb
      · exact Option.map_eq_none_iff.2 (ih.2 ⟨family, index, hm, hn⟩)

/-- The assembly of call trees without its end. -/
def bodyOf (trees : List CallTree) : Assembly :=
  ((postorder trees).map Located.emission).foldl Assembly.emit {}

theorem assembles_bodyOf (trees : List CallTree) :
    Assembly.Assembles ((postorder trees).map Located.emission) (bodyOf trees) :=
  Assembly.assembles_foldl (l := []) .empty

theorem pool_bodyOf (trees : List CallTree) :
    (bodyOf trees).constants.toList = Value.firsts (neededConstants trees) := by
  have h : Emission.constant? ∘ Located.emission = Located.pooled? := funext constant_emission
  rw [(assembles_bodyOf trees).pool, List.filterMap_map, h]
  rfl

theorem becomes_bodyOf (trees : List CallTree) :
    List.Forall₂ (Becomes (bodyOf trees).constants) (postorder trees)
      (bodyOf trees).instructions.toList := by
  have h := (assembles_bodyOf trees).instructions
  rw [List.forall₂_map_left_iff] at h
  exact h.imp fun _ _ => becomes_of_assembled

theorem ofCalls_eq (trees : List CallTree) :
    CodeUnit.ofCalls trees =
      match encodeAll? (bodyOf trees).instructions.toList with
      | some bytes =>
        .ok { constants := (bodyOf trees).constants, code := (bytes ++ [Opcode.stop.byte]).toArray }
      | none => .error .tooManyConstants := by
  have h : Assembly.ofCalls trees =
      { bodyOf trees with instructions := (bodyOf trees).instructions.push (.op .stop) } := rfl
  rw [CodeUnit.ofCalls, h]
  simp only [Array.toList_push, encodeAll_append]
  cases encodeAll? (bodyOf trees).instructions.toList <;> rfl

/-- The code of call trees reads as the instructions that were assembled, and an end. -/
theorem decodes_of_ofCalls {u : CodeUnit} (ht : ∀ t ∈ trees, t.WellFormed A)
    (h : CodeUnit.ofCalls trees = .ok u) :
    u.constants = (bodyOf trees).constants ∧
      Decodes u.code 0 (bodyOf trees).instructions.toList (u.code.size - 1) ∧
      decode u.code (u.code.size - 1) = ⟨some (.op .stop), u.code.size⟩ := by
  rw [ofCalls_eq] at h
  split at h
  · next bytes hb =>
    cases h
    have hproper : ∀ i ∈ (bodyOf trees).instructions.toList, i.IsProper := by
      intro i hi
      obtain ⟨n, hn, hb⟩ := exists_of_mem_right (becomes_bodyOf trees) hi
      exact (plain_of_becomes (Calls.node_of_mem_postorder ht hn) hb).1
    have hsize : (bytes ++ [Opcode.stop.byte]).toArray.size - 1 = bytes.length := by simp
    refine ⟨rfl, ?_, ?_⟩
    · have hc : (bytes ++ [Opcode.stop.byte]).toArray.toList.drop 0 = bytes ++ [Opcode.stop.byte] :=
        rfl
      have hd := decodes_encodeAll hproper hb hc
      rwa [Nat.zero_add, ← hsize] at hd
    · have hc : (bytes ++ [Opcode.stop.byte]).toArray.toList.drop bytes.length =
          Opcode.stop.byte :: [] := by simp
      rw [hsize, decode_opcode rfl hc]
      simp
  · cases h

theorem faithful_of_ofCalls {u : CodeUnit} (ht : ∀ t ∈ trees, t.WellFormed A)
    (h : CodeUnit.ofCalls trees = .ok u) : u.Faithful trees := by
  obtain ⟨hc, hd, hstop⟩ := decodes_of_ofCalls ht h
  have hplain : ∀ i ∈ (bodyOf trees).instructions.toList, i ≠ .op .stop := by
    intro i hi
    obtain ⟨n, hn, hb⟩ := exists_of_mem_right (becomes_bodyOf trees) hi
    exact (plain_of_becomes (Calls.node_of_mem_postorder ht hn) hb).2
  refine ⟨stackOrder_eq trees, ⟨_, hd, ?_, hplain⟩, hstop, ?_, ?_⟩
  · rw [hc]
    exact becomes_bodyOf trees
  · rw [hc, pool_bodyOf]
    exact Value.pairwise_firsts _
  · rw [hc]
    exact pool_bodyOf trees

theorem ofCalls_eq_error_iff :
    CodeUnit.ofCalls trees = .error .tooManyConstants ↔
      0x10000 < (Value.firsts (neededConstants trees)).length := by
  have hpool := congrArg List.length (pool_bodyOf trees)
  rw [Array.length_toList] at hpool
  have hnone : CodeUnit.ofCalls trees = .error .tooManyConstants ↔
      encodeAll? (bodyOf trees).instructions.toList = none := by
    rw [ofCalls_eq]
    split <;> simp_all
  rw [hnone, encodeAll_eq_none_iff, ← hpool]
  constructor
  · rintro ⟨family, index, hm, hn⟩
    obtain ⟨e, -, he⟩ := exists_of_mem_right (assembles_bodyOf trees).instructions hm
    cases e with
    | op => cases he
    | indexed =>
      obtain ⟨-, c, hc, -⟩ := he
      exact Nat.lt_of_le_of_lt hn (Array.getElem?_eq_some_iff.1 hc).1
  · intro h
    obtain ⟨family, hf⟩ := (assembles_bodyOf trees).addressed _ h
    exact ⟨family, _, hf, Nat.le_refl _⟩

/-- **The code of built call trees is faithful**, and there is code unless too many constants are
needed. -/
theorem ofCalls_faithful (h : w.callTrees items = (.ok trees, w')) :
    (∀ u, CodeUnit.ofCalls trees = .ok u → u.Faithful trees) ∧
      (CodeUnit.ofCalls trees = .error .tooManyConstants ↔
        0x10000 < (Value.firsts (neededConstants trees)).length) :=
  ⟨fun _ hu => faithful_of_ofCalls (World.wellFormed_of_callTrees h fun v _ => v.codesIn_true) hu,
    ofCalls_eq_error_iff⟩

/-- A call whose operands are a constant that needs a slot, twice, and an immediate one. -/
theorem ofCalls_faithful_call :
    let w : World := { config := {}, memo := .empty 1, scope.arities := [("f", 3)] }
    let items : List Value := [.word "f", .integer 99, .integer 1, .integer 99]
    let trees : List CallTree :=
      [.call (.other (.word "f")) 3 [.constant (.integer 99), .constant (.integer 1),
        .constant (.integer 99)]]
    let u : CodeUnit :=
      { constants := #[.integer 99, .word "f"], code := #[0x00, 0x61, 0x00, 0x41, 0xB7] }
    w.callTrees items = (.ok trees, w) ∧ CodeUnit.ofCalls trees = .ok u ∧ u.Faithful trees := by
  intro w items trees u
  have h : w.callTrees items = (.ok trees, w) := rfl
  have hu : CodeUnit.ofCalls trees = .ok u := by cbv
  exact ⟨h, hu, (ofCalls_faithful h).1 u hu⟩

end BlockLang
