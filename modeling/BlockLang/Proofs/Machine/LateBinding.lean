import BlockLang.Proofs.CallTree.WordCalls
import BlockLang.Proofs.Machine.Attributes

/-!
# What a call by a word calls

A word may be bound to something else between the moment when a unit is built and the moment when a call in
it is made.

**Theorem (`callsBinding`).** A call by a word looks the word up when it is made, so it calls what the word is
bound to then. The calls by a word in a unit are those that were written with one, apart from the calls of
operations that had their first binding when the unit was built. These have become operations, and run
the operation whatever the word is bound to by then. It is the one that the word is bound to if the word
still has its first binding, or has it again.

That the condition does not come for nothing is shown in `binding_passed_over`.
-/

namespace BlockLang

open CallTree Exec

variable {fuel : Nat} {m : Machine} {p start : Place} {ps : List Place} {n : Located} {b : Builtin}
  {name : String} {op : Opcode}

/-! ## Calling what is bound -/

/-- Calls what a name is bound to. -/
def Machine.callBound (m : Machine) (name : String) (fuel : Nat) : Exec Flow :=
  match m.world.get? name with
  | some (.function ref) => callFunction fuel (runCode fuel) ref
  | some _ => fail (.notCallable name)
  | none => fail (m.world.undefined name)

theorem run_callWord (fuel : Nat) (name : String) (m : Machine) :
    (callValue fuel (runCode fuel) (.word name)).run.run m = (m.callBound name fuel).run.run m := by
  rw [callValue, valueOf, bind_assoc, run_bind_of_ok (run_get m), Machine.callBound]
  dsimp only
  cases m.world.get? name with
  | none => rfl
  | some v => cases v <;> rfl

/-- An operation that has its first binding is called with its operands in place. -/
theorem run_callBound_of_opcodeOf? (fuel : Nat) (hop : m.world.opcodeOf? b.name = some op)
    (ha : b.arity ≤ m.stack.length) :
    (m.callBound b.name fuel).run.run m = (callBuiltin fuel (runCode fuel) b).run.run m := by
  obtain ⟨ref, hv⟩ := World.exists_function_of_opcodeOf? hop
  have hcallee : m.callee? (.word b.name) = some ref := by
    rw [Machine.callee?, hv]
  have hf : m.world.heap.callable? ref = some (.builtin b) := by
    simp only [World.opcodeOf?, Builtin.ofName?_name, hv, Option.bind_eq_bind, Option.bind_some,
      Option.bind_eq_some_iff] at hop
    obtain ⟨callable, hcallable, hop⟩ := hop
    split at hop
    · next hb =>
      cases callable with
      | builtin b' =>
        cases hb
        exact hcallable
      | user => cases hb
    · cases hop
  rw [← run_callWord, run_callValue_builtin hcallee hf ha]

namespace Place

/-- A call, and what follows in the unit if the call is done. -/
def goingOn (p : Place) (fuel : Nat) (call : Exec Flow) : Exec Flow := do
  match ← call with
  | .done => execute fuel p.unit (decode p.unit.code p.pos).next
  | flow => return flow

/-- What happens at the place is the call, and nothing else. -/
def Makes (p : Place) (call : (fuel : Nat) → Exec Flow) : Prop :=
  ∀ fuel, p.fuel = fuel + 1 → p.outcome = (p.goingOn fuel (call fuel)).run.run p.machine

theorem Makes.congr {call call' : (fuel : Nat) → Exec Flow} (h : p.Makes call)
    (hc : ∀ fuel, (call fuel).run.run p.machine = (call' fuel).run.run p.machine) : p.Makes call' := by
  intro fuel hf
  rw [h fuel hf, goingOn, goingOn, run_bind, run_bind, hc]

theorem makes_of_becomes {A : CodeRef → Prop} {i : Instruction} (hn : n.node.WellFormed A)
    (hi : (decode p.unit.code p.pos).instruction? = some i) (hb : Becomes p.unit.constants n i) :
    p.Makes fun fuel => runInstruction fuel (runCode fuel) p.unit p.pos i := by
  intro fuel hf
  have hj : ∀ condition target, i ≠ .jump condition target := by
    rintro condition target rfl
    cases hb
  rw [outcome, hf, execute_instruction hi (plain_of_becomes hn hb).2 hj]
  rfl

variable {later : List Located} {arity : Nat} {children : List CallTree}

/-- The first of the nodes that are awaited is the one that the next instruction is for. -/
theorem Awaits.first (h : p.Awaits (n :: later)) :
    ∃ i, Becomes p.unit.constants n i ∧
      p.Makes fun fuel => runInstruction fuel (runCode fuel) p.unit p.pos i := by
  obtain ⟨hformed, body, stop, next, hd, hb, -⟩ := h
  cases hb with
  | @cons _ i _ _ hn _ =>
    cases hd with
    | cons hi _ =>
      exact ⟨i, hn, makes_of_becomes (hformed n List.mem_cons_self) (by rw [hi]) hn⟩

/-- **A call by a word** calls what the word is bound to. -/
theorem Awaits.callBound (h : p.Awaits (n :: later)) (hn : n.node.word? = some name) :
    p.Makes (p.machine.callBound name) := by
  obtain ⟨i, hb, hmakes⟩ := h.first
  obtain ⟨place, node⟩ := n
  unfold word? at hn
  dsimp only at hn
  split at hn
  · cases hn
    cases hb with
    | other hc =>
      obtain ⟨c, hc, hs⟩ := hc
      obtain rfl := Value.eq_word_of_same hs
      refine hmakes.congr fun fuel => ?_
      rw [run_indexed hc]
      exact run_callWord fuel name p.machine
  · cases hn

/-- **A call of an operation** runs the operation. -/
theorem Awaits.callBuiltin (h : p.Awaits (n :: later)) (hn : n.node = .call (.operation op) arity children) :
    ∃ b : Builtin, b.opcode? = some op ∧
      p.Makes fun fuel => Exec.callBuiltin fuel (runCode fuel) b := by
  obtain ⟨i, hb, hmakes⟩ := h.first
  have hformed := h.formed n List.mem_cons_self
  obtain ⟨place, node⟩ := n
  cases hn
  cases hformed with
  | call hhead _ _ =>
    obtain ⟨b, hop⟩ := hhead
    refine ⟨b, hop, hmakes.congr fun fuel => ?_⟩
    cases hb
    rw [← CodeUnit.runOpcode_builtin hop]
    rfl

end Place

/-! ## Calls that are written with a word -/

/-- What the calls in a unit do that are written with a word. The unit is run from `start` and has the
given trees; `written` are these trees as they would be if no word had an opcode in `w`, where they were
built. -/
structure CallsBinding (w : World) (written trees : List CallTree) (start : Place) : Prop where
  /-- The trees are those written, with their heads resolved and their calls simplified. So a call that was
  written with a word is one of an operation if the word had an opcode, and else still a call by the word. -/
  resolved : List.Forall₂ (Resolves w.opcodeOf?) written trees
  /-- None of the latter is lost, apart from the attributes of operations, and their order is that of the
  written ones. -/
  kept : List.Forall₂ (Resolves w.opcodeOf?) ((wordCallsAll written).filter (isLate w.opcodeOf?))
    (wordCallsAll trees)
  /-- Wherever the run comes to a call by a word, what the word is bound to there is called. -/
  looksUp {ps : List Place} {p : Place} {n : Located} {name : String} : start.Passes ps p →
    (postorder trees)[ps.length]? = some n → n.node.word? = some name →
    w.opcodeOf? name = none ∧ p.Makes (p.machine.callBound name)
  /-- Wherever it comes to a call of an operation, the operation is run. It is the one that the word stood
  for, if the call was written with a word, and is what the word is bound to as long as it has its first
  binding there. -/
  operates {ps : List Place} {p : Place} {n : Located} {op : Opcode} {arity : Nat}
    {children : List CallTree} : start.Passes ps p → (postorder trees)[ps.length]? = some n →
    n.node = .call (.operation op) arity children →
    ∃ b : Builtin, b.opcode? = some op ∧ (∀ name, w.opcodeOf? name = some op → name = b.name) ∧
      p.Makes (fun fuel => callBuiltin fuel (runCode fuel) b) ∧
      (p.machine.world.opcodeOf? b.name = some op → b.arity ≤ p.machine.stack.length →
        p.Makes (p.machine.callBound b.name))

/-- Where a run has passed as many places as there are nodes before a node, that node is awaited. -/
theorem Place.Passes.awaits {nodes : List Located} (hr : start.Passes ps p) (hs : start.Awaits nodes)
    (hn : nodes[ps.length]? = some n) : ∃ later, p.Awaits (n :: later) := by
  obtain ⟨done, later, rfl, hlength, -, hp⟩ := hr.pending hs
  rw [← hlength, List.getElem?_append_right (Nat.le_refl _), Nat.sub_self] at hn
  cases later with
  | nil => cases hn
  | cons first later =>
    cases hn
    exact ⟨later, hp⟩

/-- **Calls by a word call what the word is bound to when they are made**, unless the word stood for an
operation when the unit was built. -/
theorem callsBinding {w w' : World} {items : List Value} {trees : List CallTree} {u : CodeUnit}
    (ht : w.callTrees items = (.ok trees, w')) (hu : CodeUnit.ofCalls trees = .ok u) (fuel : Nat)
    (m : Machine) :
    ∃ written, (w.unhooked.callTrees items).1 = .ok written ∧
      CallsBinding w written trees ⟨fuel, u, 0, m⟩ := by
  have hformed := World.wellFormed_of_callTrees ht fun v _ => v.codesIn_true
  have hstart := Place.awaits_postorder (faithful_of_ofCalls hformed hu) hformed fuel m
  obtain ⟨written, hwritten, hresolved⟩ := World.resolves_callTrees ht
  refine ⟨written, hwritten, hresolved, Resolves.wordCallsAll written hresolved, ?_, ?_⟩
  · intro ps p n name hr hn hname
    obtain ⟨later, hp⟩ := hr.awaits hstart hn
    exact ⟨World.opcodeOf?_of_word? (congrArg Prod.fst ht) (List.mem_of_getElem? hn) hname,
      hp.callBound hname⟩
  · intro ps p n op arity children hr hn hop
    obtain ⟨later, hp⟩ := hr.awaits hstart hn
    obtain ⟨b, hb, hmakes⟩ := hp.callBuiltin hop
    refine ⟨b, hb, fun name hname => ?_, hmakes, fun hbound ha => hmakes.congr fun fuel => ?_⟩
    · obtain ⟨c, rfl, hc⟩ := World.of_opcodeOf? hname
      have hsame := (Builtin.ofOpcode?_eq_some_iff.2 hc).symm.trans (Builtin.ofOpcode?_eq_some_iff.2 hb)
      rw [Option.some.inj hsame]
    · exact (run_callBound_of_opcodeOf? fuel hbound ha).symm

/-- A call by the word that a label among the items gives its arity: it has no binding when the unit is built,
and the function is called that has been stored by the time of the call. -/
theorem callsBinding_stored :
    let w := World.initial {}
    let params : Value := .block [.word "a"] false
    let items : List Value := [.label "f", .word "function", params, params, .word "f", .integer 5]
    ∃ written trees u ps p n, w.get? "f" = none ∧
      w.callTrees items = (.ok trees, (w.callTrees items).2) ∧ CodeUnit.ofCalls trees = .ok u ∧
      CallsBinding w written trees ⟨100, u, 0, { world := w }⟩ ∧
      Place.Passes ⟨100, u, 0, { world := w }⟩ ps p ∧ (postorder trees)[ps.length]? = some n ∧
      n.node.word? = some "f" ∧ (p.machine.callee? (.word "f")).isSome := by
  intro w params items
  have hunbound : (w.get? "f").isNone := by decide +kernel
  have hway : ∃ trees ∈ (w.callTrees items).1.toOption, ∃ u ∈ (CodeUnit.ofCalls trees).toOption,
      ∃ way ∈ Place.walk? ⟨100, u, 0, { world := w }⟩ 5, ∃ n ∈ (postorder trees)[way.1.length]?,
        n.node.word? = some "f" ∧ (way.2.machine.callee? (.word "f")).isSome := by
    decide +kernel
  obtain ⟨trees, ht, u, hu, ⟨ps, p⟩, hr, n, hn, hname, hcallee⟩ := hway
  have ht := built_of_mem_toOption ht
  have hu := ok_of_mem_toOption hu
  obtain ⟨written, -, hcalls⟩ := callsBinding ht hu 100 { world := w }
  exact ⟨written, trees, u, ps, p, n, Option.isNone_iff_eq_none.1 hunbound, ht, hu, hcalls,
    Place.passes_of_walk? hr, hn, hname, hcallee⟩

/-- `if true [neg: function [a] [a]] print neg 5`, read. -/
def reboundNegation : List Value :=
  let params : Value := .block [.word "a"] false
  [.word "if", .word "true", .block [.label "neg", .word "function", params, params] false,
    .word "print", .word "neg", .integer 5]

/-- **An operation is run though its word is bound to something else by then**: when the number is negated, a
function is bound to `neg` that would leave it as it is. -/
theorem binding_passed_over :
    let w := World.initial {}
    ∃ written trees u ps p ref, (w.unhooked.callTrees reboundNegation).1 = .ok written ∧
      (wordCallsAll written).map CallTree.word? = [some "if", some "neg", some "print"] ∧
      w.callTrees reboundNegation = (.ok trees, (w.callTrees reboundNegation).2) ∧
      CodeUnit.ofCalls trees = .ok u ∧ Place.Passes ⟨100, u, 0, { world := w }⟩ ps p ∧
      p.Operates .neg ∧ p.machine.callee? (.word "neg") = some ref ∧
      (p.next?.bind fun q => q.machine.stack.head?.bind Value.integer?) = some (-5) ∧
      (((callFunction 90 (runCode 90) ref).run.run p.machine).2.stack.head?.bind Value.integer?) =
        some 5 := by
  intro w
  have hwritten : ∃ written ∈ (w.unhooked.callTrees reboundNegation).1.toOption,
      (wordCallsAll written).map CallTree.word? = [some "if", some "neg", some "print"] := by
    decide +kernel
  have hway : ∃ trees ∈ (w.callTrees reboundNegation).1.toOption,
      ∃ u ∈ (CodeUnit.ofCalls trees).toOption,
      ∃ way ∈ Place.walk? ⟨100, u, 0, { world := w }⟩ 4,
        (decode way.2.unit.code way.2.pos).instruction? = some (.op .neg) ∧
          ∃ ref ∈ way.2.machine.callee? (.word "neg"),
          (way.2.next?.bind fun q => q.machine.stack.head?.bind Value.integer?) = some (-5) ∧
          (((callFunction 90 (runCode 90) ref).run.run way.2.machine).2.stack.head?.bind
            Value.integer?) = some 5 := by
    decide +kernel
  obtain ⟨written, hw, hwords⟩ := hwritten
  obtain ⟨trees, ht, u, hu, ⟨ps, p⟩, hr, hop, ref, href, hnegated, hcalled⟩ := hway
  exact ⟨written, trees, u, ps, p, ref, ok_of_mem_toOption hw, hwords, built_of_mem_toOption ht,
    ok_of_mem_toOption hu, Place.passes_of_walk? hr, .opcode hop rfl, href, hnegated, hcalled⟩

end BlockLang
