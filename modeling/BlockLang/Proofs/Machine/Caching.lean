import BlockLang.Proofs.Machine.Compiling
import BlockLang.Proofs.Machine.Running

/-!
# Sessions with and without kept code

A session that keeps the code of blocks finds it again under the items of a block, whatever has become
of the names in it. The code is *fresh* if compiling the block once more would give the same unit and
leave the same arities.

**Theorem (`sessions_agree`).** A session that keeps code and one that does not agree step by step, in
what they answer, print, leave on the stack and bind, for as long as all code that is used again is
fresh.

The units of the two sessions get different references, so the pairing links references whose units
are the same. Values refer to code from before the session only: programs never make such values.
-/

namespace BlockLang

open Exec

variable {N : Nat} {w w' v v' : World} {c c' : CodeRef} {u : CodeUnit} {items : List Value}

/-! ## Shared code -/

/-- The code was there before the session. -/
def Early (N : Nat) (c : CodeRef) : Prop := c.index < N

/-- The references are to the same unit, each in its world. -/
def Linked (N : Nat) (w w' : World) (c c' : CodeRef) : Prop :=
  ∃ u, w.heap.unit? c = some u ∧ w'.heap.unit? c' = some u ∧ u.CodesIn (Early N)

/-- The second world keeps no code. Code from before the session is the same, as is the code of
functions, and what the first world keeps is there. -/
structure SharesCode (N : Nat) (w w' : World) : Prop where
  uncached : w'.config.cacheUnits = false
  depth : w.config.maxDepth = w'.config.maxDepth
  early : ∀ c, Early N c → Linked N w w' c c
  compiled : ∀ ref f f' c? c'?, w.heap.callable? ref = some (.user f c?) →
    w'.heap.callable? ref = some (.user f' c'?) → Option.Rel (Linked N w w') c? c'?
  kept : ∀ e ∈ w.cache, ∃ u, w.heap.unit? e.2 = some u ∧ u.CodesIn (Early N)

/-- The world has got units at most, as far as code goes. -/
structure World.Extends (w v : World) : Prop where
  config : v.config = w.config
  callables : v.heap.callables = w.heap.callables
  units : ∀ c u, w.heap.unit? c = some u → v.heap.unit? c = some u
  cache : v.cache = w.cache

/-- The world has got units, arities and names at most. -/
structure World.Grows (w v : World) : Prop extends w.Extends v where
  bindings : v.scope.bindings = w.scope.bindings
  dictionaries : v.heap.dictionaries = w.heap.dictionaries
  memo : v.memo = w.memo

theorem World.SameCode.extends (h : w.SameCode v) : w.Extends v :=
  ⟨h.config, h.callables, fun c u hu => by rwa [Heap.unit?, h.units], h.cache⟩

namespace World.Grows

theorem of_rebuilt (h : w.Rebuilt v) : w.Grows v := by
  obtain ⟨arities, names, rfl⟩ := h
  exact ⟨⟨rfl, rfl, fun _ _ h => h, rfl⟩, rfl, rfl, rfl⟩

protected theorem refl (w : World) : w.Grows w := of_rebuilt ⟨_, _, rfl⟩

theorem addUnit (h : w.Grows v) (u : CodeUnit) : w.Grows (v.addUnit u).2 :=
  { h with
    units := fun c u' hu => by
      have hv := h.units c u' hu
      have hlt := (Array.getElem?_eq_some_iff.1 hv).1
      exact (Array.getElem?_push_lt hlt).trans ((Array.getElem?_eq_getElem hlt).symm.trans hv) }

theorem compileNew (w : World) (items : List Value) : w.Grows (w.compileNew items).2 := by
  have hb : w.Rebuilt (w.callTrees items).2 :=
    (callTrees_alike (.refl w) fun v _ => v.codesIn_true).1.2.1
  unfold World.compileNew
  revert hb
  rcases w.callTrees items with ⟨e | trees, v⟩ <;> intro hb
  · exact of_rebuilt hb
  · dsimp only
    cases CodeUnit.ofCalls trees with
    | error e => exact of_rebuilt hb
    | ok u => exact (of_rebuilt hb).addUnit u

end World.Grows

theorem unit?_addUnit (w : World) (u : CodeUnit) :
    (w.addUnit u).2.heap.unit? (w.addUnit u).1 = some u := Array.getElem?_push_size

/-! ## Code stays shared -/

theorem Linked.extend (h : Linked N w w' c c') (hv : w.Extends v) (hv' : w'.Extends v') :
    Linked N v v' c c' := by
  obtain ⟨u, hu, hu', hin⟩ := h
  exact ⟨u, hv.units c u hu, hv'.units c' u hu', hin⟩

namespace SharesCode

theorem extend (h : SharesCode N w w') (hv : w.Extends v) (hv' : w'.Extends v') :
    SharesCode N v v' where
  uncached := hv'.config ▸ h.uncached
  depth := by rw [hv.config, hv'.config, h.depth]
  early c hc := (h.early c hc).extend hv hv'
  compiled ref f f' c? c'? hf hf' := by
    rw [Heap.callable?, hv.callables] at hf
    rw [Heap.callable?, hv'.callables] at hf'
    cases h.compiled ref f f' c? c'? hf hf' with
    | none => exact .none
    | some hc => exact .some (hc.extend hv hv')
  kept e he := by
    obtain ⟨u, hu, hin⟩ := h.kept e (hv.cache ▸ he)
    exact ⟨u, hv.units _ u hu, hin⟩

/-- Both worlds get the same unit. -/
theorem addUnit (h : SharesCode N w w') (hu : u.CodesIn (Early N)) :
    SharesCode N (w.addUnit u).2 (w'.addUnit u).2 ∧
      Linked N (w.addUnit u).2 (w'.addUnit u).2 (w.addUnit u).1 (w'.addUnit u).1 :=
  ⟨h.extend ((World.Grows.refl w).addUnit u).toExtends
      ((World.Grows.refl w').addUnit u).toExtends,
    u, unit?_addUnit w u, unit?_addUnit w' u, hu⟩

theorem keep (h : SharesCode N w w') (hc : Linked N w w' c c') :
    SharesCode N (w.keep items c) w' :=
  { h with
    kept := List.forall_mem_cons.2 ⟨hc.imp fun _ hu => ⟨hu.1, hu.2.2⟩, h.kept⟩ }

theorem addUser (h : SharesCode N w w') (ha : w.heap.Alike w'.heap) {f : UserFunction}
    (hf : f.main.CodesIn (Early N)) : SharesCode N (w.addUser f).2 (w'.addUser f).2 where
  uncached := h.uncached
  depth := h.depth
  early := h.early
  compiled ref g g' c? c'? hg hg' := by
    have hsize := ha.size_callables
    simp only [World.addUser, Heap.addUser, Heap.addCallable, Heap.callable?,
      Array.getElem?_push, ← hsize] at hg hg'
    by_cases href : ref.index = w.heap.callables.size
    · rw [if_pos href] at hg hg'
      cases hg
      cases hg'
      revert hf
      cases f.main with
      | bytecode c => exact fun hf => .some (h.early c hf)
      | _ => exact fun _ => .none
    · rw [if_neg href] at hg hg'
      exact h.compiled ref g g' c? c'? hg hg'
  kept := h.kept

theorem setCompiled (h : SharesCode N w w') (hc : Linked N w w' c c') (ref : FunctionRef) :
    SharesCode N (w.setCompiled ref c) (w'.setCompiled ref c') where
  uncached := h.uncached
  depth := h.depth
  early := h.early
  compiled other f f' c? c'? hf hf' := by
    have hold := h.compiled other
    simp only [World.setCompiled, Heap.callable?_setCompiled] at hf hf'
    by_cases ho : other = ref
    · rw [if_pos ho] at hf hf'
      obtain ⟨callable, hcall, hf⟩ := Option.map_eq_some_iff.1 hf
      obtain ⟨callable', hcall', hf'⟩ := Option.map_eq_some_iff.1 hf'
      rcases callable with _ | ⟨g, _ | d⟩ <;> rcases callable' with _ | ⟨g', _ | d'⟩ <;>
        cases hf <;> cases hf' <;> have hrel := hold _ _ _ _ hcall hcall'
      · exact .some hc
      · cases hrel
      · cases hrel
      · exact hrel
    · rw [if_neg ho] at hf hf'
      exact hold f f' c? c'? hf hf'
  kept := h.kept

end SharesCode

/-! ## Compiling -/

/-- **Only code that is found again can be stale.** -/
theorem World.compilesAfresh_of_cached?_eq_none {dynamic : Bool} (h : w.cached? items = none) :
    w.CompilesAfresh items dynamic := by
  unfold CompilesAfresh World.compile
  rw [h]
  cases w.config.cacheUnits && !dynamic with
  | false => exact ⟨rfl, fun _ => rfl⟩
  | true =>
    rw [if_pos rfl]
    rcases w.compileNew items with ⟨e | c, v⟩
    · exact ⟨rfl, fun _ => rfl⟩
    · exact ⟨rfl, fun _ => rfl⟩

/-- A run at the top level: of source text, or of a block. -/
inductive Request where
  | source (text : String)
  | block (items : List Value)

def Request.run (fuel : Nat) : Request → Exec Unit
  | source text => runSource fuel text
  | block items => runItems fuel items false

/-- What the requests answer one after the other, each with the machine at its end. -/
def session (fuel : Nat) : List Request → Machine → List (Except Halt Unit × Machine)
  | [], _ => []
  | r :: l, m => (r.run fuel).run.run m :: session fuel l ((r.run fuel).run.run m).2

/-- Users cannot tell the machines apart. -/
structure Machine.Alike (m n : Machine) : Prop where
  world : m.world.Alike n.world
  stack : m.stack = n.stack
  output : m.output = n.output

/-- The machine, keeping no code. -/
def Machine.uncached (m : Machine) : Machine := { m with world.config.cacheUnits := false }

/-- Code that the machine refers to is among the first `N` units, and these are there. -/
structure Machine.Ready (N : Nat) (m : Machine) : Prop where
  units : N ≤ m.world.heap.units.size
  bindings : ∀ e ∈ m.world.scope.bindings, e.2.CodesIn (Early N)
  objects : m.world.heap.CodesIn (Early N)
  compiled : ∀ ref f c, m.world.heap.callable? ref = some (.user f (some c)) → Early N c
  constants : ∀ c u, Early N c → m.world.heap.unit? c = some u → u.CodesIn (Early N)
  kept : ∀ e ∈ m.world.cache, Early N e.2
  results : ∀ e ∈ m.world.memo.entries, e.2.CodesIn (Early N)
  operands : ∀ v ∈ m.stack, v.CodesIn (Early N)
  attrs : ∀ e ∈ m.attrs, e.2.CodesIn (Early N)

/-- A world without code: what is bound are operations. -/
structure World.Codeless (w : World) : Prop where
  bindings : ∀ e ∈ w.scope.bindings, ∀ A, e.2.CodesIn A
  dictionaries : w.heap.dictionaries = #[]
  callables : ∀ ref f c?, w.heap.callable? ref ≠ some (.user f c?)
  cache : w.cache = []
  memo : w.memo.entries = []

theorem World.Codeless.install (h : w.Codeless) (b : Builtin) : (w.install b).Codeless := by
  obtain ⟨names, hn⟩ := World.learnAll_eq w [b.name]
  have hlearn : w.learn b.name = { w with names } := hn
  unfold World.install
  rw [hlearn]
  refine ⟨?_, h.dictionaries, fun ref f c? hf => ?_, h.cache, h.memo⟩
  · have hput : ∀ e ∈ w.scope.bindings.put b.name (some (.function ⟨w.heap.callables.size⟩)),
        ∀ A, e.2.CodesIn A := by
      refine NameTable.forall_put (P := fun v : Value => ∀ A, v.CodesIn A) h.bindings fun v hv => ?_
      cases hv
      exact fun _ => trivial
    exact hput
  · have hf : (w.heap.callables.push (.builtin b))[ref.index]? = some (.user f c?) := hf
    rw [Array.getElem?_push] at hf
    split at hf
    · cases hf
    · exact h.callables ref f c? hf

theorem World.codeless_initial (config : Config) : (World.initial config).Codeless := by
  have h (l : List Builtin) (w : World) (hw : w.Codeless) : (l.foldl World.install w).Codeless := by
    induction l generalizing w with
    | nil => exact hw
    | cons b l ih => exact ih _ (hw.install b)
  refine h _ _ ⟨by simp, rfl, fun ref f c? hf => ?_, rfl, rfl⟩
  cases hf

theorem Machine.ready_initial (config : Config) : (Machine.initial config).Ready 0 := by
  have h := World.codeless_initial config
  exact
    { units := Nat.zero_le _
      bindings := fun e he => h.bindings e he _
      objects := ⟨fun ref e he => by simp [initial, Heap.dictionary, h.dictionaries] at he,
        fun ref f c? hf => absurd hf (h.callables ref f c?)⟩
      compiled := fun ref f c hf => absurd hf (h.callables ref f _)
      constants := fun c u hc => absurd hc (Nat.not_lt_zero _)
      kept := by simp [initial, h.cache]
      results := by simp [initial, h.memo]
      operands := by simp [initial]
      attrs := by simp [initial] }

/-- Paired machines with the same operands cannot be told apart. -/
theorem Pairing.Machines.alike {S : Pairing} {m n : Machine} (h : S.Machines m n)
    (hrest : S.rest = []) : m.Alike n :=
  ⟨h.world.alike, by rw [h.stack, hrest, List.append_nil], h.output⟩

/-- A request to print `7`. -/
def Request.print : Request := .block [.word "print", .integer 7]

end BlockLang
