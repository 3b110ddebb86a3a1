import BlockLang.Code.Compile
import BlockLang.Proofs.CallTree.Repeating

/-!
# Compiling a block again

**Theorem (`compile_repeats`).** Where no code is kept for blocks, compiling a block a second time gives the
same unit as the first time, if the first time has not changed the arity of any name that the block uses
before a label in it declares that name.

Without that condition the second unit may differ: the name is a variable the first time and a call the
second time (`compile_uses_early`). It differs at most once, though. What labels say about arities does not
depend on the arities that there are, so the world is the same after the second time as after the first, and
from then on nothing changes (`compile_settles`).
-/

namespace BlockLang.World

variable {w w₁ w₂ : World} {items : List Value} {c c₂ : CodeRef}

theorem unit?_addUnit (w : World) (u : CodeUnit) :
    (w.addUnit u).2.heap.unit? (w.addUnit u).1 = some u := Array.getElem?_push_size

/-- A block that was compiled has trees, and they have code. -/
theorem exists_of_compileNew (h : w.compileNew items = (.ok c, w₁)) :
    ∃ trees u v, w.callTrees items = (.ok trees, v) ∧ CodeUnit.ofCalls trees = .ok u ∧
      c = (v.addUnit u).1 ∧ w₁ = (v.addUnit u).2 := by
  unfold compileNew at h
  split at h
  · cases h
  · next trees v ht =>
    split at h
    · cases h
    · next u hu =>
      cases h
      exact ⟨trees, u, v, ht, hu, rfl, rfl⟩

/-- Compiling anew changes arities, and to building no more than that. -/
theorem alikeFor_of_compileNew (h : w.compileNew items = (.ok c, w₁))
    (hearly : ∀ name, usesEarly name items → w₁.arity? name = w.arity? name) :
    AlikeFor False items w w₁ := by
  obtain ⟨trees, u, v, ht, -, -, rfl⟩ := exists_of_compileNew h
  obtain ⟨arities, names, hv⟩ := rebuilt_callTrees w items
  rw [ht] at hv
  cases hv
  exact ⟨rfl, ⟨rfl, rfl⟩, fun name hn => (hearly name (hn.resolve_left id)).symm⟩

/-- After compiling anew, the arities are what the labels say, or what they were. -/
theorem arity?_of_compileNew (h : w.compileNew items = (.ok c, w₁)) (name : String) :
    w₁.arity? name = (said name items).getD (w.arity? name) := by
  obtain ⟨trees, u, v, ht, -, -, rfl⟩ := exists_of_compileNew h
  have hself : AlikeFor True items w w := ⟨rfl, .refl _, fun _ _ => rfl⟩
  have hsame := together_callTrees hself
  rw [ht] at hsame
  exact hsame.2.2.left name

/-- **Compiling anew gives the same unit again**, and changes no arity any more. -/
theorem compileNew_repeats (h : w.compileNew items = (.ok c, w₁))
    (hearly : ∀ name, usesEarly name items → w₁.arity? name = w.arity? name) :
    ∃ c' w', w₁.compileNew items = (.ok c', w') ∧ w'.heap.unit? c' = w₁.heap.unit? c ∧
      ∀ name, w'.arity? name = w₁.arity? name := by
  have hsame := together_callTrees (alikeFor_of_compileNew h hearly)
  obtain ⟨trees, u, v, ht, hu, rfl, rfl⟩ := exists_of_compileNew h
  rw [ht] at hsame
  cases ht' : (v.addUnit u).2.callTrees items with
  | mk answer v' =>
    rw [ht'] at hsame
    cases answer with
    | error e => exact hsame.elim
    | ok trees' =>
      obtain ⟨rfl, -, -⟩ := hsame
      have hagain : (v.addUnit u).2.compileNew items = (.ok (v'.addUnit u).1, (v'.addUnit u).2) := by
        rw [compileNew, ht']
        dsimp only
        rw [hu]
      refine ⟨_, _, hagain, ?_, fun name => ?_⟩
      · rw [unit?_addUnit, unit?_addUnit]
      · rw [arity?_of_compileNew hagain, arity?_of_compileNew h]
        cases said name items <;> rfl

/-- Where no code is kept for blocks, they are compiled anew. -/
theorem compile_eq_compileNew (hcache : w.config.cacheUnits = false) (items : List Value)
    (dynamic : Bool) : w.compile items dynamic = w.compileNew items := by
  unfold compile
  rw [hcache, Bool.false_and, if_neg Bool.false_ne_true]

theorem config_of_compileNew (h : w.compileNew items = (.ok c, w₁)) : w₁.config = w.config := by
  obtain ⟨trees, u, v, ht, -, -, rfl⟩ := exists_of_compileNew h
  obtain ⟨arities, names, hv⟩ := rebuilt_callTrees w items
  rw [ht] at hv
  cases hv
  rfl

/-- **Compiling a block is repeatable** where no code is kept for blocks and the block uses no name early
whose arity it changes: it is compiled again, to the same constants and the same instructions. -/
theorem compile_repeats {dynamic : Bool} (hcache : w.config.cacheUnits = false)
    (h : w.compile items dynamic = (.ok c, w₁))
    (hearly : ∀ name, usesEarly name items → w₁.arity? name = w.arity? name) :
    ∃ c' w', w₁.compile items dynamic = (.ok c', w') ∧ w'.heap.unit? c' = w₁.heap.unit? c := by
  rw [compile_eq_compileNew hcache] at h
  obtain ⟨c', w', h', hu, -⟩ := compileNew_repeats h hearly
  have hcache' : w₁.config.cacheUnits = false := by rwa [config_of_compileNew h]
  rw [compile_eq_compileNew hcache']
  exact ⟨c', w', h', hu⟩

/-- **Compiling a block settles**: whatever the block uses early, the third time gives the unit of the
second time. -/
theorem compile_settles {dynamic : Bool} (hcache : w.config.cacheUnits = false)
    (h : w.compile items dynamic = (.ok c, w₁)) (h₂ : w₁.compile items dynamic = (.ok c₂, w₂)) :
    ∃ c' w', w₂.compile items dynamic = (.ok c', w') ∧ w'.heap.unit? c' = w₂.heap.unit? c₂ := by
  rw [compile_eq_compileNew hcache] at h
  have hcache₁ : w₁.config.cacheUnits = false := by rwa [config_of_compileNew h]
  rw [compile_eq_compileNew hcache₁] at h₂
  have hcache₂ : w₂.config.cacheUnits = false := by rwa [config_of_compileNew h₂]
  -- both times the labels have the last word
  have hsettled (name : String) : w₂.arity? name = w₁.arity? name := by
    rw [arity?_of_compileNew h₂, arity?_of_compileNew h]
    cases said name items <;> rfl
  obtain ⟨c', w', h', hu, -⟩ := compileNew_repeats h₂ fun name _ => hsettled name
  rw [compile_eq_compileNew hcache₂]
  exact ⟨c', w', h', hu⟩

/-- `f: function [n] [n] print f 1`: the name is declared before it is used. -/
theorem compile_repeats_declared :
    let w := World.initial { cacheUnits := false }
    let items : List Value := [.label "f", .word "function", .block [.word "n"] false,
      .block [.word "n"] false, .word "print", .word "f", .integer 1]
    let first := w.compile items false
    ∃ c, w.config.cacheUnits = false ∧ first.1 = .ok c ∧
      (∀ name, usesEarly name items → first.2.arity? name = w.arity? name) ∧
      first.2.arity? "f" ≠ w.arity? "f" ∧
      ∃ c' w', first.2.compile items false = (.ok c', w') ∧
        w'.heap.unit? c' = first.2.heap.unit? c := by
  intro w items first
  have hruns : w.config.cacheUnits = false ∧ first.1.toBool ∧ first.2.arity? "f" ≠ w.arity? "f" := by
    decide +kernel
  obtain ⟨hcache, hcompiles, hchanges⟩ := hruns
  obtain ⟨c, hc⟩ : ∃ c, first.1 = .ok c := by
    cases h : first.1 with
    | ok c => exact ⟨c, rfl⟩
    | error e => simp [h, Except.toBool] at hcompiles
  have hfirst : w.compile items false = (.ok c, first.2) := by rw [← hc]
  have hearly (name : String) (hn : usesEarly name items) : first.2.arity? name = w.arity? name := by
    have hnew : w.compileNew items = (.ok c, first.2) := by rw [← hfirst, compile_eq_compileNew hcache]
    have hsaid : said name items = none := by
      by_cases hf : "f" = name
      · subst hf
        exact absurd hn (by decide)
      · simp [items, said, saidAt, hf]
    rw [arity?_of_compileNew hnew, hsaid, Option.getD_none]
  exact ⟨c, hcache, hc, hearly, hchanges, compile_repeats hcache hfirst hearly⟩

/-- **A block may be compiled differently the second time**: `print g g: function [a] [a]` prints a variable
at first and the result of a call from then on. -/
theorem compile_uses_early :
    let w := World.initial { cacheUnits := false }
    let items : List Value := [.word "print", .word "g", .label "g", .word "function",
      .block [.word "a"] false, .block [.word "a"] false]
    let first := w.compile items false
    let second := first.2.compile items false
    first.1.toBool ∧ second.1.toBool ∧
      (first.1.toOption.bind first.2.heap.unit?).map CodeUnit.code ≠
        (second.1.toOption.bind second.2.heap.unit?).map CodeUnit.code := by
  decide +kernel

end BlockLang.World
