import BlockLang.Proofs.Code.Faithful
import BlockLang.Proofs.Machine.Pairing

/-!
# Compiling in paired worlds

**Theorem (`compiled_compileNew`).** Compiling a block anew gives the same unit in paired worlds, or
fails alike.

Building changes arities and known names only, in the same way in both worlds, and generating looks
at the call trees alone. So a pairing just has to stand the same unit being added on both sides.
-/

namespace BlockLang

variable {P : Head → Nat → Prop} {A : CodeRef → Prop} {B : FunctionRef → Prop} {trees : List CallTree}
  {u : CodeUnit} {items : List Value}

/-! ## The constants of new units -/

/-- What a node adds to the constants refers to what lies in the sets, if the targets of calls do. -/
theorem CallTree.refersIn_of_pooled {n : Located} {v : Value} (hn : n.node.Calls P A B)
    (hP : ∀ target arity, P (.other target) arity → target.RefersIn A B) (h : n.pooled? = some v) :
    v.RefersIn A B := by
  unfold Located.pooled? at h
  split at h
  · next hnode =>
    rw [hnode] at hn
    cases hn with
    | constant hv =>
      split at h
      · cases h
      · cases h
        exact hv
  · cases h
    trivial
  · next head _ _ hnode =>
    rw [hnode] at hn
    cases hn with
    | call hhead _ _ =>
      cases head with
      | other target =>
        cases h
        exact hP v _ hhead
      | operation o => cases h
      | _ =>
        cases h
        trivial

theorem CodeUnit.refersIn_of_ofCalls {A' : CodeRef → Prop} (hw : ∀ t ∈ trees, t.WellFormed A')
    (ht : ∀ t ∈ trees, t.Calls P A B)
    (hP : ∀ target arity, P (.other target) arity → target.RefersIn A B)
    (h : CodeUnit.ofCalls trees = .ok u) : ∀ v ∈ u.constants, v.RefersIn A B := by
  intro v hv
  have hv := Array.mem_toList_iff.2 hv
  rw [(faithful_of_ofCalls hw h).firstUse] at hv
  obtain ⟨n, hn, hp⟩ := List.mem_filterMap.1 (Value.mem_of_mem_firsts hv)
  exact CallTree.refersIn_of_pooled (CallTree.Calls.node_of_mem_postorder ht hn) hP hp

theorem CodeUnit.codesIn_of_ofCalls (ht : ∀ t ∈ trees, t.WellFormed A)
    (h : CodeUnit.ofCalls trees = .ok u) : u.CodesIn A :=
  refersIn_of_ofCalls ht ht (fun target _ hcall => by cases target <;> trivial) h

/-! ## Worlds with the same code -/

namespace World.SameCode

variable {w w' v v' : World}

protected theorem trans (h : w.SameCode w') (hv : w.SameCode v) (hv' : w'.SameCode v') :
    v.SameCode v' :=
  ⟨hv'.config.trans (h.config.trans hv.config.symm), hv'.units.trans (h.units.trans hv.units.symm),
    hv'.callables.trans (h.callables.trans hv.callables.symm),
    hv'.cache.trans (h.cache.trans hv.cache.symm)⟩

theorem callable? (h : w.SameCode v) (ref : FunctionRef) :
    v.heap.callable? ref = w.heap.callable? ref := by
  rw [Heap.callable?, h.callables]
  rfl

theorem unit? (h : w.SameCode v) (c : CodeRef) : v.heap.unit? c = w.heap.unit? c :=
  congrArg (·[c.index]?) h.units

theorem addUnit (h : w.SameCode v) (u : CodeUnit) :
    (w.addUnit u).2.SameCode (v.addUnit u).2 ∧ (w.addUnit u).1 = (v.addUnit u).1 :=
  ⟨⟨h.config, congrArg (·.push u) h.units, h.callables, h.cache⟩,
    congrArg (fun units : Array CodeUnit => CodeRef.mk units.size) h.units.symm⟩

theorem keep (h : w.SameCode v) (items : List Value) (c : CodeRef) :
    (w.keep items c).SameCode (v.keep items c) :=
  ⟨h.config, h.units, h.callables, congrArg ((items, c) :: ·) h.cache⟩

theorem addUser (h : w.SameCode v) (f : UserFunction) :
    (w.addUser f).2.SameCode (v.addUser f).2 := by
  refine ⟨h.config, h.units, ?_, h.cache⟩
  simp only [World.addUser, Heap.addUser, Heap.addCallable, h.callables]

theorem setCompiled (h : w.SameCode v) (ref : FunctionRef) (c : CodeRef) :
    (w.setCompiled ref c).SameCode (v.setCompiled ref c) := by
  refine ⟨h.config, h.units, ?_, h.cache⟩
  simp only [World.setCompiled, Heap.setCompiled, h.callables]

end World.SameCode

/-! ## Compiling -/

namespace Pairing

variable {S : Pairing} {w w' v v' : World}

theorem sameCode_of_rebuilt (h : w.Rebuilt v) : w.SameCode v := by
  obtain ⟨arities, names, rfl⟩ := h
  exact ⟨rfl, rfl, rfl, rfl⟩

theorem Worlds.rebuilt (h : S.Worlds w w') (hc : S.code v v') (hv : w.Rebuilt v)
    (hv' : w'.Rebuilt v') (ha : v.Alike v') : S.Worlds v v' := by
  obtain ⟨arities, names, rfl⟩ := hv
  obtain ⟨arities', names', rfl⟩ := hv'
  exact { h with
    scope := ⟨h.scope.bindings, ha.arity?, h.scope.values⟩
    code := hc }

theorem Worlds.addUnit (h : S.Worlds w w') (u : CodeUnit)
    (hc : S.code (w.addUnit u).2 (w'.addUnit u).2) : S.Worlds (w.addUnit u).2 (w'.addUnit u).2 :=
  { h with
    heap := ⟨h.heap.dictionaries, h.heap.callables⟩
    objects := ⟨h.objects.entries, h.objects.functions⟩
    code := hc }

/-- **The same unit is compiled in both worlds**, if the pairing stands the same unit being added. -/
theorem compiled_compileNew
    (hcongr : ∀ {w w' v v' : World}, S.code w w' → w.SameCode v → w'.SameCode v' → S.code v v')
    (hadd : ∀ {w w' : World} {u : CodeUnit}, S.code w w' → u.CodesIn S.known → u.ValidFrom 0 →
      S.code (w.addUnit u).2 (w'.addUnit u).2 ∧
        S.link (w.addUnit u).2 (w'.addUnit u).2 (w.addUnit u).1 (w'.addUnit u).1)
    (h : S.Worlds w w') (hi : ∀ v ∈ items, v.CodesIn S.known) :
    S.Compiled (w.compileNew items) (w'.compileNew items) := by
  obtain ⟨⟨ha, hb, hb'⟩, ht, -⟩ := World.callTrees_alike h.alike hi
  have hrebuilt := h.rebuilt (hcongr h.code (sameCode_of_rebuilt hb) (sameCode_of_rebuilt hb')) hb hb' ha
  clear ha hb hb'
  unfold World.compileNew
  revert hrebuilt ht
  rcases w.callTrees items with ⟨e | trees, v⟩ <;>
    rcases w'.callTrees items with ⟨e' | trees', v'⟩ <;> intro ht hrebuilt
  · cases ht
    exact ⟨hrebuilt, rfl⟩
  · cases ht
  · cases ht
  · obtain ⟨rfl, ht⟩ := ht
    dsimp only at hrebuilt ⊢
    cases hu : CodeUnit.ofCalls trees with
    | error e => exact ⟨hrebuilt, rfl⟩
    | ok u =>
      obtain ⟨hc, hl⟩ :=
        hadd hrebuilt.code (CodeUnit.codesIn_of_ofCalls ht hu) (validFrom_of_ofCalls ht hu)
      exact ⟨hrebuilt.addUnit u hc, hl⟩

/-- A block is compiled alike in worlds that keep the same code, if code that is found again is linked
and the pairing stands the same code being kept on both sides. -/
theorem compiled_compile (hkeeps : w'.config.cacheUnits = w.config.cacheUnits)
    (hcache : w'.cache = w.cache)
    (hfound : ∀ c, w.cached? items = some c → S.link w w' c c)
    (hkeep : ∀ {v v' : World} {c c' : CodeRef}, S.code v v' → S.link v v' c c' →
      S.code (v.keep items c) (v'.keep items c') ∧ S.link (v.keep items c) (v'.keep items c') c c')
    (h : S.Worlds w w') (hnew : S.Compiled (w.compileNew items) (w'.compileNew items))
    (dynamic : Bool) : S.Compiled (w.compile items dynamic) (w'.compile items dynamic) := by
  have hcached : w'.cached? items = w.cached? items := by
    rw [World.cached?, World.cached?, hcache]
  unfold World.compile
  rw [hkeeps, hcached]
  cases w.config.cacheUnits && !dynamic with
  | false => exact hnew
  | true =>
    rw [if_pos rfl, if_pos rfl]
    cases hc : w.cached? items with
    | some c => exact ⟨h, hfound c hc⟩
    | none =>
      revert hnew
      rcases w.compileNew items with ⟨e | c, v⟩ <;> rcases w'.compileNew items with ⟨e' | c', v'⟩ <;>
        rintro ⟨hw, hr⟩
      · exact ⟨hw, hr⟩
      · cases hr
      · cases hr
      · obtain ⟨hcode, hlink⟩ := hkeep hw.code hr
        exact ⟨{ hw with code := hcode }, hlink⟩

end Pairing

end BlockLang
