import BlockLang.Proofs.Machine.Rules

/-!
# Running blocks in paired machines

**Theorem (`sim_runScoped`).** If both machines find the same unit for a block, and units are run in the
same way, then the block is run in the same way.

Where code comes from is the one thing that differs between the machines, so the rules are about
finding code *and looking its unit up*: the references may differ, the units are the same. Each machine
may have a way of its own to run a unit (`go` and `go'`), as long as what is run is the same.
-/

namespace BlockLang.Pairing

open Exec

variable {S : Pairing} {α β : Type}

/-- The same unit, which may be run from its beginning. -/
def SameUnit (S : Pairing) (u u' : CodeUnit) : Prop := u = u' ∧ S.runs u 0

/-! ## Finding units -/

theorem Lawful.sameUnit (hS : S.Lawful) {w w' : World} {c c' : CodeRef} (hw : S.code w w')
    (hc : S.link w w' c c') :
    S.SameUnit ((w.heap.unit? c).getD {}) ((w'.heap.unit? c').getD {}) := by
  obtain ⟨hu, hruns⟩ := hS.unit hw hc
  exact ⟨by rw [hu], hruns⟩

/-- Compiles a block, changes the world with the code, and looks its unit up. -/
def compileThen (g : CodeRef → World → World) (items : List Value) (dynamic : Bool) :
    Exec CodeUnit := do
  let code ← compile items dynamic
  modifyWorld (g code)
  unitOf code

/-- The end of `compileThen`, after compiling. -/
def compiledThen (g : CodeRef → World → World) (m : Machine) :
    Except Error CodeRef × World → Except Halt CodeUnit × Machine
  | (.ok c, w) => (.ok (((g c w).heap.unit? c).getD {}), { m with world := g c w })
  | (.error e, w) => (.error (.error e), { m with world := w })

theorem run_compileThen (g : CodeRef → World → World) (items : List Value) (dynamic : Bool)
    (m : Machine) :
    (compileThen g items dynamic).run.run m =
      compiledThen g (m.compiling items dynamic) (m.world.compile items dynamic) := by
  simp only [compileThen, compile, inWorld, bind_assoc, run_bind, run_modify, run_modifyGet,
    Machine.world_compiling]
  rcases m.world.compile items dynamic with ⟨_ | _, _⟩ <;> rfl

theorem lost_compiledThen {g : CodeRef → World → World} {m : Machine} {r : Except Error CodeRef × World} :
    S.Lost (compiledThen g m r).2 ↔ S.Lost m := by
  rcases r with ⟨_ | _, _⟩ <;> exact Iff.rfl

/-- What keeps a block from being compiled is no error of running code. -/
theorem ne_runtime_of_compile {w : World} {items : List Value} {dynamic : Bool} {e : Error}
    (h : (w.compile items dynamic).1 = .error e) (cause : RuntimeError) : e ≠ .runtime cause := by
  have hnew {e : Error} (h : (w.compileNew items).1 = .error e) : e ≠ .runtime cause := by
    unfold World.compileNew at h
    split at h
    · cases h
      nofun
    · split at h
      · cases h
        nofun
      · cases h
  unfold World.compile at h
  split at h
  · split at h
    · cases h
    · split at h
      · cases h
      · next hc =>
        cases h
        exact hnew (congrArg Prod.fst hc)
  · exact hnew h

theorem halts_of_ne_runtime {e : Error} (h : ∀ cause, e ≠ .runtime cause) : S.Halts (.error e) := by
  cases e with
  | runtime cause => exact absurd rfl (h cause)
  | _ => trivial

/-- Related results of compiling have related ends. -/
theorem agrees_compiledThen (hS : S.Lawful) {g : CodeRef → World → World}
    (hg : ∀ {w w' c c'}, S.Worlds w w' → S.link w w' c c' →
      S.Worlds (g c w) (g c' w') ∧ S.link (g c w) (g c' w') c c')
    {m n : Machine} (h : S.Machines m n) {r q : Except Error CodeRef × World}
    (hrq : S.Compiled r q) (he : ∀ e, r.1 = .error e → S.Halts (.error e)) :
    S.coupling.Agrees S.SameUnit (compiledThen g m r) (compiledThen g n q) := by
  obtain ⟨r, v⟩ := r
  obtain ⟨q, v'⟩ := q
  obtain ⟨hw, ha⟩ := hrq
  cases r <;> cases q
  · cases ha
    exact ⟨h.withWorld hw, rfl, Coupling.halts_error (he _ rfl)⟩
  · cases ha
  · cases ha
  · obtain ⟨hw', hu⟩ := hg hw ha
    exact ⟨h.withWorld hw', hS.sameUnit hw'.code hu, Coupling.halts_ok⟩

/-- **Both machines compile a block to the same unit**, unless the first one goes on with stale code. -/
theorem sim_compileThen (hS : S.Lawful) {g : CodeRef → World → World}
    (hg : ∀ {w w' c c'}, S.Worlds w w' → S.link w w' c c' →
      S.Worlds (g c w) (g c' w') ∧ S.link (g c w) (g c' w') c c')
    {items : List Value} (hi : ∀ v ∈ items, v.CodesIn S.known) (dynamic : Bool) :
    Sim S.coupling S.SameUnit (compileThen g items dynamic) (compileThen g items dynamic) := by
  intro m n h
  obtain ⟨q, hq, heq⟩ := hS.compile dynamic h.world hi
  rw [SimAt, run_compileThen, run_compileThen]
  have hm : S.Machines (m.compiling items dynamic) (n.compiling items dynamic) := { h with }
  have hpartner := agrees_compiledThen hS hg hm hq
    fun e he => halts_of_ne_runtime (ne_runtime_of_compile he)
  by_cases hl : S.Lost (m.compiling items dynamic)
  · refine .inr ⟨?_, _, hpartner⟩
    exact lost_compiledThen.2 hl
  · have hfresh (hw : S.watched) : m.fresh ∧ m.world.CompilesAfresh items dynamic :=
      Classical.byContradiction fun hn => hl (.inr ⟨hw, hn⟩)
    refine .inl ⟨?_, ?_⟩
    · rintro (he | ⟨hwatch, hf⟩)
      · exact hl (.inl he)
      · exact hf (hfresh hwatch).1
    · rw [heq fun hwatch => (hfresh hwatch).2]
      exact hpartner

theorem sim_compile (hS : S.Lawful) {items : List Value} (hi : ∀ v ∈ items, v.CodesIn S.known)
    (dynamic : Bool) :
    Sim S.coupling S.SameUnit (compile items dynamic >>= unitOf)
      (compile items dynamic >>= unitOf) :=
  sim_compileThen (g := fun _ w => w) hS (fun hw hu => ⟨hw, hu⟩) hi dynamic

theorem simAt_unitOf (hS : S.Lawful) {m n : Machine} (h : S.Machines m n) {c c' : CodeRef}
    (hc : S.link m.world n.world c c') :
    SimAt S.coupling S.SameUnit (unitOf c) (unitOf c') m n := by
  have hu := hS.sameUnit h.world.code hc
  by_cases hl : S.Lost m
  · exact .inr ⟨hl, (.ok _, n), h, hu, Coupling.halts_ok⟩
  · exact .inl ⟨hl, h, hu, Coupling.halts_ok⟩

theorem sim_bodyCode (hS : S.Lawful) {body : Value} (hb : body.CodesIn S.known) :
    Sim S.coupling S.SameUnit (bodyCode body >>= unitOf) (bodyCode body >>= unitOf) := by
  cases body with
  | block items dynamic => exact sim_compile hS (Value.refersIn_block.1 hb) dynamic
  | inline items => exact sim_compile hS (Value.refersIn_inline.1 hb) false
  | bytecode ref => exact fun m n h => simAt_unitOf hS h (hS.known h.world.code hb)
  | _ => exact sim_fail_bind (.usual rfl) unitOf unitOf

/-! ## Running units -/

/-- Runs the unit of some code. -/
def running (go : CodeUnit → Exec Flow) (code : CodeRef) : Exec Flow := do go (← unitOf code)

section

variable {go go' : CodeUnit → Exec Flow}

theorem sim_running (hgo : ∀ u, S.runs u 0 → Sim S.coupling Eq (go u) (go' u))
    {code code' : Exec CodeRef}
    (hc : Sim S.coupling S.SameUnit (code >>= unitOf) (code' >>= unitOf)) :
    Sim S.coupling Eq (code >>= running go) (code' >>= running go') := by
  have h (go : CodeUnit → Exec Flow) (code : Exec CodeRef) :
      code >>= running go = (code >>= unitOf) >>= go := (bind_assoc ..).symm
  rw [h, h]
  exact hc.bindSame hgo

theorem sim_descend (hgo : ∀ u, S.runs u 0 → Sim S.coupling Eq (go u) (go' u))
    {code code' : Exec CodeRef}
    (hc : Sim S.coupling S.SameUnit (code >>= unitOf) (code' >>= unitOf)) :
    Sim S.coupling Eq (descend (running go) code) (descend (running go') code') := by
  have deeper : Sim S.coupling Eq (modify fun m => { m with depth := m.depth + 1 } : Exec PUnit)
      (modify fun m => { m with depth := m.depth + 1 }) :=
    sim_modify (fun _ _ h => { h with depth := congrArg (· + 1) h.depth }) fun _ => ⟨rfl, rfl⟩
  refine deeper.bind fun _ _ _ => ?_
  refine sim_afterwards (sim_running hgo hc) (fun m n h => ?_) fun _ => ⟨rfl, rfl⟩
  exact { h with depth := congrArg (· - 1) h.depth }

/-! ## Blocks -/

theorem sim_forM {f : α → Exec PUnit} (hf : ∀ a, Sim S.coupling Eq (f a) (f a)) (l : List α) :
    Sim S.coupling Eq (l.forM f) (l.forM f) := by
  induction l with
  | nil => exact Sim.pure rfl
  | cons a l ih => exact (hf a).bind fun _ _ _ => ih

theorem sim_bindParameters (hS : S.Lawful) (params : List String) :
    Sim S.coupling Eq (bindParameters params) (bindParameters params) := by
  refine sim_forM (fun name => (sim_pop hS).bindSame fun a ha => ?_) _
  exact sim_bind hS name ha

theorem sim_findKept (hS : S.Lawful) (key? : Option MemoKey) :
    Sim S.coupling (fun a b => a = b ∧ ∀ v, a = some v → v.CodesIn S.known) (findKept key?)
      (findKept key?) := by
  cases key? with
  | some key =>
    unfold findKept
    refine sim_inWorld fun w w' hw => ?_
    dsimp only
    rw [← hw.memo]
    exact ⟨hw.withMemo hS (Memo.forall_get? hw.results), rfl,
      fun v hv => Memo.of_get? hw.results hv⟩
  | none => exact Sim.pure ⟨rfl, fun v hv => by cases hv⟩

theorem sim_remember (hS : S.Lawful) (key : MemoKey) {base base' : Nat}
    (hb : S.Heights base base') :
    Sim S.coupling Eq (remember key base) (remember key base') := by
  refine Sim.get.bind fun m n h => ?_
  refine Sim.ite (by rw [h.height, hb]; omega) (fun hlt => ?_) fun _ => Sim.pure rfl
  rw [h.stack]
  have hall := h.operands
  revert hlt hall
  rcases m.stack with _ | ⟨v, stack⟩ <;> intro hlt hall
  · exact absurd hlt (Nat.not_lt_zero _)
  · refine sim_modifyWorld fun w w' hw => ?_
    rw [← hw.memo]
    exact hw.withMemo hS (Memo.forall_insert hw.results (hall v List.mem_cons_self))

theorem sim_keepTop (hS : S.Lawful) {base base' : Nat} (hb : S.Heights base base') :
    Sim S.coupling Eq (keepTop base) (keepTop base') := by
  refine sim_height.bind fun a b hab => ?_
  refine Sim.ite (by rw [hab, hb]; omega) (fun _ => ?_) fun _ => Sim.pure rfl
  refine (sim_pop hS).bindSame fun v hv => (sim_cutTo hb).bindEq fun _ => ?_
  exact sim_push hv

theorem sim_inScope (hS : S.Lawful)
    (hgo : ∀ u, S.runs u 0 → Sim S.coupling Eq (go u) (go' u)) {o : BlockOptions}
    (ho : ∀ e ∈ o.imports, e.2.CodesIn S.known) {code code' : Exec CodeRef}
    (hc : Sim S.coupling S.SameUnit (code >>= unitOf) (code' >>= unitOf)) (key? : Option MemoKey) :
    Sim S.coupling Eq (inScope (running go) o code key?) (inScope (running go') o code' key?) := by
  refine Sim.get.bind fun m n h => (sim_bindAll hS ho).bind fun _ _ _ => ?_
  refine (sim_bindParameters hS o.params).bind fun _ _ _ => sim_height.bind fun base base' hb => ?_
  refine (sim_observe (sim_descend hgo hc)).bind fun r q ⟨hr, he⟩ => ?_
  cases r <;> cases q
  · cases hr
    refine sim_unless (fun _ => sim_modifyScope hS fun s s' hs => ?_) (Sim.throw (he _ rfl))
    split
    · exact h.world.scope.scopeAfter hs o
    · exact h.world.scope
  · cases hr
  · cases hr
  · obtain rfl : _ = _ := hr
    refine sim_when (fun _ => sim_keepTop hS hb) ?_
    refine sim_unless (fun _ => sim_modifyScope hS fun s s' hs => ?_) ?_
    · exact h.world.scope.scopeAfter hs o
    · cases key? with
      | some key => exact (sim_remember hS key hb).bind fun _ _ _ => Sim.pure rfl
      | none => exact Sim.pure rfl

/-- **A block is run in the same way if both machines find the same unit for it.** -/
theorem sim_runScoped (hS : S.Lawful)
    (hgo : ∀ u, S.runs u 0 → Sim S.coupling Eq (go u) (go' u)) {o : BlockOptions}
    (ho : ∀ e ∈ o.imports, e.2.CodesIn S.known) {code code' : Exec CodeRef}
    (hc : Sim S.coupling S.SameUnit (code >>= unitOf) (code' >>= unitOf)) :
    Sim S.coupling Eq (runScoped (running go) o code) (runScoped (running go') o code') := by
  refine Sim.get.bind fun m n h =>
    sim_check (.usual rfl) (fun hshort => ?_) (fun hn => ?_) fun hn => ?_
  · refine hS.short.symm.imp (fun he => he.1) fun hr => ⟨?_, rfl⟩
    rwa [h.stack, hr, List.append_nil]
  · rw [h.height]
    omega
  -- from here on both have their arguments on top
  have hle : o.params.length ≤ m.stack.length := Nat.le_of_not_lt hn
  rw [h.stack, List.take_append_of_le_length hle, List.drop_append_of_le_length hle,
    ← h.world.heap.argumentFingerprint]
  refine (sim_findKept hS _).bindSame fun known? hk => ?_
  cases known? with
  | some v =>
    refine (sim_setStack ?_).bindEq fun _ => Sim.pure rfl
    exact List.forall_mem_cons.2 ⟨hk v rfl, fun u hu => h.operands u (List.mem_of_mem_drop hu)⟩
  | none =>
    refine sim_check (.usual rfl) (fun hd => ?_) (fun hd => ?_) fun _ =>
      sim_inScope hS hgo ho hc _
    · rcases hS.depth h.world.code with he | ⟨-, he⟩
      · exact .inr ⟨by rwa [← he, ← h.depth], by rw [he]⟩
      · exact .inl (he _)
    · have hle : m.world.config.maxDepth ≤ n.world.config.maxDepth :=
        (hS.depth h.world.code).elim Nat.le_of_eq And.left
      rw [← h.depth]
      omega

theorem sim_runBlock (hS : S.Lawful)
    (hgo : ∀ u, S.runs u 0 → Sim S.coupling Eq (go u) (go' u)) {o : BlockOptions}
    (ho : ∀ e ∈ o.imports, e.2.CodesIn S.known) {body : Value} (hb : body.CodesIn S.known) :
    Sim S.coupling Eq (runBlock (running go) o body) (runBlock (running go') o body) :=
  sim_runScoped hS hgo ho (sim_bodyCode hS hb)

theorem sim_runInPlace (hS : S.Lawful)
    (hgo : ∀ u, S.runs u 0 → Sim S.coupling Eq (go u) (go' u)) {body : Value}
    (hb : body.CodesIn S.known) :
    Sim S.coupling Eq (runInPlace (running go) body) (runInPlace (running go') body) :=
  sim_runBlock hS hgo (by simp) hb

/-- The passes ended alike, with a value that the pairing admits. -/
def SamePass (S : Pairing) (p q : Pass) : Prop :=
  p = q ∧ ∀ v, p = .value (some v) → v.CodesIn S.known

theorem sim_runPass (hS : S.Lawful)
    (hgo : ∀ u, S.runs u 0 → Sim S.coupling Eq (go u) (go' u)) {body : Value}
    (hb : body.CodesIn S.known) :
    Sim S.coupling S.SamePass (runPass (running go) body) (runPass (running go') body) := by
  refine sim_height.bind fun base base' hbase => ?_
  refine (sim_runInPlace hS hgo hb).bind fun flow _ hflow => ?_
  cases hflow
  cases flow with
  | returned => exact Sim.pure ⟨rfl, by simp⟩
  | broken => exact (sim_cutTo hbase).bind fun _ _ _ => Sim.pure ⟨rfl, by simp⟩
  | continued => exact (sim_cutTo hbase).bind fun _ _ _ => Sim.pure ⟨rfl, by simp⟩
  | done =>
    refine Sim.get.bind fun m n h => (sim_cutTo hbase).bind fun _ _ _ => Sim.pure ⟨?_, ?_⟩
    · rw [h.stack, above_append hbase]
    · intro v hv
      have hv : (above base m.stack).head? = some v := Pass.value.inj hv
      exact h.operands v (List.mem_of_mem_take (List.mem_of_head? hv))

/-! ## Functions -/

/-- The same function on both sides, with the same unit if it has been compiled. -/
inductive SameCallable (S : Pairing) (w w' : World) : Option Callable → Option Callable → Prop
  | missing : SameCallable S w w' none none
  | builtin (b : Builtin) : SameCallable S w w' (some (.builtin b)) (some (.builtin b))
  | raw (f : UserFunction) : SameCallable S w w' (some (.user f none)) (some (.user f none))
  | compiled (f : UserFunction) {c c' : CodeRef} (hc : S.link w w' c c') :
    SameCallable S w w' (some (.user f (some c))) (some (.user f (some c')))

theorem Worlds.callable? (hS : S.Lawful) {w w' : World} (h : S.Worlds w w') (ref : FunctionRef) :
    S.SameCallable w w' (w.heap.callable? ref) (w'.heap.callable? ref) := by
  have hbare := h.heap.bare ref
  rcases hc : w.heap.callable? ref with _ | ⟨b⟩ | ⟨f, c?⟩ <;>
    rcases hc' : w'.heap.callable? ref with _ | ⟨b'⟩ | ⟨f', c'?⟩ <;>
    rw [hc, hc'] at hbare <;> simp only [Option.map_none, Option.map_some] at hbare <;> cases hbare
  · exact .missing
  · exact .builtin b
  · cases hS.compiled h.code hc hc' with
    | none => exact .raw f
    | some hu => exact .compiled f hu

theorem simAt_heap {P : α → β → Prop} {f : Heap → Exec α} {g : Heap → Exec β} {m n : Machine}
    (h : SimAt S.coupling P (f m.world.heap) (g n.world.heap) m n) :
    SimAt S.coupling P (heap >>= f) (heap >>= g) m n := h

theorem sim_functionCode (hS : S.Lawful) (ref : FunctionRef) :
    Sim S.coupling S.SameUnit (functionCode ref >>= unitOf) (functionCode ref >>= unitOf) := by
  intro m n h
  rw [functionCode, bind_assoc]
  refine simAt_heap ?_
  have hcall := h.world.callable? hS ref
  have hin := h.world.objects.functions ref
  revert hcall hin
  generalize m.world.heap.callable? ref = callable?, n.world.heap.callable? ref = callable'?
  intro hcall hin
  cases hcall with
  | missing => exact sim_fail_bind (.usual rfl) unitOf unitOf m n h
  | builtin b => exact sim_fail_bind (.usual rfl) unitOf unitOf m n h
  | compiled f hc => exact simAt_unitOf hS h hc
  | raw f =>
    have hmain := (hin f none rfl).1
    revert hmain
    dsimp only
    cases f.main with
    | block items dynamic =>
      intro hmain
      simp only [bind_assoc, pure_bind]
      exact sim_compileThen hS (g := fun c w => w.setCompiled ref c)
        (fun hw hc => ⟨hw.setCompiled hS ref hc, (hS.setCompiled ref hw.code hc).2⟩)
        (Value.refersIn_block.1 hmain) dynamic m n h
    | _ => exact fun _ => sim_fail_bind (.usual rfl) unitOf unitOf m n h

end

end BlockLang.Pairing
