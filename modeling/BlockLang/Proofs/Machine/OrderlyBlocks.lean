import BlockLang.Proofs.Machine.Orderly

/-!
# Compiling and running blocks keeps order

Compiling a block is where labels write to the table of arities: what is then no longer implied by a binding
is what a label has said in the block, and the block has been added to the history. The unit that is made
holds functions of the block and functions that were bound at that moment.

A block with a scope of its own leaves a scope that is put together from the one before and the one at its
end, name by name, and both are accounted for.
-/

namespace BlockLang

open CallTree Exec

variable {items : List Value} {u : CodeUnit} {w : World} {m n : Machine}

/-! ## The functions in compiled code -/

/-- If the call is of a function that was there when it was built, then of one in `B`. -/
def Head.FunctionsIn (B : FunctionRef → Prop) : Head → (arity : Nat) → Prop
  | .other target, _ => target.FunctionsIn B
  | _, _ => True

theorem Head.lawful_functionsIn (B : FunctionRef → Prop) : Head.Lawful (Head.FunctionsIn B) :=
  ⟨fun _ => trivial, fun _ => trivial, fun _ => trivial, fun _ _ => trivial⟩

namespace Machine

theorem Orderly.knows_of_get? (hm : m.Orderly) {name : String} {v : Value}
    (h : m.world.get? name = some v) : m.Knows v := hm.scope.get? h

/-- The functions that calls can be of, while items are built, are there. -/
theorem Orderly.admits (hm : m.Orderly) (h : World.RelabelledBy items m.world w) :
    w.Admits (Head.FunctionsIn fun ref => ref.index < m.world.heap.callables.size) := by
  obtain ⟨arities, names, rfl⟩ := h.rebuilt
  refine ⟨fun name eager arity _ => ?_, fun segments ref hp => ?_⟩
  · unfold World.callHead
    split
    · trivial
    · split
      · next ref _ _ hv => exact hm.knows_of_get? hv
      · trivial
  · unfold World.pathFunction? at hp
    split at hp
    · split at hp
      · split at hp
        · next hentry =>
          cases hp
          exact hm.heap.entries _ _ (NameTable.mem_of_get? hentry)
        · cases hp
      · cases hp
    · cases hp

/-! ## Compiling -/

/-- What is not implied by a binding after building, and was not said before, a label in the block has
said. -/
theorem ExplainsScope.relabelled (hs : m.ExplainsScope m.world.scope)
    (hb : m.built m.world.scope items) (h : World.RelabelledBy items m.world w) :
    m.ExplainsScope w.scope := by
  obtain ⟨arities, names, rfl⟩ := h.rebuilt
  intro name
  refine ⟨(hs name).known, ?_⟩
  rcases h.arity? name with hsame | hsays
  · have hentry : Scope.entry { m.world.scope with arities } name = m.world.scope.entry name :=
      Prod.ext rfl hsame
    rw [hentry]
    exact (hs name).arity?
  · exact .inr ⟨m.world.scope, items, hb, rfl, hsays⟩

theorem Orderly.relabelled (hm : m.Orderly) (hb : m.built m.world.scope items)
    (h : World.RelabelledBy items m.world w) :
    Orderly { m with world := w } ∧ m.Later { m with world := w } := by
  have hscope := hm.scope.relabelled hb h
  obtain ⟨arities, names, rfl⟩ := h.rebuilt
  exact ⟨{ hm with scope := hscope }, .of_callables rfl rfl⟩

theorem Orderly.addUnit (hm : m.Orderly) (hu : ∀ v ∈ u.constants, m.Knows v) :
    Orderly { m with world := (m.world.addUnit u).2 } := by
  have hlater : m.Later { m with world := (m.world.addUnit u).2 } := .of_callables rfl rfl
  refine hm.congr hlater (hm.scope.later hlater)
    { hm.heap with constants := fun c u' hc => ?_ } hm.results rfl rfl
  simp only [World.addUnit, Heap.addUnit, Heap.unit?, Array.getElem?_push] at hc
  split at hc
  · cases hc
    exact hu
  · exact hm.heap.constants c u' hc

/-- A block that is compiled anew has been added to the history. -/
theorem Orderly.compileNew (hm : m.Orderly) (hi : ∀ v ∈ items, m.Knows v)
    (hb : m.built m.world.scope items) :
    Orderly { m with world := (m.world.compileNew items).2 } ∧
      m.Later { m with world := (m.world.compileNew items).2 } := by
  have htrees : ∀ trees, (m.world.callTrees items).1 = .ok trees → ∀ t ∈ trees,
      t.Calls (Head.FunctionsIn fun ref => ref.index < m.world.heap.callables.size) (fun _ => True)
        fun ref => ref.index < m.world.heap.callables.size :=
    fun _ h => World.calls_callTrees (Head.lawful_functionsIn _) (fun _ => hm.admits) hi h
  have hbuilt := hm.relabelled hb (World.relabelled_callTrees m.world items)
  have hformed : ∀ trees w, m.world.callTrees items = (.ok trees, w) →
      ∀ t ∈ trees, t.WellFormed fun _ => True :=
    fun _ _ h => World.wellFormed_of_callTrees h fun v _ => v.codesIn_true
  unfold World.compileNew
  revert htrees hbuilt hformed
  rcases m.world.callTrees items with ⟨e | trees, w⟩ <;> intro htrees hbuilt hformed
  · exact hbuilt
  · dsimp only at hbuilt ⊢
    cases hu : CodeUnit.ofCalls trees with
    | error e => exact hbuilt
    | ok u =>
      have hconstants := CodeUnit.refersIn_of_ofCalls (hformed trees w rfl) (htrees trees rfl)
        (fun _ _ => id) hu
      refine ⟨hbuilt.1.addUnit fun v hv => Knows.later (hconstants v hv) hbuilt.2, ?_⟩
      exact hbuilt.2.trans (.of_callables rfl rfl)

theorem later_compiling (m : Machine) (items : List Value) (dynamic : Bool) :
    m.Later (m.compiling items dynamic) := ⟨.of_callables rfl, fun _ _ h => .inl h⟩

/-- **Compiling keeps order**, also when it fails. -/
theorem Orderly.compile (hm : m.Orderly) (hi : ∀ v ∈ items, m.Knows v) (dynamic : Bool) :
    let n := { m.compiling items dynamic with world := (m.world.compile items dynamic).2 }
    n.Orderly ∧ m.Later n := by
  have hlater := m.later_compiling items dynamic
  have hcompiling : (m.compiling items dynamic).Orderly :=
    { hm with scope := hm.scope.later hlater }
  have hnew (hb : m.world.Builds items dynamic) :=
    hcompiling.compileNew hi (.inr ⟨rfl, rfl, hb⟩)
  simp only [world_compiling] at hnew
  unfold World.compile World.Builds at *
  split
  · next hcaching =>
    cases hc : m.world.cached? items with
    | some c => exact ⟨hcompiling, hlater⟩
    | none =>
      obtain ⟨hnew, hlater'⟩ := hnew fun _ => hc
      revert hnew hlater'
      rcases m.world.compileNew items with ⟨e | c, w⟩ <;> intro hnew hlater'
      · exact ⟨hnew, hlater.trans hlater'⟩
      · exact ⟨{ hnew with }, hlater.trans (hlater'.trans (.of_callables rfl rfl))⟩
  · next hcaching =>
    obtain ⟨hnew, hlater'⟩ := hnew fun h => absurd h hcaching
    exact ⟨hnew, hlater.trans hlater'⟩

end Machine

namespace Exec

variable {run : CodeRef → Exec Flow}

theorem run_compile (items : List Value) (dynamic : Bool) (m : Machine) :
    (compile items dynamic).run.run m =
      ((m.world.compile items dynamic).1.mapError .error,
        { m.compiling items dynamic with world := (m.world.compile items dynamic).2 }) := by
  simp only [compile, inWorld, run_bind, run_modify, run_modifyGet, Machine.world_compiling]
  rcases m.world.compile items dynamic with ⟨_ | _, _⟩ <;> rfl

theorem keeps_compile (hi : ∀ v ∈ items, m.Knows v) (dynamic : Bool) :
    Keeps (compile items dynamic) (fun _ _ => True) m := by
  intro hm
  obtain ⟨horderly, hlater⟩ := hm.compile hi dynamic
  rw [run_compile]
  exact ⟨horderly, hlater, fun _ _ => trivial⟩

theorem keeps_bodyCode {body : Value} (hb : m.Knows body) :
    Keeps (bodyCode body) (fun _ _ => True) m := by
  cases body with
  | block items dynamic => exact keeps_compile (Machine.knows_block.1 hb) dynamic
  | inline items => exact keeps_compile (Machine.knows_inline.1 hb) false
  | bytecode ref => exact .pure trivial
  | _ => exact keeps_fail _

theorem keepsOrder_functionCode (ref : FunctionRef) : KeepsOrder (functionCode ref) := by
  refine fun m => .heap fun hheap => ?_
  rcases hc : m.world.heap.callable? ref with _ | ⟨b | ⟨f, _ | code⟩⟩
  · exact keeps_fail _
  · exact keeps_fail _
  · have hmain := (hheap.functions ref f none hc).1
    revert hmain
    dsimp only
    cases f.main with
    | block items dynamic =>
      intro hmain
      refine (keeps_compile (Heap.knows_block.1 hmain) dynamic).bind fun n code _ _ => ?_
      refine Keeps.bind (Q := fun _ _ => True) (.modify fun hn => ?_) fun _ _ _ _ => .pure trivial
      have hgrown := n.world.heap.grown_setCompiled ref code
      have hlater : n.Later { n with world := n.world.setCompiled ref code } :=
        ⟨hgrown, fun _ _ => id⟩
      exact ⟨hn.congr hlater (hn.scope.later hlater) (hn.heap.setCompiled ref code)
        (fun e he => (hn.results e he).later hlater) rfl rfl, hlater, trivial⟩
    | _ => exact fun _ => keeps_fail _
  · exact .pure trivial

theorem keeps_unitOf (code : CodeRef) :
    Keeps (unitOf code) (fun n u => ∀ v ∈ u.constants, n.Knows v) m := by
  refine .heap fun hheap => .pure fun v hv => ?_
  cases hu : m.world.heap.unit? code with
  | none =>
    rw [hu] at hv
    exact absurd hv (Array.not_mem_empty v)
  | some u =>
    rw [hu] at hv
    exact hheap.constants code u hu v hv

/-! ## Blocks -/

theorem keepsOrder_forM {α : Type} {f : α → Exec PUnit} (hf : ∀ a, KeepsOrder (f a)) (l : List α) :
    KeepsOrder (l.forM f) := by
  induction l with
  | nil => exact fun _ => .pure trivial
  | cons a l ih => exact (hf a).bind fun _ => ih

theorem keepsOrder_bindParameters (params : List String) : KeepsOrder (bindParameters params) :=
  keepsOrder_forM (fun name _ => keeps_pop.bind fun _ _ _ hv => keeps_bind hv name) params.reverse

theorem keeps_findKept (key? : Option MemoKey) :
    Keeps (findKept key?) (fun n v? => ∀ v, v? = some v → n.Knows v) m := by
  cases key? with
  | none => exact .pure nofun
  | some key =>
    unfold findKept
    refine .inWorld fun hm => ⟨{ hm with results := Memo.forall_get? hm.results }, ?_, fun v hv => ?_⟩
    · exact .of_callables rfl rfl
    · exact Memo.of_get? hm.results hv

theorem keepsOrder_remember (key : MemoKey) (base : Nat) : KeepsOrder (remember key base) := by
  refine fun m => .get fun hm => .ite (fun _ => ?_) fun _ => .pure trivial
  have hall := hm.operands
  revert hall
  rcases m.stack with _ | ⟨v, stack⟩ <;> intro hall
  · exact .pure trivial
  · refine .modify fun hm => ⟨{ hm with results := ?_ }, .of_callables rfl rfl, trivial⟩
    exact Memo.forall_insert hm.results (hall v List.mem_cons_self)

theorem keepsOrder_keepTop (base : Nat) : KeepsOrder (keepTop base) := by
  refine keepsOrder_height.bind fun height m => .ite (fun _ => ?_) fun _ => .pure trivial
  refine keeps_pop.bind fun n v _ hv => (keepsOrder_cutTo base n).bind fun k _ hk _ => ?_
  exact keeps_push (hv.later hk)

section

variable {code : Exec CodeRef} (hrun : ∀ code, KeepsOrder (run code))
  (hcode : ∀ n, m.Later n → Keeps code (fun _ _ => True) n)

include hrun hcode

theorem keeps_descend : Keeps (descend run code) (fun _ _ => True) m := by
  refine (keepsOrder_count (· + 1) id m).bind fun n _ hn _ => ?_
  refine (Keeps.observe ((hcode n hn).bind fun k c _ _ => hrun c k)).bind fun n r _ _ => ?_
  exact (keepsOrder_count (· - 1) id n).bind fun _ _ _ _ => .resume fun _ _ => trivial

/-- **A block keeps order whatever scope it leaves**: the one from before was accounted for, and still is. -/
theorem keeps_inScope {o : BlockOptions} (ho : ∀ e ∈ o.imports, m.Knows e.2)
    (key? : Option MemoKey) : Keeps (inScope run o code key?) (fun _ _ => True) m := by
  refine .get fun hm => (keeps_bindAll ho).bind fun n₁ _ h₁ _ => ?_
  refine (keepsOrder_bindParameters o.params n₁).bind fun n₂ _ h₂ _ => ?_
  refine (keepsOrder_height n₂).bind fun n₃ base h₃ _ => ?_
  have hbegun : m.Later n₃ := (h₁.trans h₂).trans h₃
  have hdescend := keeps_descend (m := n₃) hrun fun k hk => hcode k (hbegun.trans hk)
  refine hdescend.observe.bind fun n₄ r h₄ _ => ?_
  have hsaved : n₄.ExplainsScope m.world.scope := hm.scope.later (hbegun.trans h₄)
  cases r with
  | error halt =>
    refine keeps_unless (fun _ => keeps_modifyScope fun hs => ?_) fun _ _ => .throw _
    cases o.inTry
    · exact hsaved
    · exact hsaved.scopeAfter hs o
  | ok flow =>
    refine keeps_when (fun _ => keepsOrder_keepTop base n₄) fun n hn => ?_
    refine keeps_unless (fun _ => keeps_modifyScope fun hs => (hsaved.later hn).scopeAfter hs o) fun k _ => ?_
    cases key? with
    | some key => exact (keepsOrder_remember key base k).bind fun _ _ _ _ => .pure trivial
    | none => exact .pure trivial

theorem keeps_runScoped {o : BlockOptions} (ho : ∀ e ∈ o.imports, m.Knows e.2) :
    Keeps (runScoped run o code) (fun _ _ => True) m := by
  refine .get fun hm => .ite (fun _ => keeps_fail_bind _) fun _ => ?_
  refine (keeps_findKept _).bind fun n v? hn hv => ?_
  cases v? with
  | some v =>
    refine Keeps.bind (Q := fun _ _ => True) (keeps_setStack ?_) fun _ _ _ _ => .pure trivial
    refine List.forall_mem_cons.2 ⟨hv v rfl, fun u hu => ?_⟩
    exact (hm.operands u (List.mem_of_mem_drop hu)).later hn
  | none =>
    refine .ite (fun _ => keeps_fail_bind _) fun _ => ?_
    exact keeps_inScope hrun (fun k hk => hcode k (hn.trans hk)) (fun e he => (ho e he).later hn) _

omit hcode in
theorem keeps_runInPlace {body : Value} (hb : m.Knows body) :
    Keeps (runInPlace run body) (fun _ _ => True) m :=
  keeps_runScoped hrun (fun _ hn => keeps_bodyCode (hb.later hn)) (by simp)

omit hcode in
theorem keeps_runPass {body : Value} (hb : m.Knows body) :
    Keeps (runPass run body) (fun n pass => ∀ v, pass = .value (some v) → n.Knows v) m := by
  refine (keepsOrder_height m).bind fun n base hn _ => ?_
  refine (keeps_runInPlace hrun (hb.later hn)).bind fun n flow _ _ => ?_
  cases flow with
  | returned => exact .pure nofun
  | broken => exact (keepsOrder_cutTo base n).bind fun _ _ _ _ => .pure nofun
  | continued => exact (keepsOrder_cutTo base n).bind fun _ _ _ _ => .pure nofun
  | done =>
    refine .get fun hm => (keepsOrder_cutTo base n).bind fun k _ hk _ => .pure fun v hv => ?_
    have hv : (above base n.stack).head? = some v := Pass.value.inj hv
    exact (hm.operands v (List.mem_of_mem_take (List.mem_of_head? hv))).later hk

omit hcode in
theorem keeps_runUser (ref : FunctionRef) {f : UserFunction} (hf : ∀ e ∈ f.imports, m.Knows e.2) :
    Keeps (runUser run ref f) (fun _ _ => True) m :=
  .get fun _ => keeps_runScoped hrun (fun n _ => keepsOrder_functionCode ref n) hf

end

end Exec

end BlockLang
