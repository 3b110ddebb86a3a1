import BlockLang.Proofs.Machine.Caching
import BlockLang.Proofs.Machine.FollowingRuns
import BlockLang.Proofs.Machine.OrderlyForms

/-!
# The arities of names during a session

**Theorem (`session_arities`).** Between the runs of a session, successful or not, a name has an arity just
when it is bound to a function, and then that function's; or the arity is what a label of the name says in a
block that was built while the name was bound as it is now.

The exception cannot be left out, since labels are read ahead of the bindings that they make
(`declared_ahead`): code may call a name in front of the place where it gets its value. Building is all that
reads them, and takes nothing back, so the arity stays when the value never comes.

The proof is by induction on fuel, as that of every rule for runs: an instruction that runs a block runs a
unit with less of it. A unit may be run where the functions in its constants are known.
-/

namespace BlockLang

namespace Exec

variable {α : Type} {m : Machine} {fuel : Nat} {u : CodeUnit} {i : Instruction}

/-! ## Operations -/

theorem keepsOrder_plain {x : Exec Unit} (h : KeepsOrder x) : KeepsOrder (plain x) :=
  h.bind fun _ _ => .pure trivial

section

variable {run : CodeRef → Exec Flow} (hrun : ∀ code, KeepsOrder (run code))

include hrun

theorem keepsOrder_perform (fuel : Nat) (b : Builtin) : KeepsOrder (perform fuel run b) := by
  cases b with
  | add | sub | mul | div | fdiv | mod | pow =>
    exact keepsOrder_plain (keepsOrder_apply₂ fun _ _ => Arith.refersIn_of_apply)
  | inc | dec => exact keepsOrder_plain (keepsOrder_apply fun _ => Arith.refersIn_of_apply)
  | neg => exact keepsOrder_plain (keepsOrder_apply fun _ => refersIn_of_negate)
  | band | bor | bxor | shl | shr =>
    exact keepsOrder_plain (keepsOrder_apply₂ fun _ _ => BitOperation.refersIn_of_apply)
  | bnot => exact keepsOrder_plain (keepsOrder_apply fun _ => Value.refersIn_of_complement)
  | logicalNot => exact keepsOrder_plain (keepsOrder_apply fun _ => Value.refersIn_of_opposite)
  | logicalAnd | logicalOr =>
    exact keepsOrder_plain (keepsOrder_apply₂ fun _ _ => Value.refersIn_of_combine)
  | eq | ne => exact keepsOrder_plain (keepsOrder_compareEqual fuel _)
  | gt | ge | lt | le =>
    exact keepsOrder_plain (keepsOrder_apply₂ fun _ _ => Comparison.refersIn_of_apply)
  | ifTrue | ifFalse | ifElse => exact keepsOrder_branch hrun _ _
  | ifReport => exact keepsOrder_branchReport hrun
  | switchOn => exact keepsOrder_choose hrun
  | whileTrue => exact keepsOrder_runWhile hrun fuel
  | returnFlow | breakFlow | continueFlow => exact fun _ => .pure trivial
  | run => exact keepsOrder_runValue hrun
  | attempt | attemptReport => exact keepsOrder_attempt hrun _
  | ensure => exact keepsOrder_ensure hrun fuel
  | raise => exact keepsOrder_plain (keepsOrder_raiseTop fuel)
  | get => exact keepsOrder_plain keepsOrder_getPart
  | set => exact keepsOrder_plain keepsOrder_setPart
  | convert => exact keepsOrder_plain (keepsOrder_convert fuel)
  | string => exact keepsOrder_plain (keepsOrder_toText fuel)
  | integer => exact keepsOrder_plain (keepsOrder_apply fun _ => Value.refersIn_of_toInteger)
  | array => exact keepsOrder_makeArray hrun
  | dictionary => exact keepsOrder_makeDictionary hrun
  | function => exact keepsOrder_plain keepsOrder_makeFunction
  | range => exact keepsOrder_plain (keepsOrder_apply₂ fun _ _ => Value.refersIn_of_range)
  | loop | map | select => exact keepsOrder_traverse hrun _
  | size => exact keepsOrder_plain keepsOrder_countItems
  | replace => exact keepsOrder_plain (keepsOrder_replaceItems fuel)
  | split => exact keepsOrder_plain (keepsOrder_apply fun _ => Value.refersIn_of_splitUp)
  | join => exact keepsOrder_plain (keepsOrder_joinItems fuel)
  | reverse => exact keepsOrder_plain (keepsOrder_apply fun ha h => Value.refersIn_of_reversed h ha)
  | append => exact keepsOrder_plain (keepsOrder_appendItems fuel)
  | print => exact keepsOrder_plain (keepsOrder_printTop fuel)

theorem keepsOrder_callBuiltin (fuel : Nat) (b : Builtin) : KeepsOrder (callBuiltin fuel run b) := by
  refine fun m => (keepsOrder_perform hrun fuel b m).observe.bind fun n r _ _ => ?_
  exact (keepsOrder_clearAttrs n).bind fun _ _ _ _ => .resume fun _ _ => trivial

/-! ## Calls -/

theorem keepsOrder_callFunction (fuel : Nat) (ref : FunctionRef) :
    KeepsOrder (callFunction fuel run ref) := by
  refine fun m => .heap fun hheap => ?_
  have himports := hheap.functions ref
  revert himports
  rcases m.world.heap.callable? ref with _ | b | ⟨f, c?⟩ <;> intro himports
  · exact keeps_fail _
  · refine (keepsOrder_height m).bind fun n available _ _ => ?_
    exact .ite (fun _ => keeps_fail_bind _) fun _ => keepsOrder_callBuiltin hrun fuel b n
  · refine (keepsOrder_height m).bind fun n available hn _ => ?_
    refine .ite (fun _ => keeps_fail_bind _) fun _ => ?_
    refine (keepsOrder_clearAttrs n).bind fun k _ hk _ => keeps_runUser hrun ref fun e he => ?_
    exact Machine.Knows.later ((himports f c? rfl).2 e he) (hn.trans hk)

theorem keepsOrder_callValue (fuel : Nat) (target : Value) : KeepsOrder (callValue fuel run target) := by
  intro m
  cases target with
  | function ref => exact keepsOrder_callFunction hrun fuel ref m
  | word name =>
    refine (keeps_valueOf name).bind fun n v _ _ => ?_
    cases v with
    | function ref => exact keepsOrder_callFunction hrun fuel ref n
    | _ => exact keeps_fail _
  | _ => exact keeps_fail _

/-! ## Instructions -/

omit hrun in
theorem keepsOrder_nameOf (pos : Nat) (v : Value) : KeepsOrder (nameOf pos v) := by
  intro m
  unfold nameOf
  cases v.name? with
  | some name => exact .pure trivial
  | none => exact keeps_fail _

omit hrun in
theorem keepsOrder_swapTop : KeepsOrder swapTop := fun _ =>
  keeps_pop₂.bind fun _ (_, _) _ ⟨ha, hb⟩ => (keeps_push hb).bind fun _ _ hn _ =>
    keeps_push (ha.later hn)

omit hrun in
theorem keepsOrder_isTaken (condition : Condition) : KeepsOrder (isTaken condition) := by
  intro m
  cases condition with
  | always => exact .pure trivial
  | ifTrue => exact keeps_pop.bind fun _ _ _ _ => (keeps_answer _).mono fun _ _ _ => trivial
  | ifFalse =>
    refine keeps_pop.bind fun _ _ _ _ => ?_
    exact (keeps_answer _).bind fun _ _ _ _ => .pure trivial

theorem keeps_runIndexed (fuel pos : Nat) (family : Family) {v : Value} (hv : m.Knows v) :
    Keeps (runIndexed fuel run pos family v) (fun _ _ => True) m := by
  have done {x : Exec Unit} {n : Machine} (h : Keeps x (fun _ _ => True) n) :
      Keeps (plain x) (fun _ _ => True) n := h.bind fun _ _ _ _ => .pure trivial
  cases family with
  | push => exact done (keeps_push hv)
  | store =>
    refine keeps_pop.bind fun n value _ hvalue => ?_
    refine (keepsOrder_nameOf pos v n).bind fun k name hk _ => ?_
    exact done (keeps_bind (hvalue.later hk) name)
  | storeKeep =>
    refine (keeps_peek 0).bind fun n value _ hvalue => ?_
    refine (keepsOrder_nameOf pos v n).bind fun k name hk _ => ?_
    exact done (keeps_bind (hvalue.later hk) name)
  | load =>
    refine (keepsOrder_nameOf pos v m).bind fun n name _ _ => ?_
    exact (keeps_valueOf name).bind fun k value _ hvalue => done (keeps_push hvalue)
  | call => exact keepsOrder_callValue hrun fuel v m
  | attr =>
    refine keeps_pop.bind fun n value _ hvalue => ?_
    refine (keepsOrder_nameOf pos v n).bind fun k name hk _ => ?_
    exact done (keeps_setAttr (hvalue.later hk) name)

theorem keepsOrder_runOpcode (fuel pos : Nat) (o : Opcode) : KeepsOrder (runOpcode fuel run pos o) := by
  unfold runOpcode
  split
  · next v hv => exact keepsOrder_plain fun m => keeps_push (Pairing.refersIn_immediate hv)
  · split
    · exact fun _ => .pure trivial
    · exact keepsOrder_plain fun _ => keeps_pop.bind fun _ _ _ _ => .pure trivial
    · exact fun _ => (keeps_peek 0).bind fun _ _ _ hv => (keeps_push hv).bind fun _ _ _ _ => .pure trivial
    · exact fun _ => (keeps_peek 1).bind fun _ _ _ hv => (keeps_push hv).bind fun _ _ _ _ => .pure trivial
    · exact keepsOrder_plain keepsOrder_swapTop
    · split
      · exact keepsOrder_callBuiltin hrun fuel _
      · exact fun _ => keeps_fail _

theorem keeps_runInstruction (fuel pos : Nat) (i : Instruction) (hu : ∀ v ∈ u.constants, m.Knows v) :
    Keeps (runInstruction fuel run u pos i) (fun _ _ => True) m := by
  cases i with
  | indexed family index =>
    unfold runInstruction
    dsimp only
    split
    · next v hv => exact keeps_runIndexed hrun fuel pos family (hu v (Array.mem_of_getElem? hv))
    · exact keeps_fail _
  | op o => exact keepsOrder_runOpcode hrun fuel pos o m
  | jump => exact .pure trivial

end

/-! ## Units -/

theorem keeps_advance {instruct : Instruction → Exec Flow} {next : Nat → Exec Flow} {pos : Nat}
    (hi : ∀ i, Keeps (instruct i) (fun _ _ => True) m)
    (hn : ∀ pos n, m.Later n → Keeps (next pos) (fun _ _ => True) n) :
    Keeps (advance u pos instruct next) (fun _ _ => True) m := by
  unfold advance
  dsimp only
  split
  · exact keeps_fail _
  · exact .pure trivial
  · exact (keepsOrder_isTaken _ m).bind fun n _ h _ => hn _ n h
  · refine (hi _).bind fun n flow h _ => ?_
    cases flow with
    | done => exact hn _ n h
    | returned | broken | continued => exact .pure trivial

theorem keepsOrder_running {go : CodeUnit → Exec Flow}
    (hgo : ∀ u n, (∀ v ∈ u.constants, n.Knows v) → Keeps (go u) (fun _ _ => True) n) (code : CodeRef) :
    KeepsOrder (do go (← unitOf code)) := fun _ =>
  (keeps_unitOf code).bind fun n u _ hu => hgo u n hu

/-- **A unit keeps order** where the functions in its constants are there. -/
theorem keeps_execute (fuel : Nat) (pos : Nat) (hu : ∀ v ∈ u.constants, m.Knows v) :
    Keeps (execute fuel u pos) (fun _ _ => True) m := by
  induction fuel generalizing m u pos with
  | zero => exact .throw _
  | succ fuel ih =>
    rw [execute_succ]
    refine keeps_advance (fun i => ?_) fun pos n h => ih pos fun v hv => (hu v hv).later h
    exact keeps_runInstruction (keepsOrder_running fun u n hu => ih 0 hu) fuel pos i hu

theorem keeps_runItems (fuel : Nat) {items : List Value} (hi : ∀ v ∈ items, m.Knows v)
    (dynamic : Bool) : Keeps (runItems fuel items dynamic) (fun _ _ => True) m := by
  refine (keepsOrder_height m).bind fun n base hn _ => ?_
  have hrun : Keeps (do runCode fuel (← compile items dynamic)) (fun _ _ => True) n :=
    (keeps_compile (fun v hv => (hi v hv).later hn) dynamic).bind fun k code _ _ =>
      keepsOrder_running (fun u n hu => keeps_execute fuel 0 hu) code k
  refine hrun.observe.bind fun k r _ _ => ?_
  cases r with
  | ok flow => exact .pure trivial
  | error halt =>
    refine (keepsOrder_cutTo base k).bind fun j _ _ _ => ?_
    exact (keepsOrder_clearAttrs j).bind fun _ _ _ _ => .throw _

theorem keepsOrder_runSource (fuel : Nat) (source : String) : KeepsOrder (runSource fuel source) :=
  fun _ => (keeps_read source).bind fun _ _ _ hi => keeps_runItems fuel hi false

end Exec

/-! ## Sessions -/

open Exec

namespace Machine

theorem Orderly.install {w : World} (hw : Orderly { world := w }) (b : Builtin) :
    Orderly { world := w.install b } := by
  obtain ⟨names, hn⟩ := World.learnAll_eq w [b.name]
  have hlearn : w.learn b.name = { w with names } := hn
  unfold World.install
  rw [hlearn]
  have hgrown : w.heap.Grown (w.heap.addBuiltin b).2 := w.heap.grown_addCallable (.builtin b)
  have hlater : Later { world := w } { world := { w with names, heap := (w.heap.addBuiltin b).2 } } :=
    ⟨hgrown, fun _ _ => id⟩
  refine Orderly.set (m := { world := { w with names, heap := (w.heap.addBuiltin b).2 } }) ?_ ?_ b.name
  · refine hw.congr hlater (hw.scope.later hlater) ?_ (fun e he => (hw.results e he).later hlater) rfl rfl
    exact hw.heap.addCallable nofun
  · exact w.heap.knows_addCallable (.builtin b)

theorem orderly_initial (config : Config) : (Machine.initial config).Orderly := by
  have h (l : List Builtin) (w : World) (hw : Orderly { world := w }) :
      Orderly { world := l.foldl World.install w } := by
    induction l generalizing w with
    | nil => exact hw
    | cons b l ih => exact ih _ (hw.install b)
  exact h _ _
    { scope := fun name => ⟨nofun, .inl rfl⟩
      heap := ⟨.empty, fun ref e he => by simp [Heap.dictionary] at he, nofun, nofun⟩
      results := nofun
      operands := by simp
      given := by simp }

end Machine

/-- Every run of a session leaves an orderly machine. -/
theorem Machine.orderly_of_mem_session {m : Machine} (hm : m.Orderly) (fuel : Nat) (texts : List String) :
    ∀ r ∈ session fuel (texts.map .source) m, r.2.Orderly := by
  induction texts generalizing m with
  | nil => exact List.forall_mem_nil _
  | cons text texts ih =>
    have hend := (keepsOrder_runSource fuel text m hm).orderly
    rw [List.map_cons, session, List.forall_mem_cons]
    exact ⟨hend, ih hend⟩

/-- **No dictionary of a session lists a key twice**, so equality is an equivalence between its runs. -/
theorem session_keysOnce (config : Config) (texts : List String) (fuel : Nat) :
    ∀ r ∈ session fuel (texts.map .source) (Machine.initial config), r.2.world.heap.KeysOnce :=
  fun r hr => (Machine.orderly_of_mem_session (Machine.orderly_initial config) fuel texts r hr).heap.keys

/-- The name is bound to a function with `k` parameters. -/
def World.BindsFunction (w : World) (name : String) (k : Nat) : Prop :=
  ∃ ref callable, w.get? name = some (.function ref) ∧ w.heap.callable? ref = some callable ∧
    callable.arity = k

/-- A label of the name says so in a block that was built when the name was bound as it is now. -/
def Machine.Declared (m : Machine) (name : String) (arity? : Option Nat) : Prop :=
  ∃ scope items, m.built scope items ∧ scope.bindings.get? name = m.world.get? name ∧
    World.Says items name arity?

namespace Machine

theorem Orderly.bindsFunction_iff {m : Machine} (hm : m.Orderly) (name : String) (k : Nat) :
    m.world.BindsFunction name k ↔ m.world.heap.arityOf? (m.world.get? name) = some k := by
  have hknown : ∀ v, m.world.get? name = some v → m.Knows v := (hm.scope name).known
  unfold World.BindsFunction
  constructor
  · rintro ⟨ref, callable, hv, hc, rfl⟩
    simp [hv, Heap.arityOf?, Heap.arity, hc]
  · revert hknown
    rcases m.world.get? name with _ | v
    · intro _ hk
      cases hk
    cases v with
    | function ref =>
      intro hknown hk
      have hlt : ref.index < m.world.heap.callables.size := hknown _ rfl
      have hc : m.world.heap.callable? ref = some m.world.heap.callables[ref.index] :=
        Array.getElem?_eq_getElem hlt
      refine ⟨ref, _, rfl, hc, ?_⟩
      simpa [Heap.arityOf?, Heap.arity, hc] using hk
    | _ =>
      intro _ hk
      cases hk

end Machine

/-- **The arities of names follow their bindings, apart from what labels have declared.** -/
theorem session_arities (config : Config) (texts : List String) (fuel : Nat) :
    ∀ r ∈ session fuel (texts.map .source) (Machine.initial config), ∀ name,
      (∀ k, r.2.world.arity? name = some k ↔ r.2.world.BindsFunction name k) ∨
        r.2.Declared name (r.2.world.arity? name) := by
  intro r hr name
  have hr := Machine.orderly_of_mem_session (Machine.orderly_initial config) fuel texts r hr
  refine (hr.scope name).arity?.imp_left fun harity k => ?_
  rw [hr.bindsFunction_iff]
  exact iff_of_eq (congrArg (· = some k) harity)

/-- A session that binds a function, and calls it in a run that fails. -/
theorem session_arities_twice :
    let texts := ["twice: function [a] [add a a]", "twice 2 size 5"]
    ∃ r ∈ session 100 (texts.map .source) (Machine.initial {}),
      (r.1.isOk = false ∧ r.2.world.arity? "twice" = some 1) ∧
        ((∀ k, r.2.world.arity? "twice" = some k ↔ r.2.world.BindsFunction "twice" k) ∨
          r.2.Declared "twice" (r.2.world.arity? "twice")) := by
  intro texts
  refine ⟨_, List.mem_cons_of_mem _ List.mem_cons_self, ?_,
    session_arities {} texts 100 _ (List.mem_cons_of_mem _ List.mem_cons_self) "twice"⟩
  decide +kernel

/-- An arrow turns its operands into a body, for which labels are read as anywhere else; the body of this one
is not run, so the name has an arity and no value. -/
theorem declared_ahead :
    let texts := ["-> f: function [a] [a]"]
    ∃ r ∈ session 100 (texts.map .source) (Machine.initial {}), r.1.isOk = true ∧
      ¬ ∀ k, r.2.world.arity? "f" = some k ↔ r.2.world.BindsFunction "f" k := by
  intro texts
  refine ⟨_, List.mem_cons_self, by decide +kernel, fun h => ?_⟩
  obtain ⟨ref, _, hv, -, -⟩ := (h 1).1 (by decide +kernel)
  exact Bool.false_ne_true ((congrArg Option.isNone hv).symm.trans (by decide +kernel))

end BlockLang
