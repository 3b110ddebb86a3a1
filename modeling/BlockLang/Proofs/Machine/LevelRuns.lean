import BlockLang.Proofs.Machine.Levels

/-!
# Runs that give their depth back

**Theorem (`steady_execute`).** A unit gives the counts of a machine back as it found them, however it ends.

The proof is by induction on fuel. The two pieces that touch a count come first: whatever the code inside
comes to, its outcome is looked at, the count is lowered again, and then the outcome is handed on.
-/

namespace BlockLang.Exec

variable {α : Type} {run : CodeRef → Exec Flow} {code : Exec CodeRef} {fuel : Nat}

/-! ## Finding code -/

theorem steady_bodyCode (body : Value) : Steady (bodyCode body) :=
  .bodyCode apart_level steady_compile body

theorem steady_functionCode (ref : FunctionRef) : Steady (functionCode ref) := by
  refine .heap fun heap => ?_
  split
  · exact .pure _
  · split
    · refine (steady_compile _ _).bind fun code => ?_
      exact (steady_modifyWorld fun _ => rfl).bind fun _ => .pure code
    · exact steady_fail _
  · exact steady_fail _

theorem steady_unitOf (code : CodeRef) : Steady (unitOf code) := fun _ => rfl

/-! ## Blocks -/

theorem steady_bindParameters (params : List String) : Steady (bindParameters params) :=
  .forM (fun name => steady_pop.bind fun v => steady_bind name v) _

theorem steady_findKept (key? : Option MemoKey) : Steady (findKept key?) := by
  cases key? with
  | some key => exact steady_inWorld fun _ => rfl
  | none => exact .pure none

theorem steady_remember (key : MemoKey) (base : Nat) : Steady (remember key base) := by
  refine .get fun m => .ite ?_ (.pure _)
  split
  · exact steady_modifyWorld fun _ => rfl
  · exact .pure _

theorem steady_keepTop (base : Nat) : Steady (keepTop base) :=
  .height fun _ => .ite (steady_pop.bind fun top => (steady_cutTo base).bind fun _ => steady_push top)
    (.pure _)

section

variable (hrun : ∀ code, Steady (run code))

include hrun

/-- **The depth is lowered again, whatever the code inside came to.** -/
theorem steady_descend (hcode : Steady code) : Steady (descend run code) := by
  intro m
  have hinside := hcode.bind hrun { m with depth := m.depth + 1 }
  rw [descend, run_bind_of_ok (run_modify ..), run_afterwards]
  obtain ⟨hdepth, htries⟩ := Prod.mk.inj hinside
  exact Prod.ext (congrArg (· - 1) hdepth) htries

theorem steady_inScope (o : BlockOptions) (hcode : Steady code) (key? : Option MemoKey) :
    Steady (inScope run o code key?) := by
  refine .get fun m => (steady_bindAll o.imports).bind fun _ => ?_
  refine (steady_bindParameters o.params).bind fun _ => .height fun base => ?_
  refine (Leaves.observe (steady_descend hrun hcode)).bind fun outcome => ?_
  cases outcome with
  | error halt => exact .whenNot (steady_modifyScope _) fun _ => .throw halt
  | ok flow =>
    refine .when (steady_keepTop base) fun _ => .whenNot (steady_modifyScope _) fun _ => ?_
    cases key? with
    | some key => exact (steady_remember key base).bind fun _ => .pure _
    | none => exact .pure _

theorem steady_runScoped (o : BlockOptions) (hcode : Steady code) : Steady (runScoped run o code) := by
  refine .get fun m => .when (steady_fail _) fun _ => ?_
  refine (steady_findKept _).bind fun kept? => ?_
  cases kept? with
  | some v => exact .bind (fun _ => rfl) fun _ => .pure _
  | none => exact .when (steady_fail _) fun _ => steady_inScope hrun o hcode _

theorem steady_runBlock (o : BlockOptions) (body : Value) : Steady (runBlock run o body) :=
  steady_runScoped hrun o (steady_bodyCode body)

theorem steady_runInPlace (body : Value) : Steady (runInPlace run body) :=
  steady_runBlock hrun _ body

theorem steady_runPass (body : Value) : Steady (runPass run body) := by
  refine .height fun base => (steady_runInPlace hrun body).bind fun flow => ?_
  cases flow with
  | returned => exact .pure _
  | broken | continued => exact (steady_cutTo base).bind fun _ => .pure _
  | done => exact .get fun m => (steady_cutTo base).bind fun _ => .pure _

theorem steady_runUser (ref : FunctionRef) (f : UserFunction) : Steady (runUser run ref f) :=
  .get fun _ => steady_runScoped hrun _ (steady_functionCode ref)

/-! ## Control forms -/

theorem steady_branch (operation : String) (wanted : Bool) : Steady (branch run operation wanted) := by
  refine steady_pop₂.bind fun (condition, body) => ?_
  refine (steady_answer (condition.expectLogical operation)).bind fun holds => ?_
  exact .ite (steady_runInPlace hrun body) (.pure _)

theorem steady_branchReport : Steady (branchReport run) := by
  refine steady_pop₂.bind fun (condition, body) => ?_
  refine (steady_answer (condition.expectLogical "if?")).bind fun holds => ?_
  have hreport (flow : Flow) : Steady (do
      if flow = .done then push (.logical holds)
      return flow) := .when (steady_push _) fun _ => .pure flow
  exact .ite ((steady_runInPlace hrun body).bind hreport) (.bind (.pure _) hreport)

theorem steady_runOrPush (v : Value) : Steady (runOrPush run v) := by
  unfold runOrPush
  split
  · exact steady_runInPlace hrun _
  · exact (steady_push _).bind fun _ => .pure _

theorem steady_choose : Steady (choose run) :=
  steady_pop₃.bind fun (condition, _, _) =>
    (steady_answer (condition.expectLogical "switch")).bind fun _ => steady_runOrPush hrun _

theorem steady_runValue : Steady (runValue run) := by
  refine steady_pop.bind fun body => ?_
  split
  · exact (steady_read _).bind fun items => steady_runInPlace hrun _
  · exact steady_runInPlace hrun _

/-- **The count of tries is lowered again, whatever the body came to.** -/
theorem steady_trying (body : Value) : Steady (trying run body) := by
  intro m
  have hinside := steady_runInPlace hrun body { m with tryDepth := m.tryDepth + 1 }
  rw [trying, run_bind_of_ok (run_modify ..), run_bind_of_ok (run_observe ..)]
  obtain ⟨hdepth, htries⟩ := Prod.mk.inj hinside
  obtain ⟨htries, hconfig⟩ := Prod.mk.inj htries
  exact Prod.ext hdepth (Prod.ext (congrArg (· - 1) htries) hconfig)

theorem steady_attempt (report : Bool) : Steady (attempt run report) := by
  refine steady_pop.bind fun body => .height fun base => ?_
  refine (steady_trying hrun body).bind fun outcome => ?_
  rcases outcome with (e | _) | flow
  · exact (steady_cutTo base).bind fun _ => .when (steady_push _) fun _ => .pure _
  · exact .throw _
  · exact .when (steady_push _) fun _ => .pure flow

omit hrun in
theorem steady_demand (fuel : Nat) (condition result : Value) :
    Steady (demand fuel condition result) := by
  refine (steady_answer (result.expectLogical "ensure")).bind fun holds => ?_
  exact .ite (.pure _) ((steady_shown fuel condition).bind fun _ => .throw _)

theorem steady_ensure (fuel : Nat) : Steady (ensure run fuel) := by
  refine steady_pop.bind fun condition => ?_
  split
  · refine (steady_runInPlace hrun _).bind fun flow => .ite ?_ (.pure _)
    exact steady_pop.bind fun result => steady_demand fuel _ result
  · exact steady_demand fuel _ _

theorem steady_collectFrom (body : Value) : Steady (collectFrom run body) := by
  refine .height fun base => (steady_runInPlace hrun body).bind fun flow => ?_
  exact .ite ((steady_takeAbove base).bind fun items => (steady_push _).bind fun _ => .pure flow)
    (.pure flow)

theorem steady_makeArray : Steady (makeArray run) := by
  refine steady_pop.bind fun v => ?_
  split
  · exact steady_collectFrom hrun _
  · exact steady_collectFrom hrun _
  · exact (steady_push _).bind fun _ => .pure _

theorem steady_makeDictionary : Steady (makeDictionary run) := by
  refine steady_pop.bind fun body => ?_
  cases body.items? with
  | none => exact steady_fail _
  | some items =>
    refine .height fun base => ?_
    have hbody : Steady (do
        let flow ← runInPlace run body
        return (flow, entriesOf (← get).world (Value.labels items))) :=
      (steady_runInPlace hrun body).bind fun flow => .get fun m => .pure _
    refine (steady_protecting _ hbody).bind fun (flow, entries) => (steady_cutTo base).bind fun _ => ?_
    have hadd : Steady (inWorld (·.addDictionary entries)) := steady_inWorld fun _ => rfl
    exact .ite (hadd.bind fun v => (steady_push v).bind fun _ => .pure flow) (.pure flow)

theorem steady_testCondition (condition : Value) : Steady (testCondition run condition) := by
  refine .ite (.pure _) ((steady_runInPlace hrun condition).bind fun flow => .ite ?_ (.pure _))
  exact steady_pop.bind fun v => (steady_answer (v.expectLogical "while")).bind fun holds => .pure _

theorem steady_repeatWhile (condition body : Value) (fuel : Nat) :
    Steady (repeatWhile run condition body fuel) := by
  induction fuel with
  | zero => exact .throw _
  | succ fuel ih =>
    refine (steady_testCondition hrun condition).bind fun test => ?_
    split
    · exact .pure _
    · exact .pure _
    · refine (steady_runPass hrun body).bind fun pass => ?_
      split
      · exact .pure _
      · exact ih
      · exact ih

theorem steady_runWhile (fuel : Nat) : Steady (runWhile run fuel) :=
  steady_pop₂.bind fun (condition, body) => steady_repeatWhile hrun condition body fuel

theorem steady_passes (kind : Traversal) (params : List String) (body : Value) (count : Nat)
    (items collected : List Value) : Steady (passes run kind params body count items collected) := by
  induction count generalizing items collected with
  | zero => exact .pure _
  | succ count ih =>
    cases items with
    | nil => exact .pure _
    | cons v items =>
      refine (steady_bindAll _).bind fun _ => (steady_runPass hrun body).bind fun pass => ?_
      cases pass with
      | stop flow => exact .pure _
      | skipped => exact ih _ _
      | value result? => exact (steady_answer (kind.collect _ result?)).bind fun more => ih _ _

theorem steady_traverse (kind : Traversal) : Steady (traverse run kind) := by
  refine steady_pop₃.bind fun (collection, params, body) => ?_
  refine (steady_answer (params.parameterNames kind.name)).bind fun params => .heap fun heap => ?_
  refine (steady_answer (Value.elements heap kind.name collection)).bind fun items => ?_
  have hpasses := steady_passes hrun kind params body items.length items []
  refine (steady_protecting params hpasses).bind fun (flow, collected) => ?_
  exact .when (steady_push _) fun _ => .pure flow

/-! ## Operations and calls -/

omit hrun in
theorem steady_plain {x : Exec Unit} (hx : Steady x) : Steady (plain x) := hx.bind fun _ => .pure _

theorem steady_perform (fuel : Nat) (b : Builtin) : Steady (perform fuel run b) := by
  cases b with
  | add | sub | mul | div | fdiv | mod | pow | band | bor | bxor | shl | shr | logicalAnd | logicalOr | gt
  | ge | lt | le | range => exact steady_plain (steady_apply₂ _)
  | neg | inc | dec | bnot | logicalNot | integer | split | reverse => exact steady_plain (steady_apply _)
  | eq | ne => exact steady_plain (steady_compareEqual fuel _)
  | ifTrue | ifFalse | ifElse => exact steady_branch hrun _ _
  | ifReport => exact steady_branchReport hrun
  | switchOn => exact steady_choose hrun
  | whileTrue => exact steady_runWhile hrun fuel
  | returnFlow | breakFlow | continueFlow => exact .pure _
  | run => exact steady_runValue hrun
  | attempt | attemptReport => exact steady_attempt hrun _
  | ensure => exact steady_ensure hrun fuel
  | raise => exact steady_plain (steady_raiseTop fuel)
  | get => exact steady_plain steady_getPart
  | set => exact steady_plain steady_setPart
  | convert => exact steady_plain (steady_convert fuel)
  | string => exact steady_plain (steady_toText fuel)
  | array => exact steady_makeArray hrun
  | dictionary => exact steady_makeDictionary hrun
  | function => exact steady_plain steady_makeFunction
  | loop | map | select => exact steady_traverse hrun _
  | size => exact steady_plain steady_countItems
  | replace => exact steady_plain (steady_replaceItems fuel)
  | join => exact steady_plain (steady_joinItems fuel)
  | append => exact steady_plain (steady_appendItems fuel)
  | print => exact steady_plain (steady_printTop fuel)

theorem steady_callBuiltin (fuel : Nat) (b : Builtin) : Steady (callBuiltin fuel run b) :=
  .afterwards (steady_perform hrun fuel b) fun _ => rfl

theorem steady_callFunction (fuel : Nat) (ref : FunctionRef) : Steady (callFunction fuel run ref) := by
  refine .heap fun heap => ?_
  cases heap.callable? ref with
  | none => exact steady_fail _
  | some callable =>
    refine .height fun available => .when (steady_fail _) fun _ => ?_
    cases callable with
    | builtin b => exact steady_callBuiltin hrun fuel b
    | user f c? => exact steady_clearAttrs.bind fun _ => steady_runUser hrun ref f

theorem steady_callValue (fuel : Nat) (target : Value) : Steady (callValue fuel run target) := by
  cases target with
  | function ref => exact steady_callFunction hrun fuel ref
  | word name =>
    refine (steady_valueOf name).bind fun v => ?_
    cases v with
    | function ref => exact steady_callFunction hrun fuel ref
    | _ => exact steady_fail _
  | _ => exact steady_fail _

/-! ## Instructions -/

omit hrun in
theorem steady_nameOf (pos : Nat) (v : Value) : Steady (nameOf pos v) := by
  unfold nameOf
  cases v.name? with
  | some name => exact .pure name
  | none => exact steady_fail _

theorem steady_runIndexed (fuel pos : Nat) (family : Family) (v : Value) :
    Steady (runIndexed fuel run pos family v) := by
  cases family with
  | push => exact steady_plain (steady_push v)
  | store =>
    refine steady_pop.bind fun value => (steady_nameOf pos v).bind fun name => ?_
    exact steady_plain (steady_bind name value)
  | storeKeep =>
    refine (steady_peek 0).bind fun value => (steady_nameOf pos v).bind fun name => ?_
    exact steady_plain (steady_bind name value)
  | load =>
    refine (steady_nameOf pos v).bind fun name => (steady_valueOf name).bind fun value => ?_
    exact steady_plain (steady_push value)
  | call => exact steady_callValue hrun fuel v
  | attr =>
    refine steady_pop.bind fun value => (steady_nameOf pos v).bind fun name => ?_
    exact steady_plain fun _ => rfl

omit hrun in
theorem steady_swapTop : Steady swapTop :=
  steady_pop₂.bind fun (a, b) => (steady_push b).bind fun _ => steady_push a

theorem steady_runOpcode (fuel pos : Nat) (o : Opcode) : Steady (runOpcode fuel run pos o) := by
  unfold runOpcode
  split
  · exact steady_plain (steady_push _)
  · split
    · exact .pure _
    · exact steady_plain (steady_pop.bind fun _ => .pure _)
    · exact (steady_peek 0).bind fun v => steady_plain (steady_push v)
    · exact (steady_peek 1).bind fun v => steady_plain (steady_push v)
    · exact steady_plain steady_swapTop
    · split
      · exact steady_callBuiltin hrun fuel _
      · exact steady_fail _

omit hrun in
theorem steady_isTaken (condition : Condition) : Steady (isTaken condition) := by
  cases condition with
  | always => exact .pure true
  | ifTrue => exact steady_pop.bind fun v => steady_answer _
  | ifFalse => exact steady_pop.bind fun v => (steady_answer _).bind fun holds => .pure _

theorem steady_runInstruction (fuel : Nat) (u : CodeUnit) (pos : Nat) (i : Instruction) :
    Steady (runInstruction fuel run u pos i) := by
  unfold runInstruction
  split
  · split
    · exact steady_runIndexed hrun fuel pos _ _
    · exact steady_fail _
  · exact steady_runOpcode hrun fuel pos _
  · exact .pure _

end

/-! ## Units -/

theorem steady_advance {u : CodeUnit} {pos : Nat} {instruct : Instruction → Exec Flow}
    {next : Nat → Exec Flow} (hi : ∀ i, Steady (instruct i)) (hn : ∀ pos, Steady (next pos)) :
    Steady (advance u pos instruct next) := by
  unfold advance
  dsimp only
  split
  · exact steady_fail _
  · exact .pure _
  · exact (steady_isTaken _).bind fun _ => hn _
  · refine (hi _).bind fun flow => ?_
    split
    · exact hn _
    · exact .pure _

theorem steady_running {go : CodeUnit → Exec Flow} (hgo : ∀ u, Steady (go u)) (code : CodeRef) :
    Steady (do go (← unitOf code)) := (steady_unitOf code).bind hgo

/-- **A unit gives the counts back as it found them**, however it ends. -/
theorem steady_execute (fuel : Nat) (u : CodeUnit) (pos : Nat) : Steady (execute fuel u pos) := by
  induction fuel generalizing u pos with
  | zero => exact .throw _
  | succ fuel ih =>
    rw [execute_succ]
    exact steady_advance (steady_runInstruction (steady_running (ih · 0)) fuel u pos) (ih u)

theorem steady_runCode (fuel : Nat) (code : CodeRef) : Steady (runCode fuel code) :=
  steady_running (steady_execute fuel · 0) code

end BlockLang.Exec
