import BlockLang.Proofs.Machine.Following

/-!
# Operations beside a machine that keeps no results

What an operation looks at is the same in both machines, and a form does with what its body came to as the
other one does. No operation is a call of a user function, so no operation finds a kept result; what the
bodies do is for the run that the forms are given.
-/

namespace BlockLang.Exec

variable {equal : Prop} {α β : Type}

/-! ## Operations that run no code -/

theorem follows_apply (f : Value → Except RuntimeError Value) :
    Follows equal (apply f) (apply f) :=
  follows_pop.bind fun v => (follows_answer (f v)).bind fun r => follows_push r

theorem follows_apply₂ (f : Value → Value → Except RuntimeError Value) :
    Follows equal (apply₂ f) (apply₂ f) :=
  follows_pop₂.bind fun (a, b) => (follows_answer (f a b)).bind fun r => follows_push r

theorem follows_compareEqual (fuel : Nat) (expected : Bool) :
    Follows equal (compareEqual fuel expected) (compareEqual fuel expected) :=
  follows_pop₂.bind fun (a, b) => (follows_areEqual fuel a b).bind fun _ => follows_push _

theorem follows_getPart : Follows equal getPart getPart := by
  refine follows_pop₂.bind fun (collection, key) => follows_heap fun h h' hh => ?_
  rw [Value.part_congr hh.dictionary]
  exact (follows_answer _).bind fun v => follows_push v

theorem follows_setPart : Follows equal setPart setPart := by
  refine follows_pop₃.bind fun (collection, key, value) => ?_
  cases collection with
  | dictionary ref =>
    refine (follows_answer (key.keyName "set")).bind fun name => ?_
    refine follows_modifyWorld (fun hw => ?_) (fun _ => rfl) fun _ => rfl
    exact { hw with heap := hw.heap.insertEntry ref name value }
  | _ => exact follows_fail _

theorem follows_countItems : Follows equal countItems countItems := by
  refine follows_pop.bind fun v => follows_heap fun h h' hh => ?_
  rw [Value.itemCount_congr hh.dictionary]
  exact (follows_answer _).bind fun n => follows_push n

theorem follows_mapM {f : α → Exec β} (hf : ∀ a, Follows equal (f a) (f a)) (l : List α) :
    Follows equal (l.mapM f) (l.mapM f) := by
  induction l with
  | nil => exact .pure _
  | cons a l ih =>
    rw [List.mapM_cons]
    exact (hf a).bind fun b => ih.bind fun bs => .pure (b :: bs)

theorem follows_replaceItems (fuel : Nat) :
    Follows equal (replaceItems fuel) (replaceItems fuel) := by
  refine follows_pop₃.bind fun (whole, old, new) => ?_
  cases whole with
  | block items dynamic =>
    refine (follows_mapM (fun v => ?_) items).bind fun l => follows_push _
    refine (follows_areEqual fuel v old).bind fun same => ?_
    exact .ite (fun _ => .pure new) fun _ => .pure v
  | string s =>
    cases old with
    | string pattern => cases new <;> first | exact follows_push _ | exact follows_fail _
    | _ => exact follows_fail _
  | _ => exact follows_fail _

theorem follows_joinItems (fuel : Nat) : Follows equal (joinItems fuel) (joinItems fuel) := by
  refine follows_pop.bind fun v => ?_
  cases v with
  | block items dynamic =>
    exact (follows_mapM (follows_shown fuel) items).bind fun texts => follows_push _
  | _ => exact follows_fail _

theorem follows_appendItems (fuel : Nat) : Follows equal (appendItems fuel) (appendItems fuel) := by
  refine follows_pop₂.bind fun (a, b) => ?_
  cases a with
  | string s => exact (follows_shown fuel b).bind fun text => follows_push _
  | block items dynamic => cases b <;> exact follows_push _
  | _ => exact follows_fail _

theorem follows_stringOf (fuel : Nat) (v : Value) :
    Follows equal (stringOf fuel v) (stringOf fuel v) :=
  (follows_shown fuel v).bind fun _ => .pure _

theorem follows_blockOf (v : Value) : Follows equal (blockOf v) (blockOf v) := by
  cases v with
  | string s => exact (follows_read s).bind fun _ => .pure _
  | _ => exact .pure _

theorem follows_convertTo (fuel : Nat) (type : String) (v : Value) :
    Follows equal (convertTo fuel type v) (convertTo fuel type v) := by
  unfold convertTo
  split
  · exact follows_stringOf fuel v
  · exact follows_answer _
  · exact follows_answer _
  · exact follows_answer _
  · exact follows_blockOf v
  · exact follows_fail _

theorem follows_convert (fuel : Nat) : Follows equal (convert fuel) (convert fuel) := by
  refine follows_pop₂.bind fun (type, v) => (follows_answer type.typeName).bind fun name => ?_
  exact (follows_convertTo fuel name v).bind fun r => follows_push r

theorem follows_toText (fuel : Nat) : Follows equal (toText fuel) (toText fuel) :=
  follows_pop.bind fun v => (follows_stringOf fuel v).bind fun s => follows_push s

theorem follows_captured (names : List String) :
    Follows equal (captured names) (captured names) :=
  .get fun m n h => by
    simp only [h.resembles.world.get?]
    exact .pure _

theorem follows_namesOfAttr (name : String) :
    Follows equal (namesOfAttr name) (namesOfAttr name) := by
  refine (follows_attr? name).bind fun v? => ?_
  cases v? with
  | some v => exact follows_answer _
  | none => exact .pure _

theorem follows_functionOf (params : List String) (main : Value) :
    Follows equal (functionOf params main) (functionOf params main) := by
  refine (follows_hasFlag "memoize").bind fun memoize => ?_
  refine (follows_hasFlag "exportable").bind fun exportable => ?_
  refine (follows_namesOfAttr "export").bind fun exports => ?_
  refine (follows_namesOfAttr "import").bind fun names => ?_
  exact (follows_captured names).bind fun imports => .pure _

theorem keepsMemo_addUser (f : UserFunction) : KeepsMemo (·.addUser f) where
  same h := h.addUser rfl
  memo _ := rfl

theorem keepsMemo_addDictionary (entries : NameTable Value) : KeepsMemo (·.addDictionary entries) where
  same h := h.addDictionary entries
  memo _ := rfl

theorem follows_makeFunction : Follows equal makeFunction makeFunction := by
  refine follows_pop₂.bind fun (params, main) => ?_
  refine (follows_answer (params.parameterNames "function")).bind fun params => ?_
  have hadd : Follows equal (do push (← inWorld (·.addUser (← functionOf params main))))
      (do push (← inWorld (·.addUser (← functionOf params main)))) :=
    (follows_functionOf params main).bind fun f =>
      (keepsMemo_addUser f).follows.bind fun v => follows_push v
  cases main with
  | block items dynamic => exact hadd
  | bytecode ref => exact hadd
  | _ => exact follows_fail _

theorem follows_printTop (fuel : Nat) : Follows equal (printTop fuel) (printTop fuel) :=
  follows_pop.bind fun v => (follows_shown fuel v).bind fun _ => follows_print _

theorem follows_raiseTop (fuel : Nat) : Follows equal (raiseTop fuel) (raiseTop fuel) :=
  follows_pop.bind fun v => (follows_shown fuel v).bind fun _ => .throw _

/-! ## Control forms -/

theorem follows_demand (fuel : Nat) (condition result : Value) :
    Follows equal (demand fuel condition result) (demand fuel condition result) := by
  refine (follows_answer _).bind fun holds => .ite (fun _ => .pure _) fun _ => ?_
  exact (follows_shown fuel condition).bind fun _ => .throw _

/-- A value is pushed on a condition, and the flow is handed on. -/
theorem follows_pushIf {c : Prop} [Decidable c] (v : Value) (flow : Flow) :
    Follows equal
      (do
        if c then push v
        return flow)
      (do
        if c then push v
        return flow) :=
  .ite (fun _ => (follows_push v).bind fun _ => .pure _) fun _ => .pure _

section

variable {run run' : CodeRef → Exec Flow} (hrun : ∀ code, Follows equal (run code) (run' code))

include hrun

theorem follows_branch (operation : String) (wanted : Bool) :
    Follows equal (branch run operation wanted) (branch run' operation wanted) := by
  refine follows_pop₂.bind fun (condition, body) => (follows_answer _).bind fun holds => ?_
  exact .ite (fun _ => follows_runInPlace hrun body) fun _ => .pure _

theorem follows_branchReport : Follows equal (branchReport run) (branchReport run') := by
  refine follows_pop₂.bind fun (condition, body) => (follows_answer _).bind fun holds => ?_
  refine .ite (fun _ => (follows_runInPlace hrun body).bind fun flow => ?_) fun _ => ?_
  · exact follows_pushIf _ flow
  · exact (Follows.pure Flow.done).bind fun flow => follows_pushIf _ flow

theorem follows_runOrPush (v : Value) : Follows equal (runOrPush run v) (runOrPush run' v) := by
  cases v with
  | block items dynamic => exact follows_runInPlace hrun _
  | _ => exact (follows_push _).bind fun _ => .pure _

theorem follows_choose : Follows equal (choose run) (choose run') := by
  refine follows_pop₃.bind fun (condition, yes, no) => (follows_answer _).bind fun holds => ?_
  exact follows_runOrPush hrun _

theorem follows_runValue : Follows equal (runValue run) (runValue run') := by
  refine follows_pop.bind fun v => ?_
  cases v with
  | string source => exact (follows_read source).bind fun items => follows_runInPlace hrun _
  | _ => exact follows_runInPlace hrun _

theorem follows_attempt (report : Bool) :
    Follows equal (attempt run report) (attempt run' report) := by
  have hdepth (f : Nat → Nat) : Follows equal
      (modify fun m => { m with tryDepth := f m.tryDepth } : Exec PUnit)
      (modify fun m => { m with tryDepth := f m.tryDepth }) :=
    .modify fun _ _ h => { h with
      resembles := { h.resembles with tryDepth := congrArg f h.resembles.tryDepth } }
  refine follows_pop.bind fun body => follows_height.bind fun base => ?_
  simp only [trying, bind_assoc, pure_bind]
  refine (hdepth (· + 1)).bind fun _ => .observe (follows_runInPlace hrun body) (fun r => ?_) fun _ => rfl
  refine (hdepth (· - 1)).bind fun _ => ?_
  rcases r with (cause | _) | flow
  · exact (follows_cutTo base).bind fun _ => follows_pushIf _ _
  · exact .throw _
  · exact follows_pushIf _ flow

theorem follows_ensure (fuel : Nat) : Follows equal (ensure run fuel) (ensure run' fuel) := by
  refine follows_pop.bind fun condition => ?_
  cases condition with
  | block items dynamic =>
    refine (follows_runInPlace hrun _).bind fun flow => .ite (fun _ => ?_) fun _ => .pure _
    exact follows_pop.bind fun result => follows_demand fuel _ result
  | _ => exact follows_demand fuel _ _

theorem follows_collectFrom (body : Value) :
    Follows equal (collectFrom run body) (collectFrom run' body) := by
  refine follows_height.bind fun base => (follows_runInPlace hrun body).bind fun flow => ?_
  refine .ite (fun _ => ?_) fun _ => .pure _
  exact (follows_takeAbove base).bind fun items => (follows_push _).bind fun _ => .pure _

theorem follows_makeArray : Follows equal (makeArray run) (makeArray run') := by
  refine follows_pop.bind fun v => ?_
  cases v with
  | block items dynamic => exact follows_collectFrom hrun _
  | inline items => exact follows_collectFrom hrun _
  | _ => exact (follows_push _).bind fun _ => .pure _

theorem follows_makeDictionary : Follows equal (makeDictionary run) (makeDictionary run') := by
  refine follows_pop.bind fun body => ?_
  cases body.items? with
  | none => exact follows_fail _
  | some items =>
    refine follows_height.bind fun base => ?_
    refine (follows_protecting (Value.labels items) ?_).bind fun (flow, entries) => ?_
    · refine (follows_runInPlace hrun body).bind fun flow => .get fun m n h => ?_
      rw [h.resembles.world.entriesOf]
      exact .pure _
    · refine (follows_cutTo base).bind fun _ => .ite (fun _ => ?_) fun _ => .pure _
      refine (keepsMemo_addDictionary entries).follows.bind fun v => ?_
      exact (follows_push v).bind fun _ => .pure _

theorem follows_testCondition (condition : Value) :
    Follows equal (testCondition run condition) (testCondition run' condition) := by
  refine .ite (fun _ => .pure _) fun _ => (follows_runInPlace hrun condition).bind fun flow => ?_
  refine .ite (fun _ => follows_pop.bind fun v => ?_) fun _ => .pure _
  exact (follows_answer _).bind fun _ => .pure _

theorem follows_repeatWhile (condition body : Value) (fuel : Nat) :
    Follows equal (repeatWhile run condition body fuel) (repeatWhile run' condition body fuel) := by
  induction fuel with
  | zero => exact .outOfFuel _
  | succ fuel ih =>
    refine (follows_testCondition hrun condition).bind fun r => ?_
    rcases r with flow | _ | _
    · exact .pure _
    · exact .pure _
    · refine (follows_runPass hrun body).bind fun pass => ?_
      cases pass with
      | stop flow => exact .pure _
      | value _ | skipped => exact ih

theorem follows_runWhile (fuel : Nat) : Follows equal (runWhile run fuel) (runWhile run' fuel) :=
  follows_pop₂.bind fun (condition, body) => follows_repeatWhile hrun condition body fuel

theorem follows_passes (kind : Traversal) (params : List String) (body : Value) (count : Nat)
    (items collected : List Value) :
    Follows equal (passes run kind params body count items collected)
      (passes run' kind params body count items collected) := by
  induction count generalizing items collected with
  | zero => exact .pure _
  | succ count ih =>
    cases items with
    | nil => exact .pure _
    | cons item items =>
      refine (follows_bindAll _).bind fun _ => (follows_runPass hrun body).bind fun pass => ?_
      cases pass with
      | stop flow => exact .pure _
      | skipped => exact ih _ _
      | value result? => exact (follows_answer _).bind fun more => ih _ _

theorem follows_traverse (kind : Traversal) :
    Follows equal (traverse run kind) (traverse run' kind) := by
  refine follows_pop₃.bind fun (collection, params, body) => ?_
  refine (follows_answer (params.parameterNames kind.name)).bind fun params => ?_
  refine follows_heap fun h h' hh => ?_
  rw [Value.elements_congr hh.dictionary]
  refine (follows_answer _).bind fun items => ?_
  refine (follows_protecting params (follows_passes hrun kind params body _ items [])).bind
    fun (flow, collected) => ?_
  exact follows_pushIf _ flow

/-! ## Performing -/

omit hrun in
theorem follows_plain {x : Exec Unit} (hx : Follows equal x x) :
    Follows equal (plain x) (plain x) :=
  hx.bind fun _ => .pure _

theorem follows_perform (fuel : Nat) (b : Builtin) :
    Follows equal (perform fuel run b) (perform fuel run' b) := by
  cases b
  case eq | ne => exact follows_plain (follows_compareEqual fuel _)
  case ifTrue => exact follows_branch hrun "if" true
  case ifFalse => exact follows_branch hrun "unless" false
  case ifElse => exact follows_branch hrun "else" false
  case ifReport => exact follows_branchReport hrun
  case switchOn => exact follows_choose hrun
  case whileTrue => exact follows_runWhile hrun fuel
  case returnFlow | breakFlow | continueFlow => exact .pure _
  case run => exact follows_runValue hrun
  case attempt => exact follows_attempt hrun false
  case attemptReport => exact follows_attempt hrun true
  case ensure => exact follows_ensure hrun fuel
  case raise => exact follows_plain (follows_raiseTop fuel)
  case get => exact follows_plain follows_getPart
  case set => exact follows_plain follows_setPart
  case convert => exact follows_plain (follows_convert fuel)
  case string => exact follows_plain (follows_toText fuel)
  case array => exact follows_makeArray hrun
  case dictionary => exact follows_makeDictionary hrun
  case function => exact follows_plain follows_makeFunction
  case loop => exact follows_traverse hrun .loop
  case map => exact follows_traverse hrun .map
  case select => exact follows_traverse hrun .select
  case size => exact follows_plain follows_countItems
  case replace => exact follows_plain (follows_replaceItems fuel)
  case join => exact follows_plain (follows_joinItems fuel)
  case append => exact follows_plain (follows_appendItems fuel)
  case print => exact follows_plain (follows_printTop fuel)
  case neg | inc | dec | bnot | logicalNot | integer | split | reverse =>
    exact follows_plain (follows_apply _)
  all_goals exact follows_plain (follows_apply₂ _)

theorem follows_callBuiltin (fuel : Nat) (b : Builtin) :
    Follows equal (callBuiltin fuel run b) (callBuiltin fuel run' b) :=
  (follows_perform hrun fuel b).afterwards fun _ _ h =>
    { h with resembles := { h.resembles with attrs := rfl } }

end

end BlockLang.Exec
