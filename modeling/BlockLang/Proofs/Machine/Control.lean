import BlockLang.Machine.Control
import BlockLang.Proofs.Machine.Blocks

/-!
# Control forms in paired machines

Bodies and conditions are operands, so they refer to code that the pairing admits, and whatever a body
does is done in the same way. The marks that a form makes on the stack differ by what lies below.
-/

namespace BlockLang.Pairing

open Exec

variable {S : Pairing} {go go' : CodeUnit → Exec Flow} (hS : S.Lawful)
  (hgo : ∀ u, S.runs u 0 → Sim S.coupling Eq (go u) (go' u))

include hS hgo

/-! ## Branches -/

theorem sim_branch (operation : String) (wanted : Bool) :
    Sim S.coupling Eq (branch (running go) operation wanted)
      (branch (running go') operation wanted) := by
  refine (sim_pop₂ hS).bindSame fun (condition, body) ⟨_, hb⟩ => ?_
  refine (sim_ask (Value.sparesCode_expectLogical _ _)).bindEq fun holds => ?_
  exact Sim.ite Iff.rfl (fun _ => sim_runInPlace hS hgo hb) fun _ => Sim.pure rfl

theorem sim_branchReport :
    Sim S.coupling Eq (branchReport (running go)) (branchReport (running go')) := by
  refine (sim_pop₂ hS).bindSame fun (condition, body) ⟨_, hb⟩ => ?_
  refine (sim_ask (Value.sparesCode_expectLogical _ _)).bindEq fun holds => ?_
  cases holds
  · refine (Sim.pure rfl).bindEq fun flow => ?_
    exact sim_when (fun _ => sim_push trivial) (Sim.pure rfl)
  · refine (sim_runInPlace hS hgo hb).bindEq fun flow => ?_
    exact sim_when (fun _ => sim_push trivial) (Sim.pure rfl)

theorem sim_runOrPush {v : Value} (hv : v.CodesIn S.known) :
    Sim S.coupling Eq (runOrPush (running go) v) (runOrPush (running go') v) := by
  cases v with
  | block items dynamic => exact sim_runInPlace hS hgo hv
  | _ => exact (sim_push hv).bind fun _ _ _ => Sim.pure rfl

theorem sim_choose : Sim S.coupling Eq (choose (running go)) (choose (running go')) := by
  refine (sim_pop₃ hS).bindSame fun (condition, yes, no) ⟨_, hy, hn⟩ => ?_
  refine (sim_ask (Value.sparesCode_expectLogical _ _)).bindEq fun holds => ?_
  cases holds
  · exact sim_runOrPush hS hgo hn
  · exact sim_runOrPush hS hgo hy

/-! ## Running code as it is -/

theorem sim_runValue : Sim S.coupling Eq (runValue (running go)) (runValue (running go')) := by
  refine (sim_pop hS).bindSame fun v hv => ?_
  cases v with
  | string source =>
    refine (sim_read hS source).bindSame fun items hi => ?_
    exact sim_runInPlace hS hgo (Value.refersIn_block.2 hi)
  | _ => exact sim_runInPlace hS hgo hv

theorem sim_trying {body : Value} (hb : body.CodesIn S.known) :
    Sim S.coupling (S.SameOutcome Eq) (trying (running go) body) (trying (running go') body) := by
  have hdepth (f : Nat → Nat) : Sim S.coupling Eq
      (modify fun m => { m with tryDepth := f m.tryDepth } : Exec PUnit)
      (modify fun m => { m with tryDepth := f m.tryDepth }) :=
    sim_modify (fun _ _ h => { h with tryDepth := congrArg f h.tryDepth }) fun _ => ⟨rfl, rfl⟩
  refine (hdepth (· + 1)).bind fun _ _ _ => ?_
  refine (sim_observe (sim_runInPlace hS hgo hb)).bind fun r q hr => ?_
  exact (hdepth (· - 1)).bind fun _ _ _ => Sim.pure hr

theorem sim_attempt (report : Bool) :
    Sim S.coupling Eq (attempt (running go) report) (attempt (running go') report) := by
  refine (sim_pop hS).bindSame fun body hb => ?_
  refine sim_height.bind fun base base' hbase => (sim_trying hS hgo hb).bind fun r q ⟨hr, _⟩ => ?_
  rcases r with (cause | _) | flow <;> rcases q with (cause' | _) | flow' <;> cases hr
  · exact (sim_cutTo hbase).bind fun _ _ _ =>
      sim_when (fun _ => sim_push trivial) (Sim.pure rfl)
  · exact Sim.throw trivial
  · exact sim_when (fun _ => sim_push trivial) (Sim.pure rfl)

omit hgo hS in
theorem sim_demand (fuel : Nat) (condition result : Value) :
    Sim S.coupling Eq (demand fuel condition result) (demand fuel condition result) := by
  refine (sim_ask (Value.sparesCode_expectLogical _ _)).bindEq fun holds => ?_
  refine Sim.ite Iff.rfl (fun _ => Sim.pure rfl) fun _ => ?_
  refine (sim_shown fuel condition).bindEq fun text => ?_
  exact Sim.throw trivial

theorem sim_ensure (fuel : Nat) :
    Sim S.coupling Eq (ensure (running go) fuel) (ensure (running go') fuel) := by
  refine (sim_pop hS).bindSame fun condition hc => ?_
  cases condition with
  | block items dynamic =>
    refine (sim_runInPlace hS hgo hc).bindEq fun flow => ?_
    refine Sim.ite Iff.rfl (fun _ => ?_) fun _ => Sim.pure rfl
    exact (sim_pop hS).bindSame fun result _ => sim_demand fuel _ result
  | _ => exact sim_demand fuel _ _

/-! ## Collecting -/

theorem sim_collectFrom {body : Value} (hb : body.CodesIn S.known) :
    Sim S.coupling Eq (collectFrom (running go) body) (collectFrom (running go') body) := by
  refine sim_height.bind fun base base' hbase => ?_
  refine (sim_runInPlace hS hgo hb).bindEq fun flow => ?_
  refine Sim.ite Iff.rfl (fun _ => ?_) fun _ => Sim.pure rfl
  refine (sim_takeAbove hbase).bindSame fun items hi => ?_
  exact (sim_push (Value.refersIn_block.2 hi)).bind fun _ _ _ => Sim.pure rfl

theorem sim_makeArray : Sim S.coupling Eq (makeArray (running go)) (makeArray (running go')) := by
  refine (sim_pop hS).bindSame fun v hv => ?_
  cases v with
  | block items dynamic => exact sim_collectFrom hS hgo hv
  | inline items => exact sim_collectFrom hS hgo hv
  | _ =>
    refine (sim_push (Value.refersIn_block.2 ?_)).bind fun _ _ _ => Sim.pure rfl
    exact List.forall_mem_singleton.2 hv

omit hS hgo in
theorem codesIn_entriesOf {w w' : World} (h : S.Worlds w w') (names : List String) :
    ∀ e ∈ entriesOf w names, e.2.CodesIn S.known := by
  have hput (entries : NameTable Value) (he : ∀ e ∈ entries, e.2.CodesIn S.known) :
      ∀ e ∈ names.foldl (fun entries name => entries.put name (w.get? name)) entries,
        e.2.CodesIn S.known := by
    induction names generalizing entries with
    | nil => exact he
    | cons name names ih => exact ih _ (NameTable.forall_put he fun _ => h.scope.value)
  exact hput [] (by simp)

theorem sim_makeDictionary :
    Sim S.coupling Eq (makeDictionary (running go)) (makeDictionary (running go')) := by
  refine (sim_pop hS).bindSame fun body hb => ?_
  cases hi : body.items? with
  | none => exact sim_fail (.usual rfl)
  | some items =>
    refine sim_height.bind fun base base' hbase => ?_
    have hentries : Sim S.coupling (fun r q => r = q ∧ ∀ e ∈ r.2, e.2.CodesIn S.known)
        (do
          let flow ← runInPlace (running go) body
          return (flow, entriesOf (← get).world (Value.labels items)))
        (do
          let flow ← runInPlace (running go') body
          return (flow, entriesOf (← get).world (Value.labels items))) := by
      refine (sim_runInPlace hS hgo hb).bind fun flow _ hf => Sim.get.bind fun m n h => ?_
      refine Sim.pure ⟨?_, codesIn_entriesOf h.world _⟩
      simp only [hf, entriesOf, h.world.alike.get?]
    refine (sim_protecting hS _ hentries).bindSame fun (flow, entries) he => ?_
    refine (sim_cutTo hbase).bind fun _ _ _ => Sim.ite Iff.rfl (fun _ => ?_) fun _ => Sim.pure rfl
    refine (sim_inWorld fun w w' hw => ?_).bindSame fun _ hv =>
      (sim_push hv).bindEq fun _ => Sim.pure rfl
    exact (hw.addDictionary hS he).imp_right fun hv => ⟨hv, trivial⟩

/-! ## Loops -/

theorem sim_testCondition {condition : Value} (hc : condition.CodesIn S.known) :
    Sim S.coupling Eq (testCondition (running go) condition)
      (testCondition (running go') condition) := by
  refine Sim.ite Iff.rfl (fun _ => Sim.pure rfl) fun _ => ?_
  refine (sim_runInPlace hS hgo hc).bindEq fun flow => ?_
  refine Sim.ite Iff.rfl (fun _ => ?_) fun _ => Sim.pure rfl
  refine (sim_pop hS).bindSame fun v _ => ?_
  exact (sim_ask (v.sparesCode_expectLogical _)).bindEq fun _ => Sim.pure rfl

theorem sim_repeatWhile {condition body : Value} (hc : condition.CodesIn S.known)
    (hb : body.CodesIn S.known) (fuel : Nat) :
    Sim S.coupling Eq (repeatWhile (running go) condition body fuel)
      (repeatWhile (running go') condition body fuel) := by
  induction fuel with
  | zero => exact Sim.throw trivial
  | succ fuel ih =>
    refine (sim_testCondition hS hgo hc).bindEq fun r => ?_
    rcases r with flow | _ | _
    · exact Sim.pure rfl
    · exact Sim.pure rfl
    · refine (sim_runPass hS hgo hb).bindSame fun pass _ => ?_
      cases pass with
      | stop flow => exact Sim.pure rfl
      | value v? => exact ih
      | skipped => exact ih

theorem sim_runWhile (fuel : Nat) :
    Sim S.coupling Eq (runWhile (running go) fuel) (runWhile (running go') fuel) := by
  refine (sim_pop₂ hS).bindSame fun (condition, body) ⟨hc, hb⟩ => ?_
  exact sim_repeatWhile hS hgo hc hb fuel

omit hS hgo in
theorem sparesCode_collect (kind : Traversal) (items : List Value) (result? : Option Value) :
    SparesCode (kind.collect items result?) := by
  cases kind with
  | loop | map => exact .ok
  | select => exact (Value.sparesCode_expectLogical _ _).bind fun _ => .ok

omit hS hgo in
theorem refersIn_collect {A : CodeRef → Prop} {B : FunctionRef → Prop} {kind : Traversal}
    {items more : List Value} {result? : Option Value} (h : kind.collect items result? = .ok more)
    (hi : ∀ v ∈ items, v.RefersIn A B) (hr : ∀ v, result? = some v → v.RefersIn A B) :
    ∀ v ∈ more, v.RefersIn A B := by
  cases kind with
  | loop =>
    cases h
    simp
  | map =>
    cases h
    simpa using hr
  | select =>
    obtain ⟨keep, -, h⟩ := exists_of_bind_ok h
    cases h
    split
    · simpa using hi
    · simp

theorem sim_passes (kind : Traversal) (params : List String) {body : Value}
    (hb : body.CodesIn S.known) (count : Nat) {items collected : List Value}
    (hi : ∀ v ∈ items, v.CodesIn S.known) (hc : ∀ v ∈ collected, v.CodesIn S.known) :
    Sim S.coupling (fun r q => r = q ∧ ∀ v ∈ r.2, v.CodesIn S.known)
      (passes (running go) kind params body count items collected)
      (passes (running go') kind params body count items collected) := by
  induction count generalizing items collected with
  | zero => exact Sim.pure ⟨rfl, hc⟩
  | succ count ih =>
    cases items with
    | nil => exact Sim.pure ⟨rfl, hc⟩
    | cons item items =>
      have hnow : ∀ v ∈ (item :: items).take (max params.length 1), v.CodesIn S.known :=
        fun v hv => hi v (List.mem_of_mem_take hv)
      have hlater : ∀ v ∈ (item :: items).drop (max params.length 1), v.CodesIn S.known :=
        fun v hv => hi v (List.mem_of_mem_drop hv)
      refine (sim_bindAll hS fun e he => hnow _ (List.of_mem_zip he).2).bind fun _ _ _ => ?_
      refine (sim_runPass hS hgo hb).bindSame fun pass hp => ?_
      cases pass with
      | stop flow => exact Sim.pure ⟨rfl, hc⟩
      | skipped => exact ih hlater hc
      | value result? =>
        have hresult : ∀ v, result? = some v → v.CodesIn S.known := fun v hv =>
          hp v (congrArg _ hv)
        refine (sim_answer (sparesCode_collect _ _ _) fun _ h =>
          refersIn_collect h hnow hresult).bindSame fun more hm => ?_
        exact ih hlater fun v hv => (List.mem_append.1 hv).elim (hm v) (hc v)

theorem sim_traverse (kind : Traversal) :
    Sim S.coupling Eq (traverse (running go) kind) (traverse (running go') kind) := by
  refine (sim_pop₃ hS).bindSame fun (collection, params, body) ⟨hcol, _, hb⟩ => ?_
  refine (sim_ask (params.sparesCode_parameterNames _)).bindEq fun params => ?_
  refine sim_heap.bind fun h h' ⟨hh, hin⟩ => ?_
  rw [← hh.elements]
  refine (sim_answer (collection.sparesCode_elements _ _) fun _ hi =>
    Value.refersIn_of_elements hi hcol hin.entries).bindSame fun items hi => ?_
  refine (sim_protecting hS params (sim_passes hS hgo kind params hb _ hi (by simp))).bindSame
    fun (flow, collected) hc => ?_
  exact sim_when (fun _ => sim_push (Value.refersIn_block.2 (by simpa using hc))) (Sim.pure rfl)

end BlockLang.Pairing
