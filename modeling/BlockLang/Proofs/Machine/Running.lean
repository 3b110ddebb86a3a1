import BlockLang.Proofs.Machine.Calling
import BlockLang.Proofs.Machine.Control
import BlockLang.Proofs.Machine.Operations
import BlockLang.Proofs.Machine.Steps

/-!
# Running code in paired machines

**Theorem (`sim_executeBy`).** Paired machines run a unit in the same way from where the pairing lets it be
run, if they find the same unit for a function, each in a way of its own. Both may find it as machines do
(`sim_execute_of_runs`).

The proof is by induction on fuel: an instruction that runs a block runs a unit with less of it.
-/

namespace BlockLang.Pairing

open Exec

variable {S : Pairing} {code code' : FunctionRef → Exec CodeRef}

section

variable {go go' : CodeUnit → Exec Flow} (hS : S.Lawful)
  (hgo : ∀ u, S.runs u 0 → Sim S.coupling Eq (go u) (go' u))

include hS hgo

/-! ## Operations -/

omit hS hgo in
theorem sim_plain {x y : Exec Unit} (h : Sim S.coupling Eq x y) :
    Sim S.coupling Eq (plain x) (plain y) := h.bind fun _ _ _ => Sim.pure rfl

theorem sim_perform (fuel : Nat) (b : Builtin) :
    Sim S.coupling Eq (perform fuel (running go) b) (perform fuel (running go') b) := by
  cases b with
  | add | sub | mul | div | fdiv | mod | pow =>
    exact sim_plain (sim_apply₂ hS (Arith.sparesCode_apply _) fun _ _ => Arith.refersIn_of_apply)
  | inc | dec =>
    exact sim_plain (sim_apply hS (Arith.sparesCode_apply _ · _) fun _ => Arith.refersIn_of_apply)
  | neg => exact sim_plain (sim_apply hS sparesCode_negate fun _ => refersIn_of_negate)
  | band | bor | bxor | shl | shr =>
    exact sim_plain
      (sim_apply₂ hS (BitOperation.sparesCode_apply _) fun _ _ => BitOperation.refersIn_of_apply)
  | bnot =>
    exact sim_plain (sim_apply hS Value.sparesCode_complement fun _ => Value.refersIn_of_complement)
  | logicalNot =>
    exact sim_plain (sim_apply hS Value.sparesCode_opposite fun _ => Value.refersIn_of_opposite)
  | logicalAnd | logicalOr =>
    exact sim_plain
      (sim_apply₂ hS (Value.sparesCode_combine _ _) fun _ _ => Value.refersIn_of_combine)
  | eq | ne => exact sim_plain (sim_compareEqual hS fuel _)
  | gt | ge | lt | le =>
    exact sim_plain
      (sim_apply₂ hS (Comparison.sparesCode_apply _) fun _ _ => Comparison.refersIn_of_apply)
  | ifTrue | ifFalse | ifElse => exact sim_branch hS hgo _ _
  | ifReport => exact sim_branchReport hS hgo
  | switchOn => exact sim_choose hS hgo
  | whileTrue => exact sim_runWhile hS hgo fuel
  | returnFlow | breakFlow | continueFlow => exact Sim.pure rfl
  | run => exact sim_runValue hS hgo
  | attempt | attemptReport => exact sim_attempt hS hgo _
  | ensure => exact sim_ensure hS hgo fuel
  | raise => exact sim_plain (sim_raiseTop hS fuel)
  | get => exact sim_plain (sim_getPart hS)
  | set => exact sim_plain (sim_setPart hS)
  | convert => exact sim_plain (sim_convert hS fuel)
  | string => exact sim_plain (sim_toText hS fuel)
  | integer =>
    exact sim_plain (sim_apply hS Value.sparesCode_toInteger fun _ => Value.refersIn_of_toInteger)
  | array => exact sim_makeArray hS hgo
  | dictionary => exact sim_makeDictionary hS hgo
  | function => exact sim_plain (sim_makeFunction hS)
  | range =>
    exact sim_plain (sim_apply₂ hS Value.sparesCode_range fun _ _ => Value.refersIn_of_range)
  | loop | map | select => exact sim_traverse hS hgo _
  | size => exact sim_plain (sim_countItems hS)
  | replace => exact sim_plain (sim_replaceItems hS fuel)
  | split =>
    exact sim_plain (sim_apply hS Value.sparesCode_splitUp fun _ => Value.refersIn_of_splitUp)
  | join => exact sim_plain (sim_joinItems hS fuel)
  | reverse =>
    exact sim_plain
      (sim_apply hS Value.sparesCode_reversed fun ha h => Value.refersIn_of_reversed h ha)
  | append => exact sim_plain (sim_appendItems hS fuel)
  | print => exact sim_plain (sim_printTop hS fuel)

theorem sim_callBuiltin (fuel : Nat) (b : Builtin) :
    Sim S.coupling Eq (callBuiltin fuel (running go) b) (callBuiltin fuel (running go') b) := by
  refine sim_afterwards (sim_perform hS hgo fuel b) (fun m n h => ?_) fun _ => ⟨rfl, rfl⟩
  exact { h with attrs := rfl, given := by simp }

/-! ## Calls -/

/-- The ways to find the code of a function lead to the same unit. -/
def FindsSame (S : Pairing) (code code' : FunctionRef → Exec CodeRef) : Prop :=
  ∀ ref, Sim S.coupling S.SameUnit (code ref >>= unitOf) (code' ref >>= unitOf)

theorem sim_runUserBy (hcode : S.FindsSame code code') (ref : FunctionRef) {f : UserFunction}
    (hf : ∀ e ∈ f.imports, e.2.CodesIn S.known) :
    Sim S.coupling Eq (runUserBy code (running go) ref f) (runUserBy code' (running go') ref f) := by
  refine Sim.get.bind fun m n h => ?_
  rw [← h.tryDepth]
  exact sim_runScoped hS hgo hf (hcode ref)

theorem sim_callFunctionBy (hcode : S.FindsSame code code') (fuel : Nat) (ref : FunctionRef) :
    Sim S.coupling Eq (callFunctionBy code fuel (running go) ref)
      (callFunctionBy code' fuel (running go') ref) := by
  refine sim_heap.bind fun h h' ⟨hh, hin⟩ => ?_
  have hbare := hh.bare ref
  have himports := hin.functions ref
  revert hbare himports
  rcases h.callable? ref with _ | callable <;> rcases h'.callable? ref with _ | callable' <;>
    intro hbare himports
  · exact sim_fail (.usual rfl)
  · cases hbare
  · cases hbare
  · have hb : callable.bare = callable'.bare := Option.some.inj hbare
    have harity : callable.arity = callable'.arity := by
      simpa using congrArg Callable.arity hb
    have hdescription : callable.description = callable'.description := by
      simpa using congrArg Callable.description hb
    refine sim_height.bind fun available available' ha => ?_
    rw [← harity, ← hdescription]
    refine sim_check (.usual rfl) (fun hlt => ?_) (fun hle => ?_) fun _ => ?_
    · refine hS.short.symm.imp (fun he => he.2 ..) fun hr => ?_
      rw [Heights, hr, List.length_nil, Nat.add_zero] at ha
      rw [ha]
      exact ⟨hlt, rfl⟩
    · rw [ha]
      omega
    · rcases callable with b | ⟨f, c?⟩ <;> rcases callable' with b' | ⟨f', c'?⟩ <;> cases hb
      · exact sim_callBuiltin hS hgo fuel b
      · exact sim_clearAttrs.bind fun _ _ _ => sim_runUserBy hS hgo hcode ref (himports f c? rfl).2

omit hgo in
theorem findsSame_functionCode : S.FindsSame functionCode functionCode := sim_functionCode hS

theorem sim_callFunction (fuel : Nat) (ref : FunctionRef) :
    Sim S.coupling Eq (callFunction fuel (running go) ref)
      (callFunction fuel (running go') ref) :=
  sim_callFunctionBy hS hgo (findsSame_functionCode hS) fuel ref

theorem sim_callValueBy (hcode : S.FindsSame code code') (fuel : Nat) (target : Value) :
    Sim S.coupling Eq (callValueBy code fuel (running go) target)
      (callValueBy code' fuel (running go') target) := by
  cases target with
  | function ref => exact sim_callFunctionBy hS hgo hcode fuel ref
  | word name =>
    refine (sim_valueOf name).bindSame fun v _ => ?_
    cases v with
    | function ref => exact sim_callFunctionBy hS hgo hcode fuel ref
    | _ => exact sim_fail (.usual rfl)
  | _ => exact sim_fail (.usual rfl)

/-! ## Instructions -/

omit hS hgo in
theorem sim_nameOf (pos : Nat) {v : Value} (hv : S.strict → v.name?.isSome = true) :
    Sim S.coupling Eq (nameOf pos v) (nameOf pos v) := by
  unfold nameOf
  cases h : v.name? with
  | some name => exact Sim.pure rfl
  | none => exact sim_fail fun hs => absurd (hv hs) (by simp [h])

theorem sim_runIndexedBy (hcode : S.FindsSame code code') (fuel pos : Nat) {family : Family} {v : Value}
    (hv : v.CodesIn S.known) (hname : S.strict → family.needsName = true → v.name?.isSome = true) :
    Sim S.coupling Eq (runIndexedBy code fuel (running go) pos family v)
      (runIndexedBy code' fuel (running go') pos family v) := by
  cases family with
  | push => exact sim_plain (sim_push hv)
  | store =>
    refine (sim_pop hS).bindSame fun value hvalue => ?_
    refine (sim_nameOf pos (hname · rfl)).bindEq fun name => ?_
    exact sim_plain (sim_bind hS name hvalue)
  | storeKeep =>
    refine (sim_peek hS 0).bindSame fun value hvalue => ?_
    refine (sim_nameOf pos (hname · rfl)).bindEq fun name => ?_
    exact sim_plain (sim_bind hS name hvalue)
  | load =>
    refine (sim_nameOf pos (hname · rfl)).bindEq fun name => ?_
    refine (sim_valueOf name).bindSame fun value hvalue => ?_
    exact sim_plain (sim_push hvalue)
  | call => exact sim_callValueBy hS hgo hcode fuel v
  | attr =>
    refine (sim_pop hS).bindSame fun value hvalue => ?_
    refine (sim_nameOf pos (hname · rfl)).bindEq fun name => ?_
    refine sim_plain (sim_modify (fun m n h => ?_) fun _ => ⟨rfl, rfl⟩)
    exact { h with
      attrs := congrArg (·.insert name value) h.attrs
      given := NameTable.forall_insert h.given hvalue }

omit hS hgo in
theorem refersIn_immediate {A : CodeRef → Prop} {B : FunctionRef → Prop} {o : Opcode} {v : Value}
    (h : o.immediate? = some v) : v.RefersIn A B := by
  unfold Opcode.immediate? at h
  split at h
  case h_9 => split at h <;> cases h; trivial
  all_goals
    cases h
    simp

omit hgo in
theorem sim_swapTop : Sim S.coupling Eq swapTop swapTop := by
  refine (sim_pop₂ hS).bindSame fun (a, b) ⟨ha, hb⟩ => ?_
  exact (sim_push hb).bind fun _ _ _ => sim_push ha

theorem sim_runOpcode (fuel pos : Nat) {o : Opcode} {constants : Array Value} (ho : o ≠ .stop)
    (hvalid : S.strict → (Instruction.op o).IsValid constants) :
    Sim S.coupling Eq (runOpcode fuel (running go) pos o) (runOpcode fuel (running go') pos o) := by
  cases hv : o.immediate? with
  | some v =>
    simp only [runOpcode, hv]
    exact sim_plain (sim_push (refersIn_immediate hv))
  | none =>
    simp only [runOpcode, hv]
    split
    · exact Sim.pure rfl
    · exact sim_plain ((sim_pop hS).bind fun _ _ _ => Sim.pure rfl)
    · exact (sim_peek hS 0).bindSame fun _ hv => sim_plain (sim_push hv)
    · exact (sim_peek hS 1).bindSame fun _ hv => sim_plain (sim_push hv)
    · exact sim_plain (sim_swapTop hS)
    · cases hb : Builtin.ofOpcode? o with
      | some b => exact sim_callBuiltin hS hgo fuel b
      | none =>
        refine sim_fail fun hs => ?_
        have hvalid := hvalid hs
        simp_all [Instruction.IsValid]

omit hgo in
theorem sim_isTaken (condition : Condition) :
    Sim S.coupling Eq (isTaken condition) (isTaken condition) := by
  cases condition with
  | always => exact Sim.pure rfl
  | ifTrue =>
    refine (sim_pop hS).bindSame fun v _ => ?_
    exact sim_ask (v.sparesCode_expectLogical _)
  | ifFalse =>
    refine (sim_pop hS).bindSame fun v _ => ?_
    exact (sim_ask (v.sparesCode_expectLogical _)).bindEq fun _ => Sim.pure rfl

theorem sim_runInstructionBy (hcode : S.FindsSame code code') (fuel : Nat) {u : CodeUnit}
    (hu : u.CodesIn S.known) (pos : Nat) {i : Instruction} (hi : i ≠ .op .stop)
    (hvalid : S.strict → i.IsValid u.constants) :
    Sim S.coupling Eq (runInstructionBy code fuel (running go) u pos i)
      (runInstructionBy code' fuel (running go') u pos i) := by
  cases i with
  | indexed family index =>
    simp only [runInstructionBy]
    cases hv : u.constants[index]? with
    | some v =>
      refine sim_runIndexedBy hS hgo hcode fuel pos (hu v (Array.mem_of_getElem? hv)) fun hs hneeds => ?_
      obtain ⟨c, hc, hname⟩ := hvalid hs
      rw [hv] at hc
      exact Option.some.inj hc ▸ hname hneeds
    | none =>
      refine sim_fail fun hs => ?_
      obtain ⟨c, hc, -⟩ := hvalid hs
      rw [hv] at hc
      cases hc
  | op o => exact sim_runOpcode hS hgo fuel pos (fun h => hi (h ▸ rfl)) hvalid
  | jump condition target => exact Sim.pure rfl

end

/-! ## Units -/

/-- **Paired machines run a unit in the same way** from where it may be run, if they find the same unit
for a function. -/
theorem sim_executeBy (hS : S.Lawful) (hcode : S.FindsSame code code') (fuel : Nat) {u : CodeUnit} {pos : Nat}
    (hu : S.runs u pos) : Sim S.coupling Eq (executeBy code fuel u pos) (executeBy code' fuel u pos) := by
  induction fuel generalizing u pos with
  | zero => exact Sim.throw trivial
  | succ fuel ih =>
    have hgo : ∀ u, S.runs u 0 → Sim S.coupling Eq (executeBy code fuel u 0) (executeBy code' fuel u 0) :=
      fun u hu => ih hu
    have hsteps := hS.step hu
    rw [executeBy, executeBy]
    dsimp only
    split
    · next hnone =>
      refine sim_fail fun hs => ?_
      obtain ⟨i, hi, -⟩ := hsteps.valid hs
      rw [hnone] at hi
      cases hi
    · exact Sim.pure rfl
    · next condition target hjump =>
      refine (sim_isTaken hS _).bindEq fun taken => ?_
      cases taken with
      | true => exact ih (hsteps.jump hjump)
      | false =>
        refine ih (hsteps.next fun h => ?_)
        rw [hjump] at h
        cases h
    · next i hstop _ hi =>
      have hvalid (hs : S.strict) : i.IsValid u.constants := by
        obtain ⟨i', hi', hvalid⟩ := hsteps.valid hs
        rw [hi] at hi'
        exact Option.some.inj hi' ▸ hvalid
      refine (sim_runInstructionBy hS hgo hcode fuel hsteps.constants pos hstop hvalid).bindEq fun flow => ?_
      cases flow with
      | done => exact ih (hsteps.next (by rw [hi]; exact fun h => hstop (Option.some.inj h)))
      | _ => exact Sim.pure rfl

theorem sim_execute_of_runs (hS : S.Lawful) (fuel : Nat) {u : CodeUnit} {pos : Nat}
    (hu : S.runs u pos) : Sim S.coupling Eq (execute fuel u pos) (execute fuel u pos) :=
  executeBy_functionCode ▸ sim_executeBy hS (findsSame_functionCode hS) fuel hu

/-- Where its constants alone decide whether a unit may be run, it may be run from any offset. -/
theorem sim_execute (hS : S.Lawful) (fuel : Nat) {u : CodeUnit} (hu : u.CodesIn S.known)
    (pos : Nat) (hruns : S.runs = fun u _ => u.CodesIn S.known := by rfl) :
    Sim S.coupling Eq (execute fuel u pos) (execute fuel u pos) :=
  sim_execute_of_runs hS fuel (by rwa [hruns])

/-- Paired machines run items at the top level in the same way, if they run units in the same way. -/
theorem sim_runTop {go go' : CodeUnit → Exec Flow} (hS : S.Lawful)
    (hgo : ∀ u, S.runs u 0 → Sim S.coupling Eq (go u) (go' u)) {items : List Value}
    (hi : ∀ v ∈ items, v.CodesIn S.known) (dynamic : Bool) :
    Sim S.coupling Eq (runTop (running go) items dynamic) (runTop (running go') items dynamic) := by
  refine sim_height.bind fun base base' hbase => ?_
  refine (sim_observe (sim_running hgo (sim_compile hS hi dynamic))).bind fun r q ⟨hr, he⟩ => ?_
  cases r <;> cases q
  · cases hr
    exact (sim_cutTo hbase).bind fun _ _ _ => sim_clearAttrs.bind fun _ _ _ =>
      Sim.throw (he _ rfl)
  · cases hr
  · cases hr
  · exact Sim.pure rfl

theorem sim_runItems (hS : S.Lawful) (fuel : Nat) {items : List Value}
    (hi : ∀ v ∈ items, v.CodesIn S.known) (dynamic : Bool) :
    Sim S.coupling Eq (runItems fuel items dynamic) (runItems fuel items dynamic) :=
  sim_runTop hS (fun _ hu => sim_execute_of_runs hS fuel hu) hi dynamic

theorem sim_runSource (hS : S.Lawful) (fuel : Nat) (source : String) :
    Sim S.coupling Eq (runSource fuel source) (runSource fuel source) := by
  refine (sim_read hS source).bindSame fun items hi => ?_
  exact sim_runItems hS fuel hi false

end BlockLang.Pairing
