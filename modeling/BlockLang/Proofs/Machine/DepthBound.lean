import BlockLang.Proofs.Machine.LevelRuns
import BlockLang.Proofs.Machine.Steps

/-!
# The bound on the depth

**Theorem (`depth_restored_and_bounded`).** Whatever a machine is asked for, and however that ends, it is as
deep afterwards as it was before, in blocks and calls as well as in tries. If it was no deeper than it may be
at first, then it never is.

**Moments.** That something never happens is said with an alarm: a piece of a run, whatever it does, that is
set off whenever the machine is too deep (`alarmed`). It stands in front of every instruction of every unit,
however deeply nested, and in front of every search for the code of a block or a function, where the depth
has just been raised. If a run with the alarm is the run without it, for every alarm, then the alarm was
never set off.

**Why.** A block or a call is refused unless there is room for one level more. As every piece gives the depth
back as it found it, that room is still there when the code of the block is run. So what runs a block only
has to do the same where there is room (`SameWithRoom`) for the block to do the same anywhere.
-/

namespace BlockLang

open Exec

variable {α β : Type} {m n : Machine} {k : Nat}

/-- The machine may get deeper by `k` levels. -/
def Machine.HasRoom (k : Nat) (m : Machine) : Prop := m.depth + k ≤ m.world.config.maxDepth

instance (k : Nat) (m : Machine) : Decidable (m.HasRoom k) :=
  inferInstanceAs (Decidable (m.depth + k ≤ m.world.config.maxDepth))

theorem Machine.HasRoom.of_level (h : m.HasRoom k) (hn : n.level = m.level) : n.HasRoom k := by
  obtain ⟨hdepth, hn⟩ := Prod.mk.inj hn
  obtain ⟨-, hconfig⟩ := Prod.mk.inj hn
  rw [HasRoom, hdepth, hconfig]
  exact h

namespace Exec

/-- The pieces do the same in machines that may get deeper by `k` levels. -/
def SameWithRoom (k : Nat) (x y : Exec α) : Prop := ∀ m, m.HasRoom k → x.run.run m = y.run.run m

namespace SameWithRoom

variable {x y : Exec α} {f g : α → Exec β}

protected theorem refl (x : Exec α) : SameWithRoom k x x := fun _ _ => rfl

/-- The room is still there after a piece that gives the depth back. -/
theorem bind (h : SameWithRoom k x y) (hx : Steady x) (hf : ∀ a, SameWithRoom k (f a) (g a)) :
    SameWithRoom k (x >>= f) (y >>= g) := by
  intro m hm
  have hlevel := hx m
  rw [run_bind, run_bind, ← h m hm]
  revert hlevel
  rcases x.run.run m with ⟨e | a, n⟩ <;> intro hlevel
  · rfl
  · exact hf a n (hm.of_level hlevel)

/-- The same piece on both sides. -/
theorem after (hx : Steady x) (hf : ∀ a, SameWithRoom k (f a) (g a)) :
    SameWithRoom k (x >>= f) (x >>= g) :=
  (SameWithRoom.refl x).bind hx hf

/-- The same on both sides from then on. -/
theorem before (h : SameWithRoom k x y) (f : α → Exec β) : SameWithRoom k (x >>= f) (y >>= f) := by
  intro m hm
  rw [run_bind, run_bind, h m hm]

theorem get {f g : Machine → Exec α} (h : ∀ m, SameWithRoom k (f m) (g m)) :
    SameWithRoom k (MonadState.get >>= f) (MonadState.get >>= g) := fun m hm => h m m hm

theorem height {f g : Nat → Exec α} (h : ∀ n, SameWithRoom k (f n) (g n)) :
    SameWithRoom k (Exec.height >>= f) (Exec.height >>= g) := fun m hm => h m.stack.length m hm

theorem observe (h : SameWithRoom k x y) : SameWithRoom k (Exec.observe x) (Exec.observe y) := by
  intro m hm
  rw [run_observe, run_observe, h m hm]

theorem when {c : Prop} [Decidable c] {x : Exec PUnit} {k' k'' : PUnit → Exec α} (hx : Steady x)
    (h : ∀ u, SameWithRoom k (k' u) (k'' u)) :
    SameWithRoom k (if c then x >>= k' else k' ⟨⟩) (if c then x >>= k'' else k'' ⟨⟩) := by
  split
  · exact .after hx h
  · exact h _

end SameWithRoom

/-! ## Blocks -/

theorem fail_bind (e : RuntimeError) (f : α → Exec β) : fail e >>= f = fail e := rfl

section

variable {run run' : CodeRef → Exec Flow} {code code' : Exec CodeRef}

theorem same_inScope (h : SameWithRoom 1 (descend run' code') (descend run code)) (o : BlockOptions)
    (key? : Option MemoKey) : SameWithRoom 1 (inScope run' o code' key?) (inScope run o code key?) := by
  refine .get fun m => .after (steady_bindAll o.imports) fun _ => ?_
  refine .after (steady_bindParameters o.params) fun _ => .height fun base => ?_
  exact h.observe.before _

/-- **A block does the same in any machine**, if it does so one level deeper. Without room for that level it
is refused. -/
theorem runScoped_eq (h : SameWithRoom 1 (descend run' code') (descend run code)) (o : BlockOptions) :
    runScoped run' o code' = runScoped run o code := by
  funext m
  change (runScoped run' o code').run.run m = (runScoped run o code).run.run m
  by_cases hroom : m.HasRoom 1
  · refine SameWithRoom.get (fun m => .when (steady_fail _) fun _ => ?_) m hroom
    refine .after (steady_findKept _) fun kept? => ?_
    cases kept? with
    | some v => exact .refl _
    | none => exact .when (steady_fail _) fun _ => same_inScope h o _
  · have hlimit : m.world.config.maxDepth ≤ m.depth := by
      unfold Machine.HasRoom at hroom
      omega
    unfold runScoped
    rw [run_bind_of_ok (run_get m), run_bind_of_ok (run_get m)]
    simp only [if_pos hlimit, fail_bind]

/-- Where there is room for one level more, what is done on that level has room. -/
theorem same_descend (h : SameWithRoom 0 (code' >>= run') (code >>= run)) :
    SameWithRoom 1 (descend run' code') (descend run code) := by
  intro m hm
  have hinside : Machine.HasRoom 0 { m with depth := m.depth + 1 } := hm
  rw [descend, descend, run_bind_of_ok (run_modify ..), run_bind_of_ok (run_modify ..),
    run_afterwards, run_afterwards, h _ hinside]

variable (h : ∀ code, SameWithRoom 0 (run' code) (run code))

include h

theorem runScoped_congr (o : BlockOptions) (hcode : Steady code) :
    runScoped run' o code = runScoped run o code :=
  runScoped_eq (same_descend (.after hcode h)) o

theorem runInPlace_congr (body : Value) : runInPlace run' body = runInPlace run body :=
  runScoped_congr h _ (steady_bodyCode body)

theorem runPass_congr (body : Value) : runPass run' body = runPass run body := by
  simp only [runPass, runInPlace_congr h]

theorem runUser_congr (ref : FunctionRef) (f : UserFunction) :
    runUser run' ref f = runUser run ref f := by
  simp only [runUser, runScoped_congr h _ (steady_functionCode ref)]

/-! ## Operations and calls -/

theorem repeatWhile_congr (condition body : Value) (fuel : Nat) :
    repeatWhile run' condition body fuel = repeatWhile run condition body fuel := by
  induction fuel with
  | zero => rfl
  | succ fuel ih => simp only [repeatWhile, testCondition, runInPlace_congr h, runPass_congr h, ih]

theorem passes_congr (kind : Traversal) (params : List String) (body : Value) (count : Nat)
    (items collected : List Value) :
    passes run' kind params body count items collected =
      passes run kind params body count items collected := by
  induction count generalizing items collected with
  | zero => rfl
  | succ count ih =>
    cases items with
    | nil => rfl
    | cons v items => simp only [passes, runPass_congr h, ih]

/-- **An operation does the same in any machine**, since it runs code only as the body of a block. -/
theorem perform_congr (fuel : Nat) (b : Builtin) : perform fuel run' b = perform fuel run b := by
  have hbody := runInPlace_congr h
  cases b with
  | ifTrue | ifFalse | ifElse => simp only [perform, branch, hbody]
  | ifReport => simp only [perform, branchReport, hbody]
  | switchOn => simp only [perform, choose, runOrPush, hbody]
  | whileTrue => simp only [perform, runWhile, repeatWhile_congr h]
  | run => simp only [perform, runValue, hbody]
  | attempt | attemptReport => simp only [perform, attempt, trying, hbody]
  | ensure => simp only [perform, ensure, hbody]
  | array => simp only [perform, makeArray, collectFrom, hbody]
  | dictionary => simp only [perform, makeDictionary, hbody]
  | loop | map | select => simp only [perform, traverse, passes_congr h]
  | _ => rfl

theorem callBuiltin_congr (fuel : Nat) (b : Builtin) :
    callBuiltin fuel run' b = callBuiltin fuel run b := by
  rw [callBuiltin, perform_congr h, callBuiltin]

theorem callFunction_congr (fuel : Nat) (ref : FunctionRef) :
    callFunction fuel run' ref = callFunction fuel run ref := by
  simp only [callFunction, callBuiltin_congr h, runUser_congr h]

theorem runInstruction_congr (fuel : Nat) (u : CodeUnit) (pos : Nat) (i : Instruction) :
    runInstruction fuel run' u pos i = runInstruction fuel run u pos i := by
  cases i with
  | indexed family index =>
    simp only [runInstruction, runIndexed, callValue, callFunction_congr h]
  | op o => simp only [runInstruction, runOpcode, callBuiltin_congr h]
  | jump condition target => rfl

end

/-! ## Units -/

theorem same_advance {u : CodeUnit} {pos : Nat} {instruct instruct' : Instruction → Exec Flow}
    {next next' : Nat → Exec Flow} (hi : ∀ i, instruct' i = instruct i)
    (hsteady : ∀ i, Steady (instruct i)) (hn : ∀ pos, SameWithRoom k (next' pos) (next pos)) :
    SameWithRoom k (advance u pos instruct' next') (advance u pos instruct next) := by
  unfold advance
  dsimp only
  split
  · exact .refl _
  · exact .refl _
  · exact .after (steady_isTaken _) fun _ => hn _
  · rw [hi]
    refine .after (hsteady _) fun flow => ?_
    split
    · exact hn _
    · exact .refl _

/-- Sets off the alarm in a machine that is deeper than it may be, and goes on. -/
def alarmed (alarm : Exec PUnit) (x : Exec α) : Exec α := do
  let m ← get
  if m.world.config.maxDepth < m.depth then alarm
  x

theorem same_alarmed (alarm : Exec PUnit) (x : Exec α) : SameWithRoom 0 (alarmed alarm x) x := by
  intro m hm
  have hdeep : ¬ m.world.config.maxDepth < m.depth := Nat.not_lt.2 hm
  rw [alarmed, run_bind_of_ok (run_get m), if_neg hdeep]

/-- **The alarm is never set off where the depth has just been raised**, in front of the search for code. -/
theorem runScoped_alarmed (alarm : Exec PUnit) (run : CodeRef → Exec Flow) (o : BlockOptions)
    (code : Exec CodeRef) : runScoped run o (alarmed alarm code) = runScoped run o code :=
  runScoped_eq (same_descend ((same_alarmed alarm code).before run)) o

/-- Runs a unit, with the alarm in front of every instruction of this unit and of those inside. -/
def executeUnder (alarm : Exec PUnit) : (fuel : Nat) → (u : CodeUnit) → (pos : Nat) → Exec Flow
  | 0, _, _ => throw .outOfFuel
  | fuel + 1, u, pos =>
    alarmed alarm (advance u pos
      (runInstruction fuel (fun code => do executeUnder alarm fuel (← unitOf code) 0) u pos)
      (executeUnder alarm fuel u))

/-- Runs a unit from its beginning, with the alarm. -/
def runCodeUnder (alarm : Exec PUnit) (fuel : Nat) (code : CodeRef) : Exec Flow := do
  executeUnder alarm fuel (← unitOf code) 0

/-- **The alarm is never set off in a unit**, if the machine is no deeper than it may be. -/
theorem same_executeUnder (alarm : Exec PUnit) (fuel : Nat) (u : CodeUnit) (pos : Nat) :
    SameWithRoom 0 (executeUnder alarm fuel u pos) (execute fuel u pos) := by
  induction fuel generalizing u pos with
  | zero => exact .refl _
  | succ fuel ih =>
    intro m hm
    rw [executeUnder, same_alarmed alarm _ m hm, execute_succ]
    refine same_advance (fun i => ?_) (fun i => ?_) (ih u) m hm
    · exact runInstruction_congr (fun code => .after (steady_unitOf code) fun u => ih u 0) fuel u pos i
    · exact steady_runInstruction (steady_runCode fuel) fuel u pos i

theorem same_runCodeUnder (alarm : Exec PUnit) (fuel : Nat) (code : CodeRef) :
    SameWithRoom 0 (runCodeUnder alarm fuel code) (runCode fuel code) :=
  .after (steady_unitOf code) fun u => same_executeUnder alarm fuel u 0

end Exec

/-! ## Steps -/

namespace Step

/-- Takes a step, with the alarm in front of every instruction. -/
def runUnder (alarm : Exec PUnit) (fuel : Nat) (step : Step) : Exec Answer :=
  step.runBy fuel (runCodeUnder alarm fuel)

theorem steady_runTop {run : CodeRef → Exec Flow} (hrun : ∀ code, Steady (run code))
    (items : List Value) (dynamic : Bool) : Steady (runTop run items dynamic) := by
  refine .height fun base => ?_
  refine (Leaves.observe ((steady_compile items dynamic).bind hrun)).bind fun outcome => ?_
  cases outcome with
  | ok flow => exact .pure _
  | error halt => exact (steady_cutTo base).bind fun _ => steady_clearAttrs.bind fun _ => .throw halt

theorem config_callTrees (w : World) (items : List Value) :
    (w.callTrees items).2.config = w.config :=
  (World.Grows.of_rebuilt (World.rebuilt_callTrees w items)).config

theorem steady_build (items : List Value) : Steady (Exec.build items) := by
  refine (steady_inWorld fun w => config_callTrees w items).bind fun r => ?_
  cases r with
  | ok trees => exact .pure _
  | error e => exact .throw _

/-- **Every step gives the counts back as it found them.** -/
theorem steady_runBy {run : CodeRef → Exec Flow} (hrun : ∀ code, Steady (run code)) (fuel : Nat)
    (step : Step) : Steady (step.runBy fuel run) := by
  cases step with
  | source text =>
    exact (steady_read text).bind fun l => (steady_runTop hrun l false).bind fun _ => .pure _
  | items l dynamic => exact (steady_runTop hrun l dynamic).bind fun _ => .pure _
  | block o body => exact (steady_runBlock hrun o body).bind fun _ => .pure _
  | shielded names body =>
    exact (steady_protecting names (steady_runInPlace hrun body)).bind fun _ => .pure _
  | call ref => exact (steady_callFunction hrun fuel ref).bind fun _ => .pure _
  | operation b => exact (steady_perform hrun fuel b).bind fun _ => .pure _
  | read text => exact (steady_read text).bind fun _ => .pure _
  | build l => exact (steady_build l).bind fun _ => .pure _
  | compile l dynamic =>
    exact (steady_compile l dynamic).bind fun code => (steady_unitOf code).bind fun _ => .pure _
  | push v => exact (steady_push v).bind fun _ => .pure _
  | pop => exact steady_pop.bind fun _ => .pure _
  | clear => exact (steady_cutTo 0).bind fun _ => .pure _
  | bind name v => exact (steady_bind name v).bind fun _ => .pure _
  | unbind | addFunction | addDictionary | addUnit => exact fun _ => rfl

theorem same_runBy {run run' : CodeRef → Exec Flow}
    (h : ∀ code, SameWithRoom 0 (run' code) (run code)) (fuel : Nat) (step : Step) :
    SameWithRoom 0 (step.runBy fuel run') (step.runBy fuel run) := by
  have htop (l : List Value) (dynamic : Bool) :
      SameWithRoom 0 (runTop run' l dynamic) (runTop run l dynamic) :=
    .height fun base => (SameWithRoom.after (steady_compile l dynamic) h).observe.before _
  cases step with
  | source text => exact .after (steady_read text) fun l => (htop l false).before _
  | items l dynamic => exact (htop l dynamic).before _
  | block o body =>
    simp only [runBy, runBlock, runScoped_congr h _ (steady_bodyCode body)]
    exact .refl _
  | shielded names body =>
    simp only [runBy, runInPlace_congr h]
    exact .refl _
  | call ref =>
    simp only [runBy, callFunction_congr h]
    exact .refl _
  | operation b =>
    simp only [runBy, perform_congr h]
    exact .refl _
  | _ => exact .refl _

end Step

/-- **The depth is restored, and never exceeds the limit** if it does not do so at first. -/
theorem depth_restored_and_bounded (fuel : Nat) (m : Machine) (step : Step) :
    let after := ((step.run fuel).run.run m).2
    (after.depth = m.depth ∧ after.tryDepth = m.tryDepth) ∧
      ∀ alarm : Exec PUnit,
        (m.depth ≤ m.world.config.maxDepth →
          (step.runUnder alarm fuel).run.run m = (step.run fuel).run.run m) ∧
        ∀ (run : CodeRef → Exec Flow) (o : BlockOptions) (code : Exec CodeRef),
          runScoped run o (alarmed alarm code) = runScoped run o code := by
  intro after
  have hlevel : after.level = m.level := Step.steady_runBy (steady_runCode fuel) fuel step m
  obtain ⟨hdepth, htries⟩ := Prod.mk.inj hlevel
  refine ⟨⟨hdepth, (Prod.mk.inj htries).1⟩, fun alarm => ⟨fun hm => ?_, runScoped_alarmed alarm⟩⟩
  exact step.same_runBy (same_runCodeUnder alarm fuel) fuel m hm

/-- Blocks in blocks, one more than there may be. The innermost is refused, a try recovers from that, and an
alarm that would end the run is not set off. -/
theorem depth_restored_and_bounded_try :
    let m : Machine := .initial { maxDepth := 2 }
    let step : Step := .source "try [do [do [1]]]"
    let alarm : Exec PUnit := throw .outOfFuel
    let under := (step.runUnder alarm 100).run.run m
    m.depth ≤ m.world.config.maxDepth ∧ under.1.isOk = true ∧ under.2.depth = 0 ∧
      under.2.tryDepth = 0 ∧ under.2.raised = [.stackOverflow 2] := by
  intro m step alarm under
  obtain ⟨⟨hdepth, htries⟩, hbounded⟩ := depth_restored_and_bounded 100 m step
  have hzero : m.depth = 0 ∧ m.tryDepth = 0 := ⟨rfl, rfl⟩
  have hm : m.depth ≤ m.world.config.maxDepth := hzero.1 ▸ Nat.zero_le _
  have hunder : under = (step.run 100).run.run m := (hbounded alarm).1 hm
  have hend : ((step.run 100).run.run m).1.isOk = true ∧
      ((step.run 100).run.run m).2.raised = [.stackOverflow 2] := by
    decide +kernel
  rw [hunder]
  exact ⟨hm, hend.1, hdepth.trans hzero.1, htries.trans hzero.2, hend.2⟩

end BlockLang
