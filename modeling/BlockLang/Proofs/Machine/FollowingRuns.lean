import BlockLang.Proofs.Machine.FollowingForms

/-!
# Calls and units beside a machine that keeps no results

The second machine makes every call. The first one may find a kept result instead (`Machine.Answers`); then
nothing is said here about what the other one comes to. So the rules for calls are about machines in which
no result is found, and an instruction is followed if the call is that it may be.

**Theorem (`follows_execute`).** If neither machine keeps results, both run a unit alike.
-/

namespace BlockLang

open Exec

variable {equal : Prop} {fuel pos : Nat} {u : CodeUnit} {i : Instruction} {ref : FunctionRef}
  {f : UserFunction} {m n : Machine}

/-! ## Calls without a kept result -/

/-- A table that keeps nothing answers no call. -/
theorem Machine.kept?_of_isClosed (h : m.world.memo.IsClosed) : m.kept? ref f = none := by
  rw [kept?]
  cases m.callKey? ref f with
  | none => rfl
  | some key => exact h.find? key

/-- A call in `m` has its operands, and the result `v` is kept for it. -/
structure Machine.Answers (m : Machine) (ref : FunctionRef) (f : UserFunction) (v : Value) : Prop where
  function : ∃ c?, m.world.heap.callable? ref = some (.user f c?)
  operands : f.params.length ≤ m.stack.length
  kept : m.kept? ref f = some v

theorem not_answers {v : Value} (h : m.world.memo.IsClosed) : ¬ m.Answers ref f v := fun ha =>
  nomatch (Machine.kept?_of_isClosed h).symm.trans ha.kept

/-- The function that an instruction is a call of. -/
def Machine.called? (m : Machine) (u : CodeUnit) : Instruction → Option FunctionRef
  | .indexed .call index => u.constants[index]?.bind m.callee?
  | _ => none

theorem get?_of_valueOf {name : String} {v : Value} (h : (valueOf name).run.run m = (.ok v, n)) :
    m.world.get? name = some v ∧ m = n := by
  rw [valueOf, run_bind_of_ok (run_get m)] at h
  dsimp only at h
  cases hg : m.world.get? name with
  | none =>
    rw [hg] at h
    cases h
  | some w =>
    rw [hg] at h
    cases h
    exact ⟨rfl, rfl⟩

theorem follows_nameOf (pos : Nat) (v : Value) : Follows equal (nameOf pos v) (nameOf pos v) := by
  unfold nameOf
  cases v.name? with
  | some name => exact .pure name
  | none => exact follows_fail _

theorem follows_swapTop : Follows equal swapTop swapTop :=
  follows_pop₂.bind fun (a, b) => (follows_push b).bind fun _ => follows_push a

theorem follows_isTaken (condition : Condition) :
    Follows equal (isTaken condition) (isTaken condition) := by
  cases condition with
  | always => exact .pure true
  | ifTrue => exact follows_pop.bind fun v => follows_answer _
  | ifFalse => exact follows_pop.bind fun v => (follows_answer _).bind fun holds => .pure _

section

variable {run run' : CodeRef → Exec Flow} (hrun : ∀ code, Follows equal (run code) (run' code))

include hrun

theorem follows_runOpcode (fuel pos : Nat) (o : Opcode) :
    Follows equal (runOpcode fuel run pos o) (runOpcode fuel run' pos o) := by
  unfold runOpcode
  split
  · exact follows_plain (follows_push _)
  · split
    · exact .pure _
    · exact follows_plain (follows_pop.bind fun _ => .pure _)
    · exact (follows_peek 0).bind fun v => follows_plain (follows_push v)
    · exact (follows_peek 1).bind fun v => follows_plain (follows_push v)
    · exact follows_plain follows_swapTop
    · split
      · exact follows_callBuiltin hrun fuel _
      · exact follows_fail _

theorem followsAt_callUser (hm : Beside equal m n) {c? : Option CodeRef} {memoize : Bool}
    (hf : m.world.heap.callable? ref = some (.user f c?))
    (hf' : n.world.heap.callable? ref = some (.user { f with memoize } c?))
    (hk : ∀ v, ¬ m.Answers ref f v) :
    FollowsAt equal (callFunction fuel run ref) (callFunction fuel run' ref) m n := by
  have hstack := hm.resembles.stack
  have hcleared : Beside equal { m with attrs := [] } { n with attrs := [] } :=
    { hm with resembles := { hm.resembles with attrs := rfl } }
  rcases Nat.lt_or_ge m.stack.length f.params.length with hlt | hle
  · obtain ⟨raised, hr⟩ := run_callFunction_of_lt run fuel hf hlt
    obtain ⟨raised', hr'⟩ := run_callFunction_of_lt run' fuel hf' (hstack ▸ hlt)
    rw [FollowsAt, hr, hr', ← hstack]
    exact fun _ => ⟨rfl, { hm with resembles := { hm.resembles with stack := rfl } }⟩
  · have hkept : m.kept? ref f = none :=
      Option.eq_none_iff_forall_ne_some.2 fun v hv => hk v ⟨⟨c?, hf⟩, hle, hv⟩
    obtain ⟨memo, hr⟩ := run_callFunction_of_le run fuel hf hle
    obtain ⟨memo', hr'⟩ := run_callFunction_of_le run' fuel hf' (hstack ▸ hle)
    simp only [hkept] at hr
    simp only [Machine.kept?_of_isClosed hm.closed, ← hm.resembles.world.config.maxDepth] at hr'
    by_cases hdeep : m.world.config.maxDepth ≤ m.depth
    · rw [FollowsAt, hr, hr', if_pos hdeep, if_pos (hm.resembles.depth ▸ hdeep)]
      exact follows_fail _ _ _ hcleared
    · have hoptions : ({ f with memoize } : UserFunction).options ref (0 < n.tryDepth) =
          { f.options ref (0 < m.tryDepth) with memoize := if memoize then some ref else none } := by
        rw [hm.resembles.tryDepth]
        rfl
      rw [FollowsAt, hr, hr', if_neg hdeep, if_neg (hm.resembles.depth ▸ hdeep), hoptions]
      exact follows_inScope hrun _ _ (follows_functionCode ref) _ _ _ _ hcleared

theorem followsAt_callFunction (hm : Beside equal m n) (hk : ∀ f v, ¬ m.Answers ref f v) :
    FollowsAt equal (callFunction fuel run ref) (callFunction fuel run' ref) m n := by
  have hc := hm.resembles.world.heap.related ref
  generalize hf : m.world.heap.callable? ref = c?, hf' : n.world.heap.callable? ref = c'? at hc
  rcases hc with (⟨b⟩ | ⟨f, memoize, code?⟩) | _
  · have hcall : Follows equal
        (do
          let available ← height
          if available < b.arity then
            fail (.wrongArity (Callable.builtin b).description b.arity available)
          callBuiltin fuel run b)
        (do
          let available ← height
          if available < b.arity then
            fail (.wrongArity (Callable.builtin b).description b.arity available)
          callBuiltin fuel run' b) := by
      refine follows_height.bind fun available => ?_
      have hb := follows_callBuiltin hrun fuel b
      exact .ite (fun _ => (follows_fail _).bind fun _ => hb) fun _ => hb
    rw [FollowsAt, callFunction, callFunction, run_bind_of_ok (run_heap m), run_bind_of_ok (run_heap n)]
    simp only [hf, hf']
    exact hcall m n hm
  · exact followsAt_callUser hrun hm hf hf' (hk f)
  · rw [FollowsAt, callFunction, callFunction, run_bind_of_ok (run_heap m), run_bind_of_ok (run_heap n)]
    simp only [hf, hf']
    exact follows_fail _ m n hm

omit hrun in
/-- A call of a constant is followed if the call of the function that it stands for is. -/
theorem followsAt_callValue (hm : Beside equal m n) {c : Value}
    (hc : ∀ ref n, m.callee? c = some ref → Beside equal m n →
      FollowsAt equal (callFunction fuel run ref) (callFunction fuel run' ref) m n) :
    FollowsAt equal (callValue fuel run c) (callValue fuel run' c) m n := by
  cases c with
  | function ref => exact hc ref n rfl hm
  | word name =>
    refine Follows.bindAt (follows_valueOf name m n hm) fun v m' n' hv hm' => ?_
    cases v with
    | function ref =>
      obtain ⟨hg, rfl⟩ := get?_of_valueOf hv
      refine hc ref n' ?_ hm'
      rw [Machine.callee?, hg]
    | _ => exact follows_fail _ m' n' hm'
  | _ => exact follows_fail _ m n hm

omit hrun in
theorem followsAt_runIndexed (hm : Beside equal m n) {family : Family} {c : Value}
    (hc : family = .call → FollowsAt equal (callValue fuel run c) (callValue fuel run' c) m n) :
    FollowsAt equal (runIndexed fuel run pos family c) (runIndexed fuel run' pos family c) m n := by
  have hname : Follows equal (nameOf pos c) (nameOf pos c) := follows_nameOf pos c
  cases family with
  | push => exact follows_plain (follows_push c) m n hm
  | store =>
    refine Follows.bind follows_pop (fun value => hname.bind fun name => ?_) m n hm
    exact follows_plain (follows_bind name value)
  | storeKeep =>
    refine Follows.bind (follows_peek 0) (fun value => hname.bind fun name => ?_) m n hm
    exact follows_plain (follows_bind name value)
  | load =>
    refine Follows.bind hname (fun name => (follows_valueOf name).bind fun value => ?_) m n hm
    exact follows_plain (follows_push value)
  | call => exact hc rfl
  | attr =>
    refine Follows.bind follows_pop (fun value => hname.bind fun name => ?_) m n hm
    exact follows_plain (follows_setAttrs (·.insert name value))

/-- **An instruction is followed if the call is that it may be.** -/
theorem followsAt_runInstruction (hm : Beside equal m n)
    (hc : ∀ ref n, m.called? u i = some ref → Beside equal m n →
      FollowsAt equal (callFunction fuel run ref) (callFunction fuel run' ref) m n) :
    FollowsAt equal (runInstruction fuel run u pos i) (runInstruction fuel run' u pos i) m n := by
  cases i with
  | indexed family index =>
    unfold runInstruction
    cases hv : u.constants[index]? with
    | none =>
      simp only [hv]
      exact follows_fail _ m n hm
    | some c =>
      simp only [hv]
      refine followsAt_runIndexed hm ?_
      rintro rfl
      refine followsAt_callValue hm fun ref n hr => hc ref n ?_
      rw [Machine.called?, hv]
      exact hr
  | op o => exact follows_runOpcode hrun fuel pos o m n hm
  | jump => exact Follows.pure _ m n hm

end

/-! ## Units -/

theorem followsAt_advance {instruct instruct' : Instruction → Exec Flow} {next next' : Nat → Exec Flow}
    (hm : Beside equal m n) (hi : ∀ i, FollowsAt equal (instruct i) (instruct' i) m n)
    (hn : ∀ pos, Follows equal (next pos) (next' pos)) :
    FollowsAt equal (advance u pos instruct next) (advance u pos instruct' next') m n := by
  unfold advance
  dsimp only
  split
  · exact follows_fail _ m n hm
  · exact Follows.pure _ m n hm
  · exact Follows.bind (follows_isTaken _) (fun taken => hn _) m n hm
  · refine Follows.bindAt (hi _) fun flow m' n' _ hm' => ?_
    cases flow with
    | done => exact hn _ m' n' hm'
    | returned | broken | continued => exact Follows.pure _ m' n' hm'

theorem follows_runCode {go go' : CodeUnit → Nat → Exec Flow}
    (h : ∀ u pos, Follows equal (go u pos) (go' u pos)) (code : CodeRef) :
    Follows equal (do go (← unitOf code) 0) (do go' (← unitOf code) 0) :=
  (follows_unitOf code).bind fun u => h u 0

/-- Without any kept results, both machines run the same. -/
theorem follows_execute (fuel : Nat) (u : CodeUnit) (pos : Nat) :
    Follows True (execute fuel u pos) (execute fuel u pos) := by
  induction fuel generalizing u pos with
  | zero => exact .outOfFuel _
  | succ fuel ih =>
    intro m n hm
    rw [execute_succ]
    refine followsAt_advance hm (fun i => ?_) (ih u)
    have hrun := follows_runCode ih
    refine followsAt_runInstruction hrun hm fun ref n _ hm => ?_
    exact followsAt_callFunction hrun hm fun f v => not_answers (hm.both trivial)

/-- Without any kept results, both machines make the same call. -/
theorem Beside.call (hm : Beside True m n) (h : (m.call fuel ref).1 ≠ .error .outOfFuel) :
    (m.call fuel ref).1 = (n.call fuel ref).1 ∧
      Beside True (m.call fuel ref).2 (n.call fuel ref).2 :=
  followsAt_callFunction (follows_runCode (follows_execute fuel)) hm
    (fun _ _ => not_answers (hm.both trivial)) h

end BlockLang
