import BlockLang.Machine.Run
import BlockLang.Proofs.Machine.Pieces

/-!
# What a call leaves of the bindings

A call of a user function saves the scope when it begins. Its imports and parameters are bound in the
scope of the caller, its body works on that scope, and at the end one of three scopes is left: the
saved one, the saved one with the exported names taken from the body, or that of the body with the
parameters put back.

**Theorem (`keepsScope`).** Which of the three it is depends only on how the body has ended, on whether
a try is active, and on whether the function is exportable. Within a scope, the binding and the arity of
a name go together: both come from the same side.

The body is arbitrary: nothing is assumed about the code that it runs, and so the calls, loops and tries
inside it need no cases of their own.
-/

namespace BlockLang

open Exec

/-! ## Scopes name by name -/

namespace Scope

/-- What a name is bound to, and the arity that it is called with. -/
def entry (s : Scope) (name : String) : Option Value × Option Nat :=
  (s.bindings.get? name, s.arities.get? name)

theorem entry_assign (s : Scope) (name : String) (value? : Option Value) (arity? : Option Nat)
    (other : String) :
    (s.assign name value? arity?).entry other =
      if other = name then (value?, arity?) else s.entry other := by
  by_cases h : other = name
  · subst h
    simp [entry, assign]
  · simp [entry, assign, h]

/-- **Putting names back** concerns these names only, and both tables of each. -/
theorem entry_restoreNames (s saved : Scope) (names : List String) (name : String) :
    (s.restoreNames saved names).entry name =
      if name ∈ names then saved.entry name else s.entry name := by
  induction names generalizing s with
  | nil => simp [restoreNames]
  | cons first names ih =>
    have hfirst : (s.restoreNames saved (first :: names)) =
        (s.restoreName saved first).restoreNames saved names := rfl
    rw [hfirst, ih, restoreName, entry_assign]
    by_cases h : name = first
    · subst h
      simp [entry]
    · simp [h]

theorem entry_takeName (s source : Scope) (first name : String) :
    (s.takeName source first).entry name =
      if name = first ∧ (source.entry name).1.isSome then source.entry name else s.entry name := by
  rw [takeName]
  cases hv : source.bindings.get? first with
  | none =>
    rw [if_neg]
    rintro ⟨rfl, hsome⟩
    simp [entry, hv] at hsome
  | some value =>
    rw [entry_assign]
    by_cases h : name = first
    · subst h
      simp [entry, hv]
    · simp [h]

/-- **Taking names over** concerns those of them that are bound in the source, and both tables of
each. -/
theorem entry_takeNames (s source : Scope) (names : List String) (name : String) :
    (s.takeNames source names).entry name =
      if name ∈ names ∧ (source.entry name).1.isSome then source.entry name else s.entry name := by
  induction names generalizing s with
  | nil => simp [takeNames]
  | cons first names ih =>
    have hfirst : (s.takeNames source (first :: names)) =
        (s.takeName source first).takeNames source names := rfl
    rw [hfirst, ih, entry_takeName]
    by_cases h : name = first
    · subst h
      by_cases hsome : (source.entry name).1.isSome <;> simp [hsome]
    · simp [h]

end Scope

/-! ## Entering and leaving a block -/

variable {run : CodeRef → Exec Flow} {m : Machine}

/-- The machine in which a block begins: what it asks for is bound, and its arguments are taken. -/
def BlockOptions.enter (o : BlockOptions) (m : Machine) : Machine :=
  let bindings := o.imports ++ o.params.reverse.zip m.stack
  { m with
    stack := m.stack.drop o.params.length
    world := bindings.foldl (fun w (name, v) => w.set name v) m.world }

/-- A block that has its arguments can bind all of its parameters. -/
theorem run_bindParameters {params : List String} (h : params.length ≤ m.stack.length) :
    (bindParameters params).run.run m =
      (.ok ⟨⟩, { m with
        stack := m.stack.drop params.length
        world := (params.reverse.zip m.stack).foldl (fun w (name, v) => w.set name v) m.world }) := by
  rw [← List.length_reverse] at h ⊢
  rw [bindParameters]
  generalize params.reverse = names at h
  induction names generalizing m with
  | nil => rfl
  | cons name names ih =>
    obtain ⟨world, stack, attrs, output, depth, tryDepth, raised, fresh, built⟩ := m
    cases stack with
    | nil => simp at h
    | cons v stack =>
      have hrest : names.length ≤ stack.length := by simpa using h
      rw [List.forM_eq_forM, List.forM_cons, run_bind]
      exact ih (m := ⟨world.set name v, stack, attrs, output, depth, tryDepth, raised, fresh, built⟩) hrest

theorem run_keepTop (base : Nat) (m : Machine) :
    ∃ stack, (keepTop base).run.run m = (.ok ⟨⟩, { m with stack }) := by
  rw [keepTop, run_bind, run_height]
  by_cases h : base < m.stack.length
  · simp only [if_pos h]
    obtain ⟨world, stack, attrs, output, depth, tryDepth, raised, fresh, built⟩ := m
    cases stack with
    | nil => simp at h
    | cons top stack => exact ⟨_, rfl⟩
  · simp only [if_neg h]
    exact ⟨_, rfl⟩

theorem run_remember (key : MemoKey) (base : Nat) (m : Machine) :
    ∃ memo, (remember key base).run.run m = (.ok ⟨⟩, { m with world.memo := memo }) := by
  obtain ⟨world, stack, attrs, output, depth, tryDepth, raised, fresh, built⟩ := m
  by_cases h : base < stack.length
  · cases stack with
    | nil => simp at h
    | cons top stack =>
      refine ⟨world.memo.insert key top, ?_⟩
      rw [remember, run_bind]
      change (if base < (top :: stack).length then _ else _ : Exec Unit).run.run _ = _
      rw [if_pos h]
      rfl
  · refine ⟨world.memo, ?_⟩
    rw [remember, run_bind]
    change (if base < stack.length then _ else _ : Exec Unit).run.run _ = _
    rw [if_neg h]
    rfl

/-- Looking a kept result up changes nothing but the order of use, and that only if there is one. -/
theorem run_findKept (key? : Option MemoKey) (m : Machine) :
    ∃ memo, (findKept key?).run.run m =
        (.ok (key?.bind m.world.memo.find?), { m with world.memo := memo }) ∧
      (key?.bind m.world.memo.find? = none → memo = m.world.memo) := by
  cases key? with
  | none => exact ⟨m.world.memo, rfl, fun _ => rfl⟩
  | some key =>
    have hrun : (findKept (some key)).run.run m =
        (.ok (m.world.memo.get? key).1, { m with world.memo := (m.world.memo.get? key).2 }) := rfl
    rw [hrun, Memo.get?, Option.bind_some]
    cases m.world.memo.find? key with
    | none => exact ⟨_, rfl, fun _ => rfl⟩
    | some v => exact ⟨_, rfl, fun h => absurd h (Option.some_ne_none v)⟩

/-- The scope that a block leaves behind when it is over, whether or not it has come to its end. -/
def BlockOptions.scopeLeft (o : BlockOptions) (ended : Bool) (saved now : Scope) : Scope :=
  if ended || o.inTry then o.scopeAfter saved now else saved

variable {o : BlockOptions}

variable (run) in
/-- **The body of a function** ends the call as it ends itself, and the scope is left accordingly. The
attributes are those that it leaves. -/
theorem run_inScope (ho : o.inPlace = false) (hf : o.functionBoundary = true) (code : Exec CodeRef)
    (key? : Option MemoKey) (h : o.params.length ≤ m.stack.length) :
    let body := (descend run code).run.run (o.enter m)
    let whole := (inScope run o code key?).run.run m
    whole.1 = body.1.map (fun _ => .done) ∧
      whole.2.world.scope = o.scopeLeft body.1.isOk m.world.scope body.2.world.scope ∧
      whole.2.attrs = body.2.attrs := by
  intro body whole
  let bound : Machine :=
    { m with world := o.imports.foldl (fun w (name, v) => w.set name v) m.world }
  have hparams : (bindParameters o.params).run.run bound = (.ok ⟨⟩, o.enter m) := by
    rw [run_bindParameters (m := bound) h, BlockOptions.enter, List.foldl_append]
  have hbody : (observe (descend run code)).run.run (o.enter m) = (.ok body.1, body.2) :=
    run_observe ..
  have hwhole : whole = (inScope run o code key?).run.run m := rfl
  rw [inScope, run_bind_of_ok (run_get m), run_bind_of_ok (run_bindAll m o.imports),
    run_bind_of_ok hparams, run_bind_of_ok (run_height _), run_bind_of_ok hbody] at hwhole
  rw [hwhole]
  generalize (o.enter m).stack.length = base
  rcases body with ⟨halt | flow, after⟩
  · simp only [ho, Bool.false_eq_true, if_false]
    exact ⟨rfl, rfl, rfl⟩
  · simp only [ho, hf, Bool.false_eq_true, if_false, if_true]
    obtain ⟨stack, hkeep⟩ := run_keepTop base after
    rw [run_bind_of_ok hkeep]
    have hleave (x : Exec Flow) : (modifyScope (o.scopeAfter m.world.scope) >>= fun _ => x).run.run
        { after with stack } = x.run.run { after with
          stack, world.scope := o.scopeAfter m.world.scope after.world.scope } := rfl
    rw [hleave]
    cases key? with
    | none => exact ⟨rfl, rfl, rfl⟩
    | some key =>
      obtain ⟨memo, hremember⟩ := run_remember key base { after with
        stack, world.scope := o.scopeAfter m.world.scope after.world.scope }
      dsimp only
      rw [run_bind_of_ok hremember]
      exact ⟨rfl, rfl, rfl⟩

/-! ## Calls -/

variable {fuel : Nat} {ref : FunctionRef} {f : UserFunction} {c? : Option CodeRef}

/-- The options that a call of a function runs its body with. -/
def UserFunction.options (f : UserFunction) (ref : FunctionRef) (inTry : Bool) : BlockOptions where
  params := f.params
  imports := f.imports
  exports := f.exports
  inTry
  exportable := f.exportable
  functionBoundary := true
  memoize := if f.memoize then some ref else none

/-- The machine in which the body of a function begins: the imports and the parameters are bound, and
the arguments are taken. -/
def Machine.entered (m : Machine) (f : UserFunction) : Machine :=
  let bindings := f.imports ++ f.params.reverse.zip m.stack
  { m with
    attrs := []
    stack := m.stack.drop f.params.length
    world := bindings.foldl (fun w (name, v) => w.set name v) m.world }

/-- The run of the body of a function that is called in `m`. -/
def Machine.body (m : Machine) (fuel : Nat) (ref : FunctionRef) (f : UserFunction) :
    Except Halt Flow × Machine :=
  (descend (runCode fuel) (functionCode ref)).run.run (m.entered f)

/-- The run of a call in `m`. -/
def Machine.call (m : Machine) (fuel : Nat) (ref : FunctionRef) : Except Halt Flow × Machine :=
  (callFunction fuel (runCode fuel) ref).run.run m

/-- The key that the result of a call is kept under, if it is kept at all. -/
def Machine.callKey? (m : Machine) (ref : FunctionRef) (f : UserFunction) : Option MemoKey :=
  if f.memoize then
    some (ref, Value.argumentFingerprint m.world.heap (m.stack.take f.params.length).reverse)
  else none

/-- The result kept for a call with the arguments on the stack. -/
def Machine.kept? (m : Machine) (ref : FunctionRef) (f : UserFunction) : Option Value :=
  (m.callKey? ref f).bind m.world.memo.find?

/-- A call in `m` gets as far as its body. -/
structure Machine.Enters (m : Machine) (ref : FunctionRef) (f : UserFunction) : Prop where
  operands : f.params.length ≤ m.stack.length
  notKept : m.kept? ref f = none
  depth : m.depth < m.world.config.maxDepth

/-- The function that a call of a constant is a call of. -/
def Machine.callee? (m : Machine) : Value → Option FunctionRef
  | .function ref => some ref
  | .word name =>
    match m.world.get? name with
    | some (.function ref) => some ref
    | _ => none
  | _ => none

variable (run fuel) in
theorem run_callValue {c : Value} (hr : m.callee? c = some ref) :
    (callValue fuel run c).run.run m = (callFunction fuel run ref).run.run m := by
  unfold Machine.callee? at hr
  split at hr
  · obtain rfl := Option.some.inj hr
    rfl
  · next name =>
    split at hr
    · next target hv =>
      obtain rfl := Option.some.inj hr
      have hvalue : (valueOf name).run.run m = (.ok (.function target), m) := by
        rw [valueOf, run_bind_of_ok (run_get m)]
        dsimp only
        rw [hv]
        rfl
      rw [callValue, run_bind_of_ok hvalue]
    · cases hr
  · cases hr

variable (run fuel) in
/-- A call of a function that lacks operands. -/
theorem run_callFunction_of_lt (hf : m.world.heap.callable? ref = some (.user f c?))
    (h : m.stack.length < f.params.length) :
    ∃ raised, (callFunction fuel run ref).run.run m =
      (.error (.error (.runtime (.wrongArity s!"function/{f.params.length}" f.params.length
        m.stack.length))), { m with raised }) := by
  have hlt : m.stack.length < (Callable.user f c?).arity := h
  rw [callFunction, run_bind_of_ok (run_heap m)]
  simp only [hf]
  rw [run_bind_of_ok (run_height m), if_pos hlt]
  exact ⟨_, rfl⟩

theorem callKey?_eq (inTry : Bool) (m : Machine) :
    (f.options ref inTry).memoize.map (fun callee =>
      (callee, Value.argumentFingerprint m.world.heap
        (m.stack.take (f.options ref inTry).params.length).reverse)) = m.callKey? ref f := by
  rw [UserFunction.options, Machine.callKey?]
  cases f.memoize <;> rfl

/-- With its operands there, a call is answered by a kept result, or refused as too deep, or it runs the
body. -/
theorem run_runScoped (inTry : Bool) (code : Exec CodeRef) (h : f.params.length ≤ m.stack.length) :
    ∃ memo, (runScoped run (f.options ref inTry) code).run.run m =
      match m.kept? ref f with
      | some v =>
        (.ok .done, { m with world.memo := memo, stack := v :: m.stack.drop f.params.length })
      | none =>
        if m.world.config.maxDepth ≤ m.depth then
          (fail (.stackOverflow m.world.config.maxDepth)).run.run m
        else (inScope run (f.options ref inTry) code (m.callKey? ref f)).run.run m := by
  have hnlt : ¬ m.stack.length < (f.options ref inTry).params.length := Nat.not_lt.2 h
  obtain ⟨memo, hfind, hmemo⟩ := run_findKept (m.callKey? ref f) m
  refine ⟨memo, ?_⟩
  rw [runScoped, run_bind_of_ok (run_get m)]
  dsimp only
  rw [if_neg hnlt]
  rw [callKey?_eq, run_bind_of_ok hfind]
  change (match m.kept? ref f with | some v => _ | none => _ : Exec Flow).run.run _ = _
  cases hkept : m.kept? ref f with
  | some v => rfl
  | none =>
    rw [hmemo hkept]
    by_cases hdeep : m.world.config.maxDepth ≤ m.depth
    · simp only [if_pos hdeep]
      rfl
    · simp only [if_neg hdeep]

theorem run_runUser (m : Machine) :
    (runUser run ref f).run.run m =
      (runScoped run (f.options ref (0 < m.tryDepth)) (functionCode ref)).run.run m := by
  rw [runUser, run_bind_of_ok (run_get m)]
  rfl

variable (run fuel) in
/-- A call of a function that has its operands. The attributes given to it are dropped first. -/
theorem run_callFunction_of_le (hf : m.world.heap.callable? ref = some (.user f c?))
    (h : f.params.length ≤ m.stack.length) :
    ∃ memo, (callFunction fuel run ref).run.run m =
      match m.kept? ref f with
      | some v => (.ok .done, { m with
          world.memo := memo, stack := v :: m.stack.drop f.params.length, attrs := [] })
      | none =>
        if m.world.config.maxDepth ≤ m.depth then
          (fail (.stackOverflow m.world.config.maxDepth)).run.run { m with attrs := [] }
        else
          (inScope run (f.options ref (0 < m.tryDepth)) (functionCode ref)
            (m.callKey? ref f)).run.run { m with attrs := [] } := by
  have hnlt : ¬ m.stack.length < (Callable.user f c?).arity := Nat.not_lt.2 h
  rw [callFunction, run_bind_of_ok (run_heap m)]
  simp only [hf]
  rw [run_bind_of_ok (run_height m), if_neg hnlt, run_bind_of_ok (run_clearAttrs m), run_runUser]
  exact run_runScoped (m := { m with attrs := [] }) (f := f) (0 < m.tryDepth) (functionCode ref) h

/-- What a call of a user function in `m` leaves of the bindings. -/
structure KeepsScope (fuel : Nat) (m : Machine) (ref : FunctionRef) (f : UserFunction) : Prop where
  /-- A call that lacks operands is refused, with the scope as it was. -/
  missing :
    m.stack.length < f.params.length →
    (m.call fuel ref).1 = .error (.error (.runtime
        (.wrongArity s!"function/{f.params.length}" f.params.length m.stack.length))) ∧
      (m.call fuel ref).2.world.scope = m.world.scope
  /-- A call answered by a kept result leaves the scope as it was. -/
  kept (v : Value) :
    f.params.length ≤ m.stack.length → m.kept? ref f = some v →
    (m.call fuel ref).1 = .ok .done ∧ (m.call fuel ref).2.world.scope = m.world.scope
  /-- A call that nests too deep is refused, with the scope as it was. -/
  tooDeep :
    f.params.length ≤ m.stack.length → m.kept? ref f = none →
    m.world.config.maxDepth ≤ m.depth →
    (m.call fuel ref).1 =
        .error (.error (.runtime (.stackOverflow m.world.config.maxDepth))) ∧
      (m.call fuel ref).2.world.scope = m.world.scope
  /-- Any other call ends or fails as its body does. -/
  ends : m.Enters ref f → (m.call fuel ref).1 = (m.body fuel ref f).1.map (fun _ => .done)
  /-- After an end, or a failure inside of a try, the exported names that the body has bound are as in
  the body, and all others as before. -/
  exporting :
    let before := m.world.scope
    let inside := (m.body fuel ref f).2.world.scope
    m.Enters ref f → f.exportable = false → (m.body fuel ref f).1.isOk ∨ 0 < m.tryDepth →
    ∀ name, (m.call fuel ref).2.world.scope.entry name =
      if name ∈ f.exports ∧ (inside.bindings.get? name).isSome then inside.entry name
      else before.entry name
  /-- If the function is exportable, the parameters are as before, and all others as in the body. -/
  exportable :
    let before := m.world.scope
    let inside := (m.body fuel ref f).2.world.scope
    m.Enters ref f → f.exportable = true → (m.body fuel ref f).1.isOk ∨ 0 < m.tryDepth →
    ∀ name, (m.call fuel ref).2.world.scope.entry name =
      if name ∈ f.params then before.entry name else inside.entry name
  /-- A failure outside of a try leaves the scope as it was. -/
  failing :
    m.Enters ref f → (m.body fuel ref f).1.isOk = false → m.tryDepth = 0 →
    (m.call fuel ref).2.world.scope = m.world.scope

/-- A call that gets as far as its body ends as the body does, and leaves the scope accordingly. -/
theorem call_of_enters (hf : m.world.heap.callable? ref = some (.user f c?)) (h : m.Enters ref f) :
    let before := m.world.scope
    let inside := (m.body fuel ref f).2.world.scope
    (m.call fuel ref).1 = (m.body fuel ref f).1.map (fun _ => .done) ∧
      (m.call fuel ref).2.world.scope =
        if (m.body fuel ref f).1.isOk ∨ 0 < m.tryDepth then
          if f.exportable then inside.restoreNames before f.params
          else before.takeNames inside f.exports
        else before := by
  intro before inside
  obtain ⟨memo, hrun⟩ := run_callFunction_of_le (runCode fuel) fuel hf h.operands
  simp only [h.notKept, if_neg (Nat.not_le.2 h.depth)] at hrun
  obtain ⟨hanswer, hscope, -⟩ := run_inScope (runCode fuel) (m := { m with attrs := [] })
    (o := f.options ref (0 < m.tryDepth)) rfl rfl (functionCode ref) (m.callKey? ref f) h.operands
  rw [← hrun] at hanswer hscope
  refine ⟨hanswer, hscope.trans ?_⟩
  simp only [BlockOptions.scopeLeft, UserFunction.options, Bool.or_eq_true, decide_eq_true_eq]
  rfl

/-- **Every call of a user function keeps the scope of its caller** up to what it exports. -/
theorem keepsScope (fuel : Nat) (m : Machine) (ref : FunctionRef) {f : UserFunction}
    {c? : Option CodeRef} (hf : m.world.heap.callable? ref = some (.user f c?)) :
    KeepsScope fuel m ref f := by
  refine ⟨?missing, ?kept, ?tooDeep, ?ends, ?exporting, ?exportable, ?failing⟩
  case missing =>
    intro hlt
    obtain ⟨raised, hrun⟩ := run_callFunction_of_lt (runCode fuel) fuel hf hlt
    rw [Machine.call, hrun]
    exact ⟨rfl, rfl⟩
  case kept =>
    intro v hle hkept
    obtain ⟨memo, hrun⟩ := run_callFunction_of_le (runCode fuel) fuel hf hle
    rw [Machine.call, hrun, hkept]
    exact ⟨rfl, rfl⟩
  case tooDeep =>
    intro hle hkept hdeep
    obtain ⟨memo, hrun⟩ := run_callFunction_of_le (runCode fuel) fuel hf hle
    simp only [hkept, if_pos hdeep] at hrun
    rw [Machine.call, hrun]
    exact ⟨rfl, rfl⟩
  case ends => exact fun h => (call_of_enters hf h).1
  case exporting =>
    intro before inside h hx hover name
    rw [(call_of_enters hf h).2, if_pos hover, if_neg (by simp [hx])]
    exact Scope.entry_takeNames before inside f.exports name
  case exportable =>
    intro before inside h hx hover name
    rw [(call_of_enters hf h).2, if_pos hover, if_pos hx]
    exact Scope.entry_restoreNames inside before f.params name
  case failing =>
    intro h hfailed hnotry
    rw [(call_of_enters hf h).2, if_neg]
    simp [hfailed, hnotry]

/-- A call that fails inside of a try: its export is taken over, and its parameter and its other
bindings are gone. -/
theorem keepsScope_try :
    let f : UserFunction := {
      params := ["x"]
      main := .block [.label "a", .word "x", .label "b", .integer 2, .word "size", .integer 5] false
      exports := ["a"] }
    let ref : FunctionRef := ((World.initial {}).heap.addUser f).1
    let m : Machine := {
      world := ((World.initial {}).addUser f).2.set "x" (.integer 10)
      stack := [.integer 1]
      tryDepth := 1 }
    let inside := (m.body 100 ref f).2.world.scope
    let after := (m.call 100 ref).2.world.scope
    (m.call 100 ref).1.isOk = false ∧
      after.entry "a" = inside.entry "a" ∧ (inside.bindings.get? "a").isSome ∧
      after.entry "b" = m.world.scope.entry "b" ∧ (inside.bindings.get? "b").isSome ∧
      after.entry "x" = m.world.scope.entry "x" := by
  intro f ref m inside after
  obtain ⟨c?, hf⟩ := exists_callable?_addUser (World.initial {}).heap f
  have h := keepsScope 100 m ref hf
  have hruns : m.depth < m.world.config.maxDepth ∧ (m.body 100 ref f).1.isOk = false ∧
    (inside.bindings.get? "a").isSome ∧ (inside.bindings.get? "b").isSome := by decide +kernel
  obtain ⟨hdepth, hfails, ha, hb⟩ := hruns
  have henters : m.Enters ref f := ⟨Nat.le_refl 1, rfl, hdepth⟩
  have hname := h.exporting henters rfl (.inr Nat.one_pos)
  refine ⟨?_, ?_, ha, ?_, hb, ?_⟩
  · rw [h.ends henters]
    cases hbody : (m.body 100 ref f).1 with
    | error halt => rfl
    | ok flow => simp [hbody, Except.isOk, Except.toBool] at hfails
  · exact (hname "a").trans (if_pos ⟨by decide, ha⟩)
  · exact (hname "b").trans (if_neg fun hn => absurd hn.1 (by decide))
  · exact (hname "x").trans (if_neg fun hn => absurd hn.1 (by decide))

end BlockLang
