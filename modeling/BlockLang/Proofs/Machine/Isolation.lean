import BlockLang.Proofs.Machine.Compiling
import BlockLang.Proofs.Machine.Heights
import BlockLang.Proofs.Machine.Running

/-!
# Operands of the caller

There is one stack, and code that runs short of operands takes those of its caller. Calls, tries,
passes of a loop and runs at the top level remember a height and cut the stack back to it, which does
not bring back what was taken.

**Theorem (`frame`).** A piece of a run that gets by with its own operands (`GetsBy`) does the same
whatever lies below them, and leaves that as it was.

**Theorem (`keepsBelow`).** So a boundary gives its caller's operands back exactly, under that
condition; and it never leaves more operands than it promises, under no condition at all.
-/

namespace BlockLang

open Exec

variable {α : Type} {rest own : List Value} {m : Machine}

/-! ## Pieces that get by -/

/-- The error of a piece that needs more operands than there are. -/
def RuntimeError.isShortage : RuntimeError → Bool
  | stackUnderflow | wrongArity .. => true
  | _ => false

/-- The piece has no need of operands but its own: run with nothing below them, it never runs short,
not even where it would recover from that. -/
def Exec.GetsBy (x : Exec α) (m : Machine) (own : List Value) : Prop :=
  ∀ e ∈ (x.run.run { m with stack := own, raised := [] }).2.raised, e.isShortage = false

instance (x : Exec α) (m : Machine) (own : List Value) : Decidable (x.GetsBy m own) :=
  inferInstanceAs (Decidable (∀ e ∈ _, RuntimeError.isShortage e = false))

/-! ## Machines with more operands below -/

/-- The second machine has more operands below; otherwise the machines are the same. A shortage in the
first machine ends the comparison. -/
def isolation (rest : List Value) : Pairing where
  rest
  code := World.SameCode
  link _ _ c c' := c = c'
  escapes e := e.isShortage

/-- A block is compiled alike, whether its code is kept or not. -/
theorem compiled_isolation {w w' : World} (h : (isolation rest).Worlds w w') (items : List Value)
    (dynamic : Bool) :
    (isolation rest).Compiled (w.compile items dynamic) (w'.compile items dynamic) := by
  refine Pairing.compiled_compile (congrArg Config.cacheUnits h.code.config) h.code.cache
    (fun _ _ => rfl) (fun hv hc => ?_) h ?_ dynamic
  · obtain rfl := hc
    exact ⟨World.SameCode.keep hv _ _, rfl⟩
  · exact Pairing.compiled_compileNew World.SameCode.trans (fun h _ _ => World.SameCode.addUnit h _)
      h fun v _ => v.codesIn_true

theorem lawful_isolation (rest : List Value) : (isolation rest).Lawful where
  short := .inr ⟨rfl, fun _ _ _ => rfl⟩
  depth h := .inl (congrArg Config.maxDepth h.config.symm)
  congr := World.SameCode.trans
  addUser h _ _ := h.addUser _
  step hu := Pairing.steps_of_codesIn rfl id hu
  unit h hc := by
    obtain rfl := hc
    exact ⟨congrArg (·[_]?) h.units.symm, fun v _ => v.codesIn_true⟩
  known _ _ := rfl
  compiled {_ _ _ _ _ c? _} h hf hf' := by
    rw [h.callable?, hf] at hf'
    cases hf'
    cases c? with
    | none => exact .none
    | some c => exact .some rfl
  compile dynamic h _ := ⟨_, compiled_isolation h _ dynamic, fun _ => rfl⟩
  setCompiled ref h hc := by
    obtain rfl := hc
    exact ⟨h.setCompiled ref _, rfl⟩

theorem machines_isolation (m : Machine) (rest own : List Value) :
    (isolation rest).Machines { m with stack := own, raised := [] }
      { m with stack := own ++ rest } where
  world := .of_code Value.codesIn_true m.world ⟨rfl, rfl, rfl, rfl⟩
  stack := rfl
  operands v _ := v.codesIn_true
  attrs := rfl
  given e _ := e.2.codesIn_true
  output := rfl
  depth := rfl
  tryDepth := rfl
  history := nofun

/-- **A piece that gets by with its own operands leaves those below as they were**, and does what it
would do without them. -/
theorem frame {P : α → α → Prop} {x : Exec α} (hx : Sim (isolation rest).coupling P x x)
    (hown : x.GetsBy m own) :
    SameAnswer P (x.outcome { m with stack := own, raised := [] })
        (x.outcome { m with stack := own ++ rest }) ∧
      x.stackAfter { m with stack := own ++ rest } =
        x.stackAfter { m with stack := own, raised := [] } ++ rest := by
  have hlost : ¬ (isolation rest).Lost (x.run.run { m with stack := own, raised := [] }).2 :=
    Pairing.not_lost id fun e he => Bool.eq_false_iff.1 (hown e he)
  obtain ⟨hm, hr, -⟩ := hx.agrees (machines_isolation m rest own) hlost
  exact ⟨hr, hm.stack⟩

/-! ## Boundaries -/

/-- What becomes of the operands `rest` that lie below those of some code. -/
structure KeepsBelow (fuel : Nat) (m : Machine) (rest : List Value) : Prop where
  /-- Code that gets by leaves them, however it ends. -/
  code (unit : CodeUnit) (pos : Nat) (own : List Value) :
    let code := execute fuel unit pos
    code.GetsBy m own → ∃ top, code.stackAfter { m with stack := own ++ rest } = top ++ rest
  /-- A call that ends leaves one operand at most, and does so on top of them if it gets by with its
  arguments. -/
  call (ref : FunctionRef) (f : UserFunction) (code? : Option CodeRef) (args : List Value)
      (flow : Flow) :
    let call := callFunction fuel (runCode fuel) ref
    m.world.heap.callable? ref = some (.user f code?) → args.length = f.params.length →
    call.outcome { m with stack := args ++ rest } = .ok flow →
    (call.stackAfter { m with stack := args ++ rest }).length ≤ rest.length + 1 ∧
      (call.GetsBy m args → ∃ result? : Option Value,
        call.stackAfter { m with stack := args ++ rest } = result?.toList ++ rest)
  /-- A try whose body fails leaves its report, and below it no more than there was before; exactly
  that if the body gets by. -/
  attempt (body : Value) (report : Bool) (e : Error) :
    let inside := trying (runCode fuel) body
    let whole := attempt (runCode fuel) report
    inside.outcome { m with stack := rest } = .ok (.error (.error e)) →
    whole.outcome { m with stack := body :: rest } = .ok .done ∧
      ∃ left, whole.stackAfter { m with stack := body :: rest } =
          (if report then [.logical false] else []) ++ left ∧
        left.length ≤ rest.length ∧ (inside.GetsBy m [] → left = rest)
  /-- A run at the top level that fails leaves no more than there was before; exactly that if it gets
  by. -/
  run (items : List Value) (dynamic : Bool) (halt : Halt) :
    let run := runItems fuel items dynamic
    run.outcome { m with stack := rest } = .error halt →
    (run.stackAfter { m with stack := rest }).length ≤ rest.length ∧
      (run.GetsBy m [] → run.stackAfter { m with stack := rest } = rest)
  /-- A pass of a loop leaves no more than there was before, except on the way out of a function. It
  leaves what was there if it gets by, with nothing on top except on such a way out or on failure. -/
  pass (body : Value) :
    let pass := runPass (runCode fuel) body
    (∀ p, pass.outcome { m with stack := rest } = .ok p → p ≠ .stop .returned →
        (pass.stackAfter { m with stack := rest }).length ≤ rest.length) ∧
      (pass.GetsBy m [] → ∃ top, pass.stackAfter { m with stack := rest } = top ++ rest ∧
        ∀ p, pass.outcome { m with stack := rest } = .ok p → p ≠ .stop .returned → top = [])

theorem exists_toList_of_length_le_one {l : List α} (h : l.length ≤ 1) :
    ∃ a? : Option α, l = a?.toList := by
  rcases l with _ | ⟨a, _ | _⟩
  · exact ⟨none, rfl⟩
  · exact ⟨some a, rfl⟩
  · simp at h

/-- **Boundaries keep the operands of their caller** if the code inside gets by, and bound the height
of the stack in any case. -/
theorem keepsBelow (fuel : Nat) (m : Machine) (rest : List Value) : KeepsBelow fuel m rest := by
  have hS := lawful_isolation rest
  have hgo (u : CodeUnit) (_ : u.CodesIn (isolation rest).known) :
      Sim (isolation rest).coupling Eq (execute fuel u 0) (execute fuel u 0) :=
    Pairing.sim_execute hS fuel (fun v _ => v.codesIn_true) 0
  refine ⟨?code, ?call, ?attempt, ?run, ?pass⟩
  case code =>
    intro unit pos own code hown
    have hsim := Pairing.sim_execute hS fuel (u := unit) (fun v _ => v.codesIn_true) pos
    exact ⟨_, (frame hsim hown).2⟩
  case call =>
    intro ref f code? args flow call hf hargs hr
    refine ⟨length_callFunction hf ?_ hr, fun hown => ?_⟩
    · rw [List.length_append, hargs, Nat.add_comm]
    obtain ⟨hsame, hstack⟩ := frame (Pairing.sim_callFunction hS hgo fuel ref) hown
    have hlength := length_callFunction (n := 0)
      (m := { m with stack := args, raised := [] }) hf (hargs.trans (Nat.zero_add _).symm)
      (hsame.eq.trans hr)
    obtain ⟨result?, hresult⟩ := exists_toList_of_length_le_one hlength
    exact ⟨result?, hresult ▸ hstack⟩
  case attempt =>
    intro body report e inside whole he
    obtain ⟨hr, hstack⟩ := stack_attempt he report
    refine ⟨hr, _, hstack, length_below .., fun hown => ?_⟩
    obtain ⟨-, hbelow⟩ := frame (Pairing.sim_trying hS hgo body.codesIn_true) hown
    exact (congrArg (below rest.length) hbelow).trans (below_append_length _ rest)
  case run =>
    intro items dynamic halt run hr
    refine ⟨length_runItems hr, fun hown => ?_⟩
    obtain ⟨hsame, hstack⟩ :=
      frame (Pairing.sim_runItems hS fuel (fun v _ => v.codesIn_true) dynamic) hown
    have hlength := length_runItems (hsame.eq.trans hr)
    exact hstack.trans (by rw [List.length_eq_zero_iff.1 (Nat.le_zero.1 hlength), List.nil_append])
  case pass =>
    intro body pass
    refine ⟨fun p hp hn => length_runPass hp hn, fun hown => ?_⟩
    have hsim := (Pairing.sim_runPass hS hgo body.codesIn_true).mono fun _ _ h => h.1
    obtain ⟨hsame, hstack⟩ := frame hsim hown
    refine ⟨_, hstack, fun p hp hn => ?_⟩
    exact List.length_eq_zero_iff.1 (Nat.le_zero.1 (length_runPass (hsame.eq.trans hp) hn))

/-- Code that gets by inside each boundary, above one operand. -/
theorem keepsBelow_initial :
    let f : UserFunction := { params := ["a"], main := .block [.word "inc", .word "a"] false }
    let m : Machine := { world := ((World.initial {}).addUser f).2 }
    let ref : FunctionRef := ((World.initial {}).heap.addUser f).1
    let rest : List Value := [.integer 10]
    let failing : List Value := [.word "add", .integer 1, .integer 2, .word "size", .integer 5]
    (∃ result? : Option Value, (callFunction 100 (runCode 100) ref).stackAfter
        { m with stack := [.integer 1] ++ rest } = result?.toList ++ rest) ∧
      (∃ left, (attempt (runCode 100) true).stackAfter
          { m with stack := .block failing false :: rest } = [.logical false] ++ left ∧
        left = rest) ∧
      (runItems 100 failing false).stackAfter { m with stack := rest } = rest ∧
      ∃ top, (runPass (runCode 100) (.block [.integer 7] false)).stackAfter
        { m with stack := rest } = top ++ rest := by
  intro f m ref rest failing
  have h := keepsBelow 100 m rest
  let size : Error := .runtime (Value.wrongType "size" "a collection" (.integer 5))
  refine ⟨?call, ?attempt, ?run, ?pass⟩
  case call =>
    obtain ⟨code?, hf⟩ := exists_callable?_addUser (World.initial {}).heap f
    exact (h.call ref f code? [.integer 1] .done hf rfl (by decide +kernel)).2 (by decide +kernel)
  case attempt =>
    obtain ⟨-, left, hs, -, hrest⟩ :=
      h.attempt (.block failing false) true size (by decide +kernel)
    exact ⟨left, hs, hrest (by decide +kernel)⟩
  case run => exact (h.run failing false (.error size) (by decide +kernel)).2 (by decide +kernel)
  case pass =>
    obtain ⟨top, hs, -⟩ := (h.pass (.block [.integer 7] false)).2 (by decide +kernel)
    exact ⟨top, hs⟩

/-- A run that does not get by: `print` leaves nothing for `add`, which takes the operand from before
the run. That one is gone when the run has failed. -/
theorem run_takes_operand :
    let m : Machine := { Machine.initial {} with stack := [.integer 10] }
    let run := runSource 100 "add 1 print 6 size 5"
    (run.outcome m).isOk = false ∧ Value.sameAll (run.stackAfter m) [.integer 11] ∧
      run.stackAfter m ≠ m.stack := by
  intro m run
  have h : (run.outcome m).isOk = false ∧ Value.sameAll (run.stackAfter m) [.integer 11] := by
    decide +kernel
  refine ⟨h.1, h.2, fun hs => ?_⟩
  rw [hs] at h
  exact absurd h.2 (by decide)

end BlockLang
