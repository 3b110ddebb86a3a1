import BlockLang.Machine.Run
import BlockLang.Proofs.Machine.Pieces

/-!
# How many operands the boundaries of a run leave

A call of a function, a try, a pass of a loop and a run at the top level remember how many operands
there were, and cut the stack back to that height. So they bound the height of the stack at their end,
whatever the code inside has done.

**Theorem (`length_callFunction`).** A call of a user function that ends leaves at most one operand more
than there were below its arguments. `stack_attempt`, `length_runPass` and `length_runItems` are about
the other boundaries.
-/

namespace BlockLang

open Exec

variable {α β : Type} {run : CodeRef → Exec Flow}

theorem length_below (base : Nat) (stack : List Value) : (below base stack).length ≤ base := by
  rw [below, List.length_drop]
  omega

theorem below_append_length (top rest : List Value) : below rest.length (top ++ rest) = rest := by
  simp [below]

/-! ## Pieces that end -/

/-- How a piece ends. -/
def Exec.outcome (x : Exec α) (m : Machine) : Except Halt α := (x.run.run m).1

/-- The operands that a piece leaves. -/
def Exec.stackAfter (x : Exec α) (m : Machine) : List Value := (x.run.run m).2.stack

/-- From a stack with `P`, the piece ends with an answer and a stack that have `Q`, if it does not
halt. -/
def Exec.Ensures (P : List Value → Prop) (x : Exec α) (Q : α → List Value → Prop) : Prop :=
  ∀ m a m', P m.stack → x.run.run m = (.ok a, m') → Q a m'.stack

namespace Exec.Ensures

variable {P : List Value → Prop} {Q : α → List Value → Prop} {R : β → List Value → Prop}

protected theorem bind {x : Exec α} {f : α → Exec β} (hx : Ensures P x Q)
    (hf : ∀ a, Ensures (Q a) (f a) R) : Ensures P (x >>= f) R := by
  intro m b m' hm h
  rw [run_bind] at h
  revert h
  rcases hr : x.run.run m with ⟨e | a, m₁⟩ <;> intro h
  · cases h
  · exact hf a m₁ b m' (hx m a m₁ hm hr) h

protected theorem pure {a : α} (h : ∀ s, P s → Q a s) : Ensures P (pure a) Q := by
  intro m b m' hm hr
  cases hr
  exact h _ hm

protected theorem throw (halt : Halt) : Ensures P (throw halt) Q := by
  intro m b m' hm hr
  cases hr

protected theorem fail (e : RuntimeError) : Ensures P (fail e) Q := by
  intro m b m' hm hr
  cases hr

protected theorem fail_bind {P : List Value → Prop} (e : RuntimeError) (f : β → Exec α) :
    Ensures P (Exec.fail e >>= f) Q := by
  intro m b m' hm hr
  cases hr

protected theorem modify {Q : PUnit → List Value → Prop} {f : Machine → Machine}
    (h : ∀ m, P m.stack → Q ⟨⟩ (f m).stack) : Ensures P (modify f) Q := by
  intro m b m' hm hr
  cases hr
  exact h m hm

/-- Looking at the machine. -/
protected theorem get {f : Machine → Exec α} (h : ∀ m, P m.stack → Ensures (· = m.stack) (f m) Q) :
    Ensures P (get >>= f) Q := by
  intro m a m' hm hr
  exact h m hm m a m' rfl hr

/-- What holds of a stack may not be about it at all. -/
protected theorem assume {p : Prop} {x : Exec α} (hp : ∀ s, P s → p) (h : p → Ensures P x Q) :
    Ensures P x Q := fun m a m' hm hr => h (hp _ hm) m a m' hm hr

/-- Nothing is known about the stack afterwards. -/
protected theorem any (x : Exec α) : Ensures P x (fun _ _ => True) := fun _ _ _ _ _ => trivial

protected theorem ite {c : Prop} [Decidable c] {x y : Exec α} (hx : c → Ensures P x Q)
    (hy : ¬ c → Ensures P y Q) : Ensures P (if c then x else y) Q := by
  by_cases hc : c
  · rw [if_pos hc]
    exact hx hc
  · rw [if_neg hc]
    exact hy hc

protected theorem mono {P' : List Value → Prop} {Q' : α → List Value → Prop} {x : Exec α}
    (h : Ensures P x Q) (hP : ∀ s, P' s → P s) (hQ : ∀ a s, Q a s → Q' a s) : Ensures P' x Q' :=
  fun m a m' hm hr => hQ a _ (h m a m' (hP _ hm) hr)

end Exec.Ensures

/-! ## Calls -/

theorem ensures_modifyWorld (P : List Value → Prop) (f : World → World) :
    Ensures P (modifyWorld f) (fun _ => P) := .modify fun _ h => h

theorem ensures_pop (n : Nat) :
    Ensures (fun s => s.length = n + 1) pop (fun _ s => s.length = n) := by
  refine .get fun m hm => ?_
  revert hm
  rcases m.stack with _ | ⟨v, stack⟩ <;> intro hm
  · exact .fail _
  · refine .bind (Q := fun _ s => s = stack) (.modify fun _ _ => rfl) fun _ => .pure fun s hs => ?_
    rw [hs]
    exact Nat.succ.inj hm

theorem ensures_bindParameters (n : Nat) (params : List String) :
    Ensures (fun s => s.length = n + params.length) (bindParameters params)
      (fun _ s => s.length = n) := by
  have h (l : List String) : Ensures (fun s => s.length = n + l.length)
      (l.forM fun name => do Exec.bind name (← pop)) (fun _ s => s.length = n) := by
    induction l with
    | nil => exact .pure fun _ h => h
    | cons name l ih =>
      refine .bind (Q := fun _ s => s.length = n + l.length) ?_ fun _ => ih
      exact (ensures_pop (n + l.length)).bind fun v => ensures_modifyWorld _ _
  simpa [bindParameters] using h params.reverse

theorem ensures_height (P : List Value → Prop) :
    Ensures P height (fun h s => P s ∧ s.length = h) :=
  .get fun m hm => .pure fun s hs => by
    rw [hs]
    exact ⟨hm, rfl⟩

theorem ensures_keepTop (base : Nat) :
    Ensures (fun _ => True) (keepTop base) (fun _ s => s.length ≤ base + 1) := by
  refine (ensures_height _).bind fun h => .ite (fun _ => ?_) fun hle => .pure fun s hs => ?_
  · refine (Ensures.any _).bind fun top => ?_
    refine .bind (Q := fun _ s => s.length ≤ base) (.modify fun m _ => length_below ..) fun _ => ?_
    exact .modify fun m hm => Nat.succ_le_succ hm
  · omega

theorem ensures_remember (P : List Value → Prop) (key : MemoKey) (base : Nat) :
    Ensures P (remember key base) (fun _ => P) := by
  refine .get fun m hm => .ite (fun _ => ?_) fun _ => .pure fun s hs => hs ▸ hm
  split
  · exact .modify fun n hn => hn ▸ hm
  · exact .pure fun s hs => hs ▸ hm

/-- **A function leaves at most one operand**, whatever its code does. -/
theorem ensures_inScope {o : BlockOptions} (ho : o.functionBoundary = true) (code : Exec CodeRef)
    (key? : Option MemoKey) (n : Nat) :
    Ensures (fun s => s.length = n + o.params.length) (inScope run o code key?)
      (fun _ s => s.length ≤ n + 1) := by
  refine .get fun m hm => (ensures_modifyWorld _ _).bind fun _ => ?_
  refine .bind (Q := fun _ s => s.length = n) ?_ fun _ => (ensures_height _).bind fun base => ?_
  · exact (ensures_bindParameters n o.params).mono (fun s hs => hs ▸ hm) fun _ _ h => h
  refine .assume (p := base = n) (fun s hs => hs.2.symm.trans hs.1) fun hb => ?_
  subst hb
  refine (Ensures.any _).bind fun outcome => ?_
  cases outcome with
  | error halt =>
    refine .ite (fun _ => .throw _) fun _ => ?_
    exact (ensures_modifyWorld _ _).bind fun _ => .throw _
  | ok flow =>
    refine .ite (fun _ => (ensures_keepTop base).bind fun _ => ?_) fun hn => absurd ho hn
    have hend {x : Exec Unit} (hx : Ensures (fun s => s.length ≤ base + 1) x
        fun _ s => s.length ≤ base + 1) :
        Ensures (fun s => s.length ≤ base + 1)
          (do
            x
            return if o.functionBoundary then Flow.done else flow)
          (fun _ s => s.length ≤ base + 1) :=
      hx.bind fun _ => .pure fun _ h => h
    cases key? with
    | some key =>
      have hkey := hend (ensures_remember _ key base)
      exact .ite (fun _ => hkey) fun _ => (ensures_modifyWorld _ _).bind fun _ => hkey
    | none =>
      have hnone := hend (x := pure ()) (.pure fun _ h => h)
      exact .ite (fun _ => hnone) fun _ => (ensures_modifyWorld _ _).bind fun _ => hnone

theorem ensures_findKept (P : List Value → Prop) (key? : Option MemoKey) :
    Ensures P (findKept key?) (fun _ => P) := by
  cases key? with
  | none => exact .pure fun _ h => h
  | some key =>
    intro m v? m' hm hr
    cases hr
    exact hm

theorem ensures_runScoped {o : BlockOptions} (ho : o.functionBoundary = true)
    (code : Exec CodeRef) (n : Nat) :
    Ensures (fun s => s.length = n + o.params.length) (runScoped run o code)
      (fun _ s => s.length ≤ n + 1) := by
  refine .get fun m hm => .ite (fun _ => .fail_bind _ _) fun _ => ?_
  refine (ensures_findKept _ _).bind fun known? => ?_
  cases known? with
  | some v =>
    refine .bind (Q := fun _ s => s.length ≤ n + 1) (.modify fun _ _ => ?_) fun _ =>
      .pure fun _ h => h
    rw [List.length_cons, List.length_drop]
    omega
  | none =>
    refine .ite (fun _ => .fail_bind _ _) fun _ => ?_
    exact (ensures_inScope ho code _ n).mono (fun s hs => hs ▸ hm) fun _ _ h => h

/-- **A call that ends leaves at most one operand in the place of its arguments.** -/
theorem length_callFunction {fuel : Nat} {ref : FunctionRef} {f : UserFunction}
    {c? : Option CodeRef} {m : Machine} {flow : Flow} {n : Nat}
    (hf : m.world.heap.callable? ref = some (.user f c?))
    (hn : m.stack.length = n + f.params.length)
    (h : (callFunction fuel run ref).outcome m = .ok flow) :
    ((callFunction fuel run ref).stackAfter m).length ≤ n + 1 := by
  rw [outcome, callFunction, run_bind, run_heap] at h
  rw [stackAfter, callFunction, run_bind, run_heap]
  simp only [hf] at h ⊢
  have hcall : Ensures (fun s => s.length = n + f.params.length)
      (do
        let available ← height
        if available < f.params.length then
          fail (.wrongArity (Callable.user f c?).description f.params.length available)
        clearAttrs
        runUser run ref f)
      (fun _ s => s.length ≤ n + 1) := by
    refine (ensures_height _).bind fun available => .ite (fun _ => .fail_bind _ _) fun _ => ?_
    refine .bind (Q := fun _ s => s.length = n + f.params.length) (.modify fun _ h => h.1)
      fun _ => .get fun m hm => ?_
    exact (ensures_runScoped rfl (functionCode ref) n).mono (fun s hs => hs ▸ hm) fun _ _ h => h
  exact hcall m flow _ hn (Prod.ext h rfl)

/-! ## Tries, passes and runs -/

/-- **A try that recovers leaves what is left of the operands from before**, and its report. -/
theorem stack_attempt {body : Value} {m : Machine} {e : Error} {rest : List Value}
    (h : (trying run body).outcome { m with stack := rest } = .ok (.error (.error e)))
    (report : Bool) :
    (attempt run report).outcome { m with stack := body :: rest } = .ok .done ∧
      (attempt run report).stackAfter { m with stack := body :: rest } =
        (if report then [.logical false] else []) ++
          below rest.length ((trying run body).stackAfter { m with stack := rest }) := by
  have htrying : (trying run body).run.run { m with stack := rest } = (.ok (.error (.error e)), _) :=
    Prod.ext h rfl
  simp only [outcome, stackAfter, attempt, run_bind, run_pop, run_height]
  rw [htrying]
  cases report <;> exact ⟨rfl, rfl⟩

/-- **A pass leaves no more operands than there were**, except on the way out of a function. -/
theorem length_runPass {body : Value} {m : Machine} {pass : Pass}
    (h : (runPass run body).outcome m = .ok pass) (hp : pass ≠ .stop .returned) :
    ((runPass run body).stackAfter m).length ≤ m.stack.length := by
  have hpass : Ensures (fun s => s.length = m.stack.length) (runPass run body)
      (fun pass s => pass ≠ .stop .returned → s.length ≤ m.stack.length) := by
    refine (ensures_height _).bind fun base => ?_
    refine .assume (p := m.stack.length = base) (fun s hs => hs.1.symm.trans hs.2) fun hb => ?_
    have hcut {pass : Pass} {P : List Value → Prop} : Ensures P (do cutTo base; return pass)
        (fun pass s => pass ≠ .stop .returned → s.length ≤ m.stack.length) := by
      refine .bind (Q := fun _ s => s.length ≤ base) (.modify fun m _ => length_below ..) fun _ => ?_
      exact .pure fun s hs _ => hb ▸ hs
    refine (Ensures.any _).bind fun flow => ?_
    cases flow with
    | returned => exact .pure fun s _ hp => absurd rfl hp
    | broken => exact hcut
    | continued => exact hcut
    | done => exact .get fun _ _ => hcut
  exact hpass m pass _ rfl (Prod.ext h rfl) hp

/-- **A run that fails leaves no more operands than there were.** -/
theorem length_runItems {fuel : Nat} {items : List Value} {dynamic : Bool} {m : Machine}
    {halt : Halt} (h : (runItems fuel items dynamic).outcome m = .error halt) :
    ((runItems fuel items dynamic).stackAfter m).length ≤ m.stack.length := by
  rw [outcome, runItems, run_bind, run_height] at h
  rw [stackAfter, runItems, run_bind, run_height]
  dsimp only at h ⊢
  rw [run_bind, run_observe] at h ⊢
  revert h
  generalize StateT.run (ExceptT.run (compile items dynamic >>= runCode fuel)) m = r
  rcases r with ⟨halt' | flow, m₁⟩ <;> intro h
  · exact length_below ..
  · cases h

end BlockLang
