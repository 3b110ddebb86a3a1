import BlockLang.Proofs.Machine.Protecting

/-!
# Ways out of a loop

`break` and `continue` ask for a way out that the innermost loop provides.

**Theorem (`absorbsLoopExits`).** A body that asks to leave its loop ends just this loop, and one that asks
for the next pass is skipped and the loop goes on, with the operands that the body had added dropped. So a
loop over a collection ends done or on the way out of a function, and nothing else comes out of it. The
same holds for `while`, except that it hands on whatever way out its condition asks for.

The exception is real: `break` in the condition of a `while` ends the loop around it
(`break_in_condition`).

What comes out of a piece of a run is followed through the piece (`Answers`), and which of the passes asks
for what is told along the passes before it (`Rounds`, `Turns`).
-/

namespace BlockLang

open Exec

namespace Exec

variable {α β : Type} {P : α → Prop} {Q : β → Prop} {x y : Exec α}

/-! ## What comes out of a piece -/

/-- Every answer that the piece gives, in whatever machine, is of a kind. -/
def Answers (P : α → Prop) (x : Exec α) : Prop :=
  ∀ ⦃m after a⦄, x.run.run m = (.ok a, after) → P a

namespace Answers

theorem pure {a : α} (ha : P a) : Answers P (pure a : Exec α) := by
  intro m after b h
  cases h
  exact ha

theorem throw (halt : Halt) : Answers P (throw halt : Exec α) := nofun

theorem bind {f : α → Exec β} (hx : Answers P x) (hf : ∀ a, P a → Answers Q (f a)) :
    Answers Q (x >>= f) := by
  intro m after b h
  rw [run_bind] at h
  rcases hr : x.run.run m with ⟨e | a, n⟩
  · rw [hr] at h
    cases h
  · rw [hr] at h
    exact hf a (hx hr) h

/-- Only what follows matters. -/
theorem after {f : α → Exec β} (hf : ∀ a, Answers Q (f a)) : Answers Q (x >>= f) :=
  bind (P := fun _ => True) (fun _ _ _ _ => trivial) fun a _ => hf a

theorem ite {c : Prop} [Decidable c] (hx : Answers P x) (hy : Answers P y) :
    Answers P (if c then x else y) := by
  split
  · exact hx
  · exact hy

theorem protecting (names : List String) (hx : Answers P x) : Answers P (protecting names x) := by
  intro m after a h
  rw [run_protecting names (Prod.eta (x.run.run m)).symm] at h
  have hanswer : (x.run.run m).1 = .ok a := congrArg Prod.fst h
  exact hx (Prod.ext hanswer rfl)

end Answers

end Exec

/-- The loop is over, or on the way out of a function. -/
def Flow.LeavesLoop (flow : Flow) : Prop := flow = .done ∨ flow = .returned

/-! ## Passes -/

section

variable {run : CodeRef → Exec Flow} {body condition : Value} {m m' tested passed after : Machine}

/-- What a pass leaves when its body has asked for a way out of the loop: the operands that the body has
added are dropped. -/
def Machine.cutBack (after m : Machine) : Machine :=
  { after with stack := below m.stack.length after.stack }

theorem run_runPass_broken (h : (runInPlace run body).run.run m = (.ok .broken, after)) :
    (runPass run body).run.run m = (.ok (.stop .done), after.cutBack m) := by
  rw [runPass, run_bind_of_ok (run_height m), run_bind_of_ok h]
  rfl

theorem run_runPass_continued (h : (runInPlace run body).run.run m = (.ok .continued, after)) :
    (runPass run body).run.run m = (.ok .skipped, after.cutBack m) := by
  rw [runPass, run_bind_of_ok (run_height m), run_bind_of_ok h]
  rfl

/-- A pass that stops its loop. -/
def Pass.Stops : Pass → Prop
  | .stop flow => flow.LeavesLoop
  | .value _ | .skipped => True

theorem answers_runPass (run : CodeRef → Exec Flow) (body : Value) :
    Answers Pass.Stops (runPass run body) := by
  refine .after fun base => .after fun flow => ?_
  cases flow with
  | done => exact .after fun _ => .after fun _ => .pure trivial
  | returned => exact .pure (.inr rfl)
  | broken => exact .after fun _ => .pure (.inl rfl)
  | continued => exact .after fun _ => .pure trivial

/-! ## Loops over a collection -/

theorem answers_passes (run : CodeRef → Exec Flow) (kind : Traversal) (params : List String)
    (body : Value) (count : Nat) (items collected : List Value) :
    Answers (·.1.LeavesLoop) (passes run kind params body count items collected) := by
  induction count generalizing items collected with
  | zero => exact .pure (.inl rfl)
  | succ count ih =>
    cases items with
    | nil => exact .pure (.inl rfl)
    | cons item items =>
      rw [passes]
      · refine .after fun _ => (answers_runPass run body).bind fun pass hpass => ?_
        cases pass with
        | stop flow => exact .pure hpass
        | skipped => exact ih _ _
        | value result? => exact .after fun more => ih _ _
      · exact List.cons_ne_nil _ _

theorem answers_traverse (run : CodeRef → Exec Flow) (kind : Traversal) :
    Answers Flow.LeavesLoop (traverse run kind) := by
  refine .after fun (collection, params, body) => .after fun params => .after fun heap =>
    .after fun items => ?_
  refine (Answers.protecting params (answers_passes run kind params body _ items [])).bind
    fun (flow, collected) hflow => ?_
  exact .ite (.after fun _ => .pure hflow) (.pure hflow)

/-- A loop over a collection ends as its passes do. -/
theorem answer_traverse {kind : Traversal} {params collection : Value} {rest items : List Value}
    {names : List String} (hs : m.stack = body :: params :: collection :: rest)
    (hp : params.parameterNames kind.name = .ok names)
    (he : Value.elements m.world.heap kind.name collection = .ok items) :
    ((traverse run kind).run.run m).1 = (m.passesMade run kind names items body rest).1.map (·.1) := by
  rw [Exec.traverse, run_bind_of_ok (run_pop₃_of hs)]
  dsimp only
  rw [hp, run_bind_of_ok (run_answer ..), run_bind_of_ok (run_heap _), he,
    run_bind_of_ok (run_answer ..), run_bind, Machine.passesMade,
    run_protecting names (Prod.eta _).symm]
  rcases (passes run kind names body items.length items []).run.run { m with stack := rest } with
    ⟨halt | ⟨flow, collected⟩, after⟩
  · rfl
  · dsimp only
    split <;> rfl

/-! ## While -/

/-- The rounds that are made leave as many as there are others. -/
theorem run_repeatWhile_add {n : Nat} (h : Rounds run condition body n m m') (k : Nat) :
    (repeatWhile run condition body (n + k)).run.run m =
      (repeatWhile run condition body k).run.run m' := by
  induction h with
  | none m => rw [Nat.zero_add]
  | @next n m tested passed last pass hc hb hp _ ih =>
    rw [Nat.add_right_comm, repeatWhile, run_bind_of_ok hc]
    dsimp only
    rw [run_bind_of_ok hb]
    cases pass with
    | stop flow => cases hp
    | value v? => exact ih
    | skipped => exact ih

/-- The flow is the one with which the condition of a `while` has ended after some rounds. -/
def ByCondition (run : CodeRef → Exec Flow) (condition body : Value) (count : Nat) (m : Machine)
    (flow : Flow) (after : Machine) : Prop :=
  ∃ n m', n < count ∧ Rounds run condition body n m m' ∧ condition.isNull = false ∧
    (runInPlace run condition).run.run m' = (.ok flow, after)

theorem ByCondition.next {count : Nat} {flow : Flow} {pass : Pass}
    (hc : (testCondition run condition).run.run m = (.ok (.ok true), tested))
    (hb : (runPass run body).run.run tested = (.ok pass, passed)) (hp : pass.GoesOn)
    (h : ByCondition run condition body count passed flow after) :
    ByCondition run condition body (count + 1) m flow after := by
  obtain ⟨n, m', hn, hr, h⟩ := h
  exact ⟨n + 1, m', Nat.succ_lt_succ hn, .next hc hb hp hr, h⟩

/-- A condition that hands a way out on is code, and has ended with it. -/
theorem testCondition_error {flow : Flow}
    (h : (testCondition run condition).run.run m = (.ok (.error flow), after)) :
    condition.isNull = false ∧ (runInPlace run condition).run.run m = (.ok flow, after) := by
  have hholds : Answers (fun r : Except Flow Bool => r.toBool) (do
      return .ok (← (← pop).expectLogical "while")) :=
    .after fun _ => .after fun _ => .pure rfl
  rw [testCondition] at h
  cases hnull : condition.isNull with
  | true =>
    rw [hnull] at h
    cases h
  | false =>
    rw [hnull, if_neg Bool.false_ne_true, run_bind] at h
    rcases hr : (runInPlace run condition).run.run m with ⟨halt | flow', n⟩
    · rw [hr] at h
      cases h
    · rw [hr] at h
      cases flow' with
      | done => cases hholds h
      | _ =>
        cases h
        exact ⟨rfl, rfl⟩

theorem repeatWhile_leaves {count : Nat} {flow : Flow}
    (h : (repeatWhile run condition body count).run.run m = (.ok flow, after)) :
    flow.LeavesLoop ∨ ByCondition run condition body count m flow after := by
  induction count generalizing m with
  | zero => cases h
  | succ count ih =>
    rw [repeatWhile, run_bind] at h
    rcases hc : (testCondition run condition).run.run m with ⟨halt | flow' | holds, tested⟩
    · rw [hc] at h
      cases h
    · rw [hc] at h
      cases h
      obtain ⟨hnull, hrun⟩ := testCondition_error hc
      exact .inr ⟨0, m, count.succ_pos, .none m, hnull, hrun⟩
    · rw [hc] at h
      cases holds with
      | false =>
        cases h
        exact .inl (.inl rfl)
      | true =>
        dsimp only at h
        rw [run_bind] at h
        rcases hb : (runPass run body).run.run tested with ⟨halt | pass, passed⟩
        · rw [hb] at h
          cases h
        · rw [hb] at h
          have hgoes (hp : pass.GoesOn) (h : (repeatWhile run condition body count).run.run passed =
              (.ok flow, after)) :
              flow.LeavesLoop ∨ ByCondition run condition body (count + 1) m flow after :=
            (ih h).imp_right (.next hc hb hp)
          cases pass with
          | stop flow' =>
            cases h
            exact .inl (answers_runPass run body hb)
          | value v? => exact hgoes trivial h
          | skipped => exact hgoes trivial h

theorem run_runWhile {rest : List Value} (hs : m.stack = body :: condition :: rest) (fuel : Nat) :
    (runWhile run fuel).run.run m =
      (repeatWhile run condition body fuel).run.run { m with stack := rest } := by
  rw [runWhile, run_bind_of_ok (run_pop₂_of hs)]

/-- A `while` that comes to an end had its operands. -/
theorem operands_of_runWhile {fuel : Nat} {flow : Flow}
    (h : (runWhile run fuel).run.run m = (.ok flow, after)) :
    ∃ body condition rest, m.stack = body :: condition :: rest := by
  obtain ⟨world, stack, attrs, output, depth, tryDepth, raised, fresh, built⟩ := m
  match stack with
  | [] => cases h
  | [_] => cases h
  | body :: condition :: rest => exact ⟨body, condition, rest, rfl⟩

end

/-! ## Loops and the ways out of them -/

section

variable (run : CodeRef → Exec Flow) (m : Machine)

/-- A `while` in `m` has made `n` rounds, and its body begins in `now`. -/
structure WhileRound (fuel : Nat) (condition body : Value) (n : Nat) (now : Machine) : Prop where
  bound : n < fuel
  rounds : ∃ rest before, m.stack = body :: condition :: rest ∧
    Rounds run condition body n { m with stack := rest } before ∧
    (testCondition run condition).run.run before = (.ok (.ok true), now)

/-- A loop over a collection in `m` has made some turns, and its body begins in `now`. Behind this pass there
are the items that remain, in as many passes as `count` at most. -/
structure LoopTurn (kind : Traversal) (names : List String) (body : Value) (count : Nat)
    (remain : List Value) (now : Machine) : Prop where
  turns : ∃ params collection rest items item items' before,
    m.stack = body :: params :: collection :: rest ∧
    params.parameterNames kind.name = .ok names ∧
    Value.elements m.world.heap kind.name collection = .ok items ∧
    Turns run kind names body items.length items { m with stack := rest }
      (count + 1) (item :: items') before ∧
    remain = (item :: items').drop (max names.length 1) ∧ now = before.turn names (item :: items')

/-- What loops do with the ways out that are asked for inside of them. -/
structure AbsorbsLoopExits (fuel : Nat) : Prop where
  /-- What comes out of a loop over a collection is no way out of a loop. -/
  traversal (kind : Traversal) (flow : Flow) (after : Machine) :
    m.performed fuel run kind.builtin = (.ok flow, after) → flow.LeavesLoop
  /-- What comes out of a `while` is no way out of a loop either, unless its condition asks for it. -/
  whileTrue (flow : Flow) (after : Machine) :
    m.performed fuel run .whileTrue = (.ok flow, after) →
    flow.LeavesLoop ∨ ∃ body condition rest, m.stack = body :: condition :: rest ∧
      ByCondition run condition body fuel { m with stack := rest } flow after
  /-- A body that leaves its loop ends a loop over a collection. -/
  turnBroken (kind : Traversal) (names : List String) (body : Value) (count : Nat)
      (remain : List Value) (now after : Machine) :
    LoopTurn run m kind names body count remain now →
    (runInPlace run body).run.run now = (.ok .broken, after) →
    (m.performed fuel run kind.builtin).1 = .ok .done
  /-- One that asks for the next pass gets it: the loop goes on with the items that remain, and ends as it
  does from there. -/
  turnContinued (kind : Traversal) (names : List String) (body : Value) (count : Nat)
      (remain : List Value) (now after : Machine) :
    LoopTurn run m kind names body count remain now →
    (runInPlace run body).run.run now = (.ok .continued, after) →
    ∃ collected, (m.performed fuel run kind.builtin).1 =
      ((passes run kind names body count remain collected).run.run (after.cutBack now)).1.map (·.1)
  /-- A body that leaves its loop ends a `while`. -/
  roundBroken (condition body : Value) (n : Nat) (now after : Machine) :
    WhileRound run m fuel condition body n now →
    (runInPlace run body).run.run now = (.ok .broken, after) →
    m.performed fuel run .whileTrue = (.ok .done, after.cutBack now)
  /-- One that asks for the next pass gets it. -/
  roundContinued (condition body : Value) (n : Nat) (now after : Machine) :
    WhileRound run m fuel condition body n now →
    (runInPlace run body).run.run now = (.ok .continued, after) →
    m.performed fuel run .whileTrue =
      (repeatWhile run condition body (fuel - (n + 1))).run.run (after.cutBack now)

variable {run m} {fuel count n : Nat} {kind : Traversal} {names : List String}
  {condition body : Value} {remain : List Value} {now after : Machine}

/-- From one of its turns on, a loop over a collection ends as its passes from there do. -/
theorem LoopTurn.answer (fuel : Nat) (h : LoopTurn run m kind names body count remain now) :
    ∃ item items before collected, remain = (item :: items).drop (max names.length 1) ∧
      now = before.turn names (item :: items) ∧
      (m.performed fuel run kind.builtin).1 =
        ((passes run kind names body (count + 1) (item :: items) collected).run.run before).1.map
          (·.1) := by
  obtain ⟨params, collection, rest, all, item, items, before, hs, hp, he, ht, hremain, hnow⟩ := h
  obtain ⟨collected, hpasses⟩ := run_passes_of_turns ht []
  refine ⟨item, items, before, collected, hremain, hnow, ?_⟩
  rw [performed_traversal, answer_traverse hs hp he, Machine.passesMade, hpasses]

/-- From one of its rounds on, a `while` ends as the rounds from there do. -/
theorem WhileRound.performed (h : WhileRound run m fuel condition body n now) :
    m.performed fuel run .whileTrue = ((do
      match ← runPass run body with
      | .stop flow => return flow
      | .value _ | .skipped => repeatWhile run condition body (fuel - (n + 1)) :
        Exec Flow)).run.run now := by
  obtain ⟨hn, rest, before, hs, hr, hc⟩ := h
  obtain ⟨k, rfl⟩ := Nat.exists_eq_add_of_lt hn
  have hk : n + k + 1 - (n + 1) = k := by omega
  change (runWhile run (n + k + 1)).run.run m = _
  rw [hk, run_runWhile hs, Nat.add_assoc, run_repeatWhile_add hr, repeatWhile]
  exact run_bind_of_ok hc

/-- **Loops provide the ways out of a loop** that their bodies ask for. -/
theorem absorbsLoopExits (run : CodeRef → Exec Flow) (m : Machine) (fuel : Nat) :
    AbsorbsLoopExits run m fuel := by
  refine ⟨?traversal, ?whileTrue, ?turnBroken, ?turnContinued, ?roundBroken, ?roundContinued⟩
  case traversal =>
    intro kind flow after h
    rw [performed_traversal] at h
    exact answers_traverse run kind h
  case whileTrue =>
    intro flow after h
    have h : (runWhile run fuel).run.run m = (.ok flow, after) := h
    obtain ⟨body, condition, rest, hs⟩ := operands_of_runWhile h
    rw [run_runWhile hs] at h
    exact (repeatWhile_leaves h).imp_right fun h => ⟨body, condition, rest, hs, h⟩
  case turnBroken =>
    intro kind names body count remain now after ht hb
    obtain ⟨item, items, before, collected, rfl, rfl, hanswer⟩ := ht.answer fuel
    rw [hanswer, passes, run_bind_of_ok (run_bindAll_turn ..),
      run_bind_of_ok (run_runPass_broken hb)]
    · rfl
    · exact List.cons_ne_nil _ _
  case turnContinued =>
    intro kind names body count remain now after ht hb
    obtain ⟨item, items, before, collected, rfl, rfl, hanswer⟩ := ht.answer fuel
    refine ⟨collected, ?_⟩
    rw [hanswer, passes, run_bind_of_ok (run_bindAll_turn ..),
      run_bind_of_ok (run_runPass_continued hb)]
    · exact List.cons_ne_nil _ _
  case roundBroken =>
    intro condition body n now after hr hb
    rw [hr.performed, run_bind_of_ok (run_runPass_broken hb)]
    rfl
  case roundContinued =>
    intro condition body n now after hr hb
    rw [hr.performed, run_bind_of_ok (run_runPass_continued hb)]

end

/-- A body that leaves a `while` in its first round. -/
theorem absorbsLoopExits_broken :
    let body : Value := .block [.word "break"] false
    let m : Machine := { world := World.initial {}, stack := [body, .null] }
    (m.performed 100 (runCode 100) .whileTrue).1 = .ok .done := by
  intro body m
  have hbreaks : ((runInPlace (runCode 100) body).run.run { m with stack := [] }).1 = .ok .broken := by
    decide +kernel
  have hround : WhileRound (runCode 100) m 100 .null body 0 { m with stack := [] } :=
    ⟨by decide, [], _, rfl, .none _, rfl⟩
  obtain ⟨after, hafter⟩ := exists_eq_of_fst_eq hbreaks
  rw [(absorbsLoopExits (runCode 100) m 100).roundBroken _ _ _ _ _ hround hafter]

/-- A way out that the condition of a `while` asks for comes out of the `while`, and ends the loop around it:
of three passes that would each print a line, none does. -/
theorem break_in_condition :
    let leaving : Value := .block [.word "break"] false
    let m : Machine := { world := World.initial {}, stack := [.block [] false, leaving] }
    let outer : Machine := { m with
      stack := [.block [.word "while", leaving, .block [] false, .word "print", .integer 1] false,
        .null, .integer 3] }
    (m.performed 100 (runCode 100) .whileTrue).1 = .ok .broken ∧
      (outer.performed 100 (runCode 100) .loop).1 = .ok .done ∧
      (outer.performed 100 (runCode 100) .loop).2.output = .collected "" := by
  decide +kernel

end BlockLang
