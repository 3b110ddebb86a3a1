import BlockLang.Proofs.Machine.Evaluation
import BlockLang.Proofs.Machine.Scoping

/-!
# The way of a returned value

`return` leaves its value where it is: on top of the operands. All that it does is to ask for a way out,
and each construct around it hands that on until the call of the function ends. A run is followed from
the beginning of the function to the `return` as a chain of places (`Reaches`): along the instructions of
a unit, and from an operation into the body that it runs in place (`Opens`).

**Theorem (`returned_on_top`).** If `return` is reached with a value on top, the call ends with this value
on top of the operands that were there before the arguments.

The chain remembers the heights to which dictionaries on the way will cut the operands, because a
dictionary cuts before it looks at how its body has ended. The value survives if it does not lie above any
of these heights. No other construct touches the operands on the way out, so an array, whose shape is the
same, needs no such condition. What a dictionary does to the value of the theorem is shown in
`returned_cut_off`.
-/

namespace BlockLang

open Exec

variable {fuel : Nat} {m m' after last : Machine} {body condition : Value} {flow : Flow}

/-! ## Places -/

/-- A place in a run: the fuel that is left, a unit, the offset of the next instruction in it, and the
machine. -/
structure Place where
  fuel : Nat
  unit : CodeUnit
  pos : Nat
  machine : Machine

namespace Place

/-- How the unit ends from here on. -/
def outcome (p : Place) : Except Halt Flow × Machine :=
  (execute p.fuel p.unit p.pos).run.run p.machine

/-- Where the code that is found in `m` begins, one level deeper. -/
def start? (fuel : Nat) (code : Exec CodeRef) (m : Machine) : Option Place :=
  match code.run.run { m with depth := m.depth + 1 } with
  | (.ok found, after) => some ⟨fuel, (after.world.heap.unit? found).getD {}, 0, after⟩
  | (.error _, _) => none

/-- The place behind the next instruction, if that instruction comes to its end. -/
def next? (p : Place) : Option Place :=
  let decoded := decode p.unit.code p.pos
  match p.fuel, decoded.instruction? with
  | 0, _ | _, none | _, some (.op .stop) => none
  | fuel + 1, some (.jump condition target) =>
    match (isTaken condition).run.run p.machine with
    | (.ok taken, after) =>
      some ⟨fuel, p.unit, if taken then target.toNat else decoded.next, after⟩
    | (.error _, _) => none
  | fuel + 1, some i =>
    match (runInstruction fuel (runCode fuel) p.unit p.pos i).run.run p.machine with
    | (.ok .done, after) => some ⟨fuel, p.unit, decoded.next, after⟩
    | _ => none

/-- What an instruction does that neither jumps nor ends the unit. -/
theorem execute_instruction {u : CodeUnit} {pos : Nat} {i : Instruction}
    (hi : (decode u.code pos).instruction? = some i) (hs : i ≠ .op .stop)
    (hj : ∀ condition target, i ≠ .jump condition target) :
    execute (fuel + 1) u pos = (do
      match ← runInstruction fuel (runCode fuel) u pos i with
      | .done => execute fuel u (decode u.code pos).next
      | flow => return flow) :=
  (execute_succ fuel u pos).trans (advance_of_instruction hi hs hj)

/-- How a run gets from a place to the next one: by a jump, or by an instruction that is done. -/
inductive Advances : Place → Place → Prop
  | jump {fuel pos : Nat} {u : CodeUnit} {m after : Machine} {condition : Condition} {target : UInt16}
      {taken : Bool} (hi : (decode u.code pos).instruction? = some (.jump condition target))
      (ht : (isTaken condition).run.run m = (.ok taken, after)) :
      Advances ⟨fuel + 1, u, pos, m⟩
        ⟨fuel, u, if taken then target.toNat else (decode u.code pos).next, after⟩
  | instruction {fuel pos : Nat} {u : CodeUnit} {m after : Machine} {i : Instruction}
      (hi : (decode u.code pos).instruction? = some i) (hs : i ≠ .op .stop)
      (hj : ∀ condition target, i ≠ .jump condition target)
      (hr : (runInstruction fuel (runCode fuel) u pos i).run.run m = (.ok .done, after)) :
      Advances ⟨fuel + 1, u, pos, m⟩ ⟨fuel, u, (decode u.code pos).next, after⟩

theorem advances_of_next? {p q : Place} (h : p.next? = some q) : p.Advances q := by
  obtain ⟨fuel, unit, pos, m⟩ := p
  unfold next? at h
  dsimp only at h
  split at h
  · cases h
  · cases h
  · cases h
  · next fuel condition target hi =>
    split at h
    · next taken after ht =>
      obtain rfl := Option.some.inj h
      exact .jump hi ht
    · cases h
  · next fuel i hs hj hi =>
    split at h
    · next after hr =>
      obtain rfl := Option.some.inj h
      exact .instruction hi (by rintro rfl; exact hs rfl) (by rintro c t rfl; exact hj c t rfl) hr
    · cases h

theorem outcome_of_next? {p q : Place} (h : p.next? = some q) : p.outcome = q.outcome := by
  cases advances_of_next? h with
  | jump hi ht =>
    rw [outcome, execute]
    simp only [hi]
    rw [run_bind_of_ok ht]
    rfl
  | instruction hi hs hj hr =>
    rw [outcome, execute_instruction hi hs hj, run_bind_of_ok hr]
    rfl

end Place

/-! ## Operations -/

/-- The next instruction runs an operation, by its opcode or by calling it. -/
inductive Place.Operates (p : Place) (b : Builtin) : Prop
  | opcode {o : Opcode} (hi : (decode p.unit.code p.pos).instruction? = some (.op o))
      (hb : b.opcode? = some o)
  | call {index : Nat} {c : Value} {ref : FunctionRef}
      (hi : (decode p.unit.code p.pos).instruction? = some (.indexed .call index))
      (hc : p.unit.constants[index]? = some c) (hr : p.machine.callee? c = some ref)
      (hf : p.machine.world.heap.callable? ref = some (.builtin b))
      (ha : b.arity ≤ p.machine.stack.length)

theorem run_callValue_builtin {run : CodeRef → Exec Flow} {c : Value} {ref : FunctionRef}
    {b : Builtin} (hr : m.callee? c = some ref)
    (hf : m.world.heap.callable? ref = some (.builtin b)) (ha : b.arity ≤ m.stack.length) :
    (callValue fuel run c).run.run m = (callBuiltin fuel run b).run.run m := by
  have hnlt : ¬ m.stack.length < (Callable.builtin b).arity := Nat.not_lt.2 ha
  rw [run_callValue run fuel hr, callFunction, run_bind_of_ok (run_heap m)]
  simp only [hf]
  rw [run_bind_of_ok (run_height m), if_neg hnlt]

/-- An operation that ends with a way out ends its unit with it. -/
theorem Place.outcome_of_operates {p : Place} {b : Builtin} (hp : p.fuel = fuel + 1)
    (h : p.Operates b) (hf : flow ≠ .done)
    (hb : (callBuiltin fuel (runCode fuel) b).run.run p.machine = (.ok flow, last)) :
    p.outcome = (.ok flow, last) := by
  have hends {i : Instruction} (hi : (decode p.unit.code p.pos).instruction? = some i)
      (hs : i ≠ .op .stop) (hj : ∀ condition target, i ≠ .jump condition target)
      (hrun : (runInstruction fuel (runCode fuel) p.unit p.pos i).run.run p.machine =
        (.ok flow, last)) : p.outcome = (.ok flow, last) := by
    rw [outcome, hp, execute_instruction hi hs hj, run_bind_of_ok hrun]
    cases flow <;> first | rfl | contradiction
  cases h with
  | opcode hi ho =>
    refine hends hi (fun h => ?_) nofun ?_
    · exact (Opcode.isPlain_of_builtin ho).2 (Instruction.op.inj h)
    · rwa [← CodeUnit.runOpcode_builtin ho fuel (runCode fuel) p.pos] at hb
  | call hi hc hr hf ha =>
    refine hends hi nofun nofun ?_
    rw [runInstruction, hc, ← hb, ← run_callValue_builtin hr hf ha]
    rfl

/-! ## Bodies in place -/

/-- Running a body in place in `m` gets to the beginning of its code. -/
def Machine.Begins (m : Machine) (fuel : Nat) (body : Value) (p : Place) : Prop :=
  m.depth < m.world.config.maxDepth ∧ Place.start? fuel (bodyCode body) m = some p

theorem run_descend_of_start? {code : Exec CodeRef} {p : Place}
    (h : Place.start? fuel code m = some p) :
    (descend (runCode fuel) code).run.run m =
      (p.outcome.1, { p.outcome.2 with depth := p.outcome.2.depth - 1 }) := by
  unfold Place.start? at h
  split at h
  · next found after hcode =>
    obtain rfl := Option.some.inj h
    rw [descend, run_bind_of_ok (run_modify ..), run_afterwards, run_bind_of_ok hcode]
    rfl
  · cases h

/-- A body in place ends as its code does. -/
theorem run_runInPlace {p : Place} (h : m.Begins fuel body p) (hp : p.outcome = (.ok flow, after)) :
    (runInPlace (runCode fuel) body).run.run m =
      (.ok flow, { after with depth := after.depth - 1 }) := by
  have hbody : (observe (descend (runCode fuel) (bodyCode body))).run.run m =
      (.ok (.ok flow), { after with depth := after.depth - 1 }) := by
    rw [run_observe, run_descend_of_start? h.2, hp]
  have hscope : (inScope (runCode fuel) { inPlace := true } (bodyCode body) none).run.run m =
      (.ok flow, { after with depth := after.depth - 1 }) := by
    have himports : (bindAll []).run.run m = (.ok ⟨⟩, m) := rfl
    have hparams : (bindParameters []).run.run m = (.ok ⟨⟩, m) := rfl
    rw [inScope, run_bind_of_ok (run_get m), run_bind_of_ok himports, run_bind_of_ok hparams,
      run_bind_of_ok (run_height m), run_bind_of_ok hbody]
    rfl
  have hnone : (findKept none).run.run m = (.ok none, m) := rfl
  rw [runInPlace, runBlock, runScoped, run_bind_of_ok (run_get m)]
  dsimp only [List.length_nil, Option.map_none]
  rw [if_neg (Nat.not_lt_zero _), run_bind_of_ok hnone]
  dsimp only
  rw [if_neg (Nat.not_le.2 h.1)]
  exact hscope

/-! ## Coming to a body -/

/-- A pass that a loop goes on after. -/
def Pass.GoesOn : Pass → Prop
  | .value _ | .skipped => True
  | .stop _ => False

/-- A `while` makes some rounds. -/
inductive Rounds (run : CodeRef → Exec Flow) (condition body : Value) :
    Nat → Machine → Machine → Prop
  | none (m : Machine) : Rounds run condition body 0 m m
  | next {n : Nat} {m tested passed last : Machine} {pass : Pass}
      (hc : (testCondition run condition).run.run m = (.ok (.ok true), tested))
      (hb : (runPass run body).run.run tested = (.ok pass, passed)) (hp : pass.GoesOn)
      (h : Rounds run condition body n passed last) : Rounds run condition body (n + 1) m last

/-- The machine with the parameters of a loop bound to the first of the items that remain. -/
def Machine.turn (m : Machine) (params : List String) (items : List Value) : Machine :=
  let bindings := params.zip (items.take (max params.length 1))
  { m with world := bindings.foldl (fun w (name, v) => w.set name v) m.world }

theorem run_bindAll_turn (m : Machine) (params : List String) (items : List Value) :
    (bindAll (params.zip (items.take (max params.length 1)))).run.run m =
      (.ok ⟨⟩, m.turn params items) := rfl

/-- A loop over a collection passes over some items. `count` passes may be made at first, and
`count'` in the end. -/
inductive Turns (run : CodeRef → Exec Flow) (kind : Traversal) (params : List String) (body : Value) :
    (count : Nat) → (items : List Value) → Machine →
    (count' : Nat) → (items' : List Value) → Machine → Prop
  | none (count : Nat) (items : List Value) (m : Machine) :
      Turns run kind params body count items m count items m
  | skipped {count count' : Nat} {item : Value} {items items' : List Value} {m passed last : Machine}
      (hb : (runPass run body).run.run (m.turn params (item :: items)) = (.ok .skipped, passed))
      (h : Turns run kind params body count ((item :: items).drop (max params.length 1)) passed
        count' items' last) :
      Turns run kind params body (count + 1) (item :: items) m count' items' last
  | value {count count' : Nat} {item : Value} {items items' more : List Value} {result? : Option Value}
      {m passed last : Machine}
      (hb : (runPass run body).run.run (m.turn params (item :: items)) = (.ok (.value result?), passed))
      (hk : kind.collect ((item :: items).take (max params.length 1)) result? = .ok more)
      (h : Turns run kind params body count ((item :: items).drop (max params.length 1)) passed
        count' items' last) :
      Turns run kind params body (count + 1) (item :: items) m count' items' last

/-- From `m`, an operation comes to run `body` in place in `m'`. The heights are those that it cuts the
operands to when it is left on a way out. -/
inductive Opens (fuel : Nat) (m : Machine) : Builtin → (body : Value) → (m' : Machine) →
    (cuts : List Nat) → Prop
  | branch {b : Builtin} {operation : String} {wanted : Bool} {condition body : Value}
      {rest : List Value} (hb : ∀ run, perform fuel run b = branch run operation wanted)
      (hs : m.stack = body :: condition :: rest)
      (hc : condition.expectLogical operation = .ok wanted) :
      Opens fuel m b body { m with stack := rest } []
  | branchReport {condition body : Value} {rest : List Value}
      (hs : m.stack = body :: condition :: rest) (hc : condition.expectLogical "if?" = .ok true) :
      Opens fuel m .ifReport body { m with stack := rest } []
  | choose {condition yes no : Value} {items rest : List Value} {holds dynamic : Bool}
      (hs : m.stack = no :: yes :: condition :: rest)
      (hc : condition.expectLogical "switch" = .ok holds)
      (hb : (if holds then yes else no) = .block items dynamic) :
      Opens fuel m .switchOn (.block items dynamic) { m with stack := rest } []
  | whileCondition {condition body : Value} {rest : List Value} {n : Nat} {m' : Machine}
      (hs : m.stack = body :: condition :: rest) (hn : n < fuel)
      (hr : Rounds (runCode fuel) condition body n { m with stack := rest } m')
      (hc : condition.isNull = false) : Opens fuel m .whileTrue condition m' []
  | whileBody {condition body : Value} {rest : List Value} {n : Nat} {m' tested : Machine}
      (hs : m.stack = body :: condition :: rest) (hn : n < fuel)
      (hr : Rounds (runCode fuel) condition body n { m with stack := rest } m')
      (hc : (testCondition (runCode fuel) condition).run.run m' = (.ok (.ok true), tested)) :
      Opens fuel m .whileTrue body tested []
  | run {body : Value} {rest : List Value} (hs : m.stack = body :: rest)
      (hb : body.kind ≠ .string) : Opens fuel m .run body { m with stack := rest } []
  | runSource {source : String} {items rest : List Value} {m' : Machine}
      (hs : m.stack = .string source :: rest)
      (hr : (read source).run.run { m with stack := rest } = (.ok items, m')) :
      Opens fuel m .run (.block items false) m' []
  | attempt {b : Builtin} {report : Bool} {body : Value} {rest : List Value}
      (hb : ∀ run, perform fuel run b = attempt run report) (hs : m.stack = body :: rest) :
      Opens fuel m b body { m with stack := rest, tryDepth := m.tryDepth + 1 } []
  | ensure {items rest : List Value} {dynamic : Bool} (hs : m.stack = .block items dynamic :: rest) :
      Opens fuel m .ensure (.block items dynamic) { m with stack := rest } []
  | array {body : Value} {rest : List Value} (hs : m.stack = body :: rest)
      (hb : body.items?.isSome) : Opens fuel m .array body { m with stack := rest } []
  | dictionary {body : Value} {rest : List Value} (hs : m.stack = body :: rest)
      (hb : body.items?.isSome) :
      Opens fuel m .dictionary body { m with stack := rest } [rest.length]
  | traverse {b : Builtin} {kind : Traversal} {collection params body item : Value}
      {rest items items' : List Value} {names : List String} {count : Nat} {m' : Machine}
      (hb : ∀ run, perform fuel run b = traverse run kind)
      (hs : m.stack = body :: params :: collection :: rest)
      (hp : params.parameterNames kind.name = .ok names)
      (he : Value.elements m.world.heap kind.name collection = .ok items)
      (ht : Turns (runCode fuel) kind names body items.length items { m with stack := rest }
        (count + 1) (item :: items') m') :
      Opens fuel m b body (m'.turn names (item :: items')) []

/-! ## Leaving a body -/

section

variable {v u w : Value} {rest : List Value}

theorem run_pop_of (hs : m.stack = v :: rest) :
    pop.run.run m = (.ok v, { m with stack := rest }) := by
  rw [pop, run_bind_of_ok (run_get m), hs]
  rfl

theorem run_pop₂_of (hs : m.stack = v :: u :: rest) :
    pop₂.run.run m = (.ok (u, v), { m with stack := rest }) := by
  rw [pop₂, run_bind_of_ok (run_get m), hs]
  rfl

theorem run_pop₃_of (hs : m.stack = v :: u :: w :: rest) :
    pop₃.run.run m = (.ok (w, u, v), { m with stack := rest }) := by
  rw [pop₃, run_bind_of_ok (run_get m), hs]
  rfl

end

theorem run_repeatWhile_of_rounds {run : CodeRef → Exec Flow} {n count : Nat}
    (h : Rounds run condition body n m m') (hn : n < count) :
    ∃ k, (repeatWhile run condition body count).run.run m =
      (repeatWhile run condition body (k + 1)).run.run m' := by
  induction h generalizing count with
  | none m => exact ⟨count - 1, by rw [Nat.sub_add_cancel hn]⟩
  | @next n m tested passed last pass hc hb hp h ih =>
    obtain ⟨count, rfl⟩ : ∃ n, count = n + 1 := ⟨count - 1, by omega⟩
    obtain ⟨k, ih⟩ := ih (Nat.lt_of_succ_lt_succ hn)
    refine ⟨k, ?_⟩
    rw [repeatWhile, run_bind_of_ok hc]
    dsimp only
    rw [run_bind_of_ok hb]
    cases pass with
    | stop flow => cases hp
    | value v? => exact ih
    | skipped => exact ih

theorem run_passes_of_turns {run : CodeRef → Exec Flow} {kind : Traversal} {params : List String}
    {count count' : Nat} {items items' : List Value}
    (h : Turns run kind params body count items m count' items' m') (collected : List Value) :
    ∃ collected', (passes run kind params body count items collected).run.run m =
      (passes run kind params body count' items' collected').run.run m' := by
  induction h generalizing collected with
  | none count items m => exact ⟨collected, rfl⟩
  | skipped hb h ih =>
    obtain ⟨collected', ih⟩ := ih collected
    refine ⟨collected', ?_⟩
    rw [passes, run_bind_of_ok (run_bindAll_turn ..), run_bind_of_ok hb]
    · exact ih
    · exact nofun
  | @value count count' item items items' more result? m passed last hb hk h ih =>
    obtain ⟨collected', ih⟩ := ih (more ++ collected)
    refine ⟨collected', ?_⟩
    rw [passes, run_bind_of_ok (run_bindAll_turn ..), run_bind_of_ok hb]
    · dsimp only
      rw [hk]
      exact ih
    · exact nofun

/-- A pass on the way out of a function stops its loop and leaves the operands. -/
theorem run_runPass_returned {run : CodeRef → Exec Flow}
    (h : (runInPlace run body).run.run m = (.ok .returned, after)) :
    (runPass run body).run.run m = (.ok (.stop .returned), after) := by
  rw [runPass, run_bind_of_ok (run_height m), run_bind_of_ok h]
  rfl

theorem run_while_returned {count : Nat} {run : CodeRef → Exec Flow} {r : Except Halt Flow × Machine}
    {rest : List Value} {n : Nat} (hs : m.stack = body :: condition :: rest) (hn : n < count)
    (hr : Rounds run condition body n { m with stack := rest } m')
    (h : ∀ k, (repeatWhile run condition body (k + 1)).run.run m' = r) :
    (runWhile run count).run.run m = r := by
  obtain ⟨k, hk⟩ := run_repeatWhile_of_rounds hr hn
  rw [runWhile, run_bind_of_ok (run_pop₂_of hs)]
  exact hk.trans (h k)

theorem run_attempt_returned {run : CodeRef → Exec Flow} {rest : List Value} (report : Bool)
    (hs : m.stack = body :: rest)
    (h : (runInPlace run body).run.run { m with stack := rest, tryDepth := m.tryDepth + 1 } =
      (.ok .returned, after)) :
    (attempt run report).run.run m =
      (.ok .returned, { after with tryDepth := after.tryDepth - 1 }) := by
  have htrying : (trying run body).run.run { m with stack := rest } =
      (.ok (.ok .returned), { after with tryDepth := after.tryDepth - 1 }) := by
    rw [trying, run_bind_of_ok (run_modify ..), run_bind_of_ok (run_observe ..), h]
    rfl
  rw [attempt, run_bind_of_ok (run_pop_of hs), run_bind_of_ok (run_height _),
    run_bind_of_ok htrying]
  cases report <;> rfl

section

variable {run : CodeRef → Exec Flow} {rest : List Value}
  (h : (runInPlace run body).run.run { m with stack := rest } = (.ok .returned, after))

include h

theorem run_makeArray_returned (hs : m.stack = body :: rest) (hb : body.items?.isSome) :
    (makeArray run).run.run m = (.ok .returned, after) := by
  have hcollect : (collectFrom run body).run.run { m with stack := rest } =
      (.ok .returned, after) := by
    rw [collectFrom, run_bind_of_ok (run_height _), run_bind_of_ok h]
    rfl
  rw [makeArray, run_bind_of_ok (run_pop_of hs)]
  cases body with
  | block items dynamic => exact hcollect
  | inline items => exact hcollect
  | _ => cases hb

/-- A dictionary cuts the operands although it is left on a way out. -/
theorem run_makeDictionary_returned (hs : m.stack = body :: rest) (hb : body.items?.isSome) :
    ∃ last, (makeDictionary run).run.run m = (.ok .returned, last) ∧
      last.stack = below rest.length after.stack := by
  obtain ⟨items, hitems⟩ := Option.isSome_iff_exists.1 hb
  have hbody : (do
      let flow ← runInPlace run body
      return (flow, entriesOf (← get).world (Value.labels items)) : Exec _).run.run
        { m with stack := rest } =
      (.ok (.returned, entriesOf after.world (Value.labels items)), after) := by
    rw [run_bind_of_ok h]
    rfl
  rw [makeDictionary, run_bind_of_ok (run_pop_of hs), hitems]
  dsimp only
  rw [run_bind_of_ok (run_height _), run_bind_of_ok (run_protecting _ hbody)]
  exact ⟨_, rfl, rfl⟩

end

theorem run_traverse_returned {run : CodeRef → Exec Flow} {kind : Traversal}
    {collection params item : Value} {rest items items' : List Value} {names : List String}
    {count : Nat} (hs : m.stack = body :: params :: collection :: rest)
    (hp : params.parameterNames kind.name = .ok names)
    (he : Value.elements m.world.heap kind.name collection = .ok items)
    (ht : Turns run kind names body items.length items { m with stack := rest }
      (count + 1) (item :: items') m')
    (h : (runInPlace run body).run.run (m'.turn names (item :: items')) = (.ok .returned, after)) :
    ∃ last, (Exec.traverse run kind).run.run m = (.ok .returned, last) ∧ last.stack = after.stack := by
  obtain ⟨collected, hpasses⟩ := run_passes_of_turns ht []
  have hstop : (passes run kind names body (count + 1) (item :: items') collected).run.run m' =
      (.ok (.returned, collected), after) := by
    rw [passes, run_bind_of_ok (run_bindAll_turn ..), run_bind_of_ok (run_runPass_returned h)]
    · rfl
    · exact nofun
  rw [Exec.traverse, run_bind_of_ok (run_pop₃_of hs)]
  dsimp only
  rw [hp, run_bind_of_ok (run_answer ..), run_bind_of_ok (run_heap _), he,
    run_bind_of_ok (run_answer ..), run_bind_of_ok (run_protecting _ (hpasses.trans hstop))]
  exact ⟨_, rfl, rfl⟩

/-- **An operation is left on the way out of a function as its body is**: it hands the flow on, and it
does not touch the operands but by its cuts. -/
theorem perform_returned {b : Builtin} {cuts : List Nat} (ho : Opens fuel m b body m' cuts)
    (h : (runInPlace (runCode fuel) body).run.run m' = (.ok .returned, after)) :
    ∃ last, (perform fuel (runCode fuel) b).run.run m = (.ok .returned, last) ∧
      last.stack = cuts.foldr below after.stack := by
  cases ho with
  | branch hb hs hc =>
    refine ⟨after, ?_, rfl⟩
    rw [hb, branch, run_bind_of_ok (run_pop₂_of hs)]
    dsimp only
    rwa [hc, run_bind_of_ok (run_answer ..), if_pos rfl]
  | branchReport hs hc =>
    refine ⟨after, ?_, rfl⟩
    rw [perform, Exec.branchReport, run_bind_of_ok (run_pop₂_of hs)]
    dsimp only
    rw [hc, run_bind_of_ok (run_answer ..), if_pos rfl, run_bind_of_ok h]
    rfl
  | choose hs hc hb =>
    refine ⟨after, ?_, rfl⟩
    rw [perform, Exec.choose, run_bind_of_ok (run_pop₃_of hs)]
    dsimp only
    rwa [hc, run_bind_of_ok (run_answer ..), hb]
  | whileCondition hs hn hr hc =>
    refine ⟨after, run_while_returned hs hn hr fun k => ?_, rfl⟩
    have htest : (testCondition (runCode fuel) body).run.run m' =
        (.ok (.error .returned), after) := by
      rw [testCondition, hc]
      exact run_bind_of_ok h
    rw [repeatWhile, run_bind_of_ok htest]
    rfl
  | whileBody hs hn hr hc =>
    refine ⟨after, run_while_returned hs hn hr fun k => ?_, rfl⟩
    rw [repeatWhile, run_bind_of_ok hc]
    dsimp only
    rw [run_bind_of_ok (run_runPass_returned h)]
    rfl
  | run hs hb =>
    refine ⟨after, ?_, rfl⟩
    rw [perform, runValue, run_bind_of_ok (run_pop_of hs)]
    cases body with
    | string source => exact absurd rfl hb
    | _ => exact h
  | runSource hs hr =>
    refine ⟨after, ?_, rfl⟩
    rw [perform, runValue, run_bind_of_ok (run_pop_of hs)]
    dsimp only
    rwa [run_bind_of_ok hr]
  | attempt hb hs =>
    rw [hb]
    exact ⟨_, run_attempt_returned _ hs h, rfl⟩
  | ensure hs =>
    refine ⟨after, ?_, rfl⟩
    rw [perform, Exec.ensure, run_bind_of_ok (run_pop_of hs)]
    dsimp only
    rw [run_bind_of_ok h]
    rfl
  | array hs hb => exact ⟨after, run_makeArray_returned h hs hb, rfl⟩
  | dictionary hs hb => exact run_makeDictionary_returned h hs hb
  | traverse hb hs hp he ht =>
    rw [hb]
    exact run_traverse_returned hs hp he ht h

/-! ## The whole way -/

/-- The run from a place gets to another one in the same call: by the instructions of a unit, and into
the bodies that operations run in place. The heights are those that the operations on the way cut the
operands to. -/
inductive Reaches (goal : Place) : Place → (cuts : List Nat) → Prop
  | here : Reaches goal goal []
  | next {p q : Place} {cuts : List Nat} (hn : p.next? = some q) (h : Reaches goal q cuts) :
      Reaches goal p cuts
  | inside {p q : Place} {fuel : Nat} {b : Builtin} {body : Value} {m : Machine}
      {cuts cuts' : List Nat} (hp : p.fuel = fuel + 1) (hi : p.Operates b)
      (ho : Opens fuel p.machine b body m cuts) (hb : m.Begins fuel body q)
      (h : Reaches goal q cuts') : Reaches goal p (cuts ++ cuts')

/-- The next instruction is a return. -/
def Place.AtReturn (p : Place) : Prop := 0 < p.fuel ∧ p.Operates .returnFlow

theorem Place.outcome_of_atReturn {p : Place} (h : p.AtReturn) :
    p.outcome = (.ok .returned, { p.machine with attrs := [] }) := by
  refine outcome_of_operates (Nat.sub_add_cancel h.1).symm h.2 (by simp) ?_
  rw [callBuiltin, run_afterwards]
  rfl

/-- **Along the whole way the flow is handed on**, and the operands are cut only by the cuts. -/
theorem outcome_of_reaches {goal p : Place} {cuts : List Nat} (h : Reaches goal p cuts)
    (hg : goal.outcome = (.ok .returned, after)) :
    ∃ last, p.outcome = (.ok .returned, last) ∧ last.stack = cuts.foldr below after.stack := by
  induction h with
  | here => exact ⟨after, hg, rfl⟩
  | next hn _ ih =>
    rw [Place.outcome_of_next? hn]
    exact ih
  | @inside p q fuel b body m cuts cuts' hp hi ho hb _ ih =>
    obtain ⟨inner, hinner, hstack⟩ := ih
    obtain ⟨outer, houter, hcut⟩ := perform_returned ho (run_runInPlace hb hinner)
    have hcall : (callBuiltin fuel (runCode fuel) b).run.run p.machine =
        (.ok .returned, { outer with attrs := [] }) := by
      rw [callBuiltin, run_afterwards, houter]
    refine ⟨_, Place.outcome_of_operates hp hi (by simp) hcall, ?_⟩
    rw [List.foldr_append, ← hstack]
    exact hcut

/-! ## The end of the call -/

theorem below_of_length_le {base : Nat} {stack : List Value} (h : stack.length ≤ base) :
    below base stack = stack := by
  rw [below, Nat.sub_eq_zero_of_le h, List.drop_zero]

theorem foldr_below {cuts : List Nat} {stack : List Value} (h : ∀ c ∈ cuts, stack.length ≤ c) :
    cuts.foldr below stack = stack := by
  induction cuts with
  | nil => rfl
  | cons c cuts ih =>
    rw [List.foldr_cons, ih fun c hc => h c (List.mem_cons_of_mem _ hc),
      below_of_length_le (h c List.mem_cons_self)]

/-- A function keeps its top operand, and drops what else is above the operands that were there. -/
theorem run_keepTop_of {v : Value} {rest : List Value} (base : Nat) (hs : m.stack = v :: rest) :
    (keepTop base).run.run m = (.ok ⟨⟩, { m with stack := v :: below base rest }) := by
  rw [keepTop, run_bind_of_ok (run_height m)]
  by_cases h : base < m.stack.length
  · rw [if_pos h, run_bind_of_ok (run_pop_of hs)]
    rfl
  · have hle : rest.length ≤ base := by
      rw [hs, List.length_cons] at h
      omega
    rw [if_neg h, below_of_length_le hle, ← hs]
    rfl

theorem run_inScope_of_top {run : CodeRef → Exec Flow} {o : BlockOptions} {code : Exec CodeRef}
    {v : Value} {rest : List Value} (ho : o.inPlace = false) (hf : o.functionBoundary = true)
    (key? : Option MemoKey) (h : o.params.length ≤ m.stack.length)
    (hb : (descend run code).run.run (o.enter m) = (.ok flow, after)) (hs : after.stack = v :: rest) :
    ∃ last, (inScope run o code key?).run.run m = (.ok .done, last) ∧
      last.stack = v :: below (m.stack.length - o.params.length) rest := by
  let bound : Machine :=
    { m with world := o.imports.foldl (fun w (name, v) => w.set name v) m.world }
  have hparams : (bindParameters o.params).run.run bound = (.ok ⟨⟩, o.enter m) := by
    rw [run_bindParameters (m := bound) h, BlockOptions.enter, List.foldl_append]
  have hbase : (o.enter m).stack.length = m.stack.length - o.params.length := List.length_drop
  have hbody : (observe (descend run code)).run.run (o.enter m) = (.ok (.ok flow), after) := by
    rw [run_observe, hb]
  rw [inScope, run_bind_of_ok (run_get m), run_bind_of_ok (run_bindAll m o.imports),
    run_bind_of_ok hparams, run_bind_of_ok (run_height _), run_bind_of_ok hbody, hbase]
  generalize m.stack.length - o.params.length = base
  simp only [ho, hf, Bool.false_eq_true, if_false, if_true]
  rw [run_bind_of_ok (run_keepTop_of base hs), run_bind_of_ok (run_modifyScope ..)]
  cases key? with
  | none => exact ⟨_, rfl, rfl⟩
  | some key =>
    obtain ⟨memo, hremember⟩ := run_remember key base { after with
      stack := v :: below base rest
      world.scope := o.scopeAfter m.world.scope after.world.scope }
    dsimp only
    exact ⟨_, run_bind_of_ok hremember, rfl⟩

/-- **A returned value reaches the caller.** If the body of a function gets to a return with a value on
top, in the same call and through whatever constructs, the call ends, and it leaves this value on top of
the operands below its arguments. Of the dictionaries on the way it is required that the value does not
lie above the operands that they were given. -/
theorem returned_on_top {ref : FunctionRef} {f : UserFunction} {c? : Option CodeRef} {p goal : Place}
    {cuts : List Nat} {v : Value} {rest : List Value}
    (hf : m.world.heap.callable? ref = some (.user f c?)) (he : m.Enters ref f)
    (hp : Place.start? fuel (functionCode ref) (m.entered f) = some p) (hr : Reaches goal p cuts)
    (hg : goal.AtReturn) (hv : goal.machine.stack = v :: rest)
    (hc : ∀ c ∈ cuts, goal.machine.stack.length ≤ c) :
    ∃ after, m.call fuel ref = (.ok .done, after) ∧
      after.stack = v :: below (m.stack.length - f.params.length) rest := by
  obtain ⟨inner, hinner, hstack⟩ := outcome_of_reaches hr (Place.outcome_of_atReturn hg)
  have htop : inner.stack = v :: rest := by
    rw [hstack, ← hv]
    exact foldr_below hc
  have hbody := run_descend_of_start? hp
  rw [hinner] at hbody
  obtain ⟨memo, hcall⟩ := run_callFunction_of_le (runCode fuel) fuel hf he.operands
  simp only [he.notKept, if_neg (Nat.not_le.2 he.depth)] at hcall
  obtain ⟨after, hafter, hleft⟩ := run_inScope_of_top (m := { m with attrs := [] })
    (o := f.options ref (0 < m.tryDepth)) rfl rfl (m.callKey? ref f) he.operands hbody htop
  exact ⟨after, hcall.trans hafter, hleft⟩

/-- The code goes at once to an operation on a block, its only operand, and the block at once to a return
with an integer, the only operand again. -/
abbrev Place.ReturnsInside (p : Place) (fuel : Nat) (o : Opcode) (i : Int64) : Prop :=
  ∃ q ∈ p.next?, q.fuel = fuel + 1 ∧ (decode q.unit.code q.pos).instruction? = some (.op o) ∧
    q.machine.stack.length = 1 ∧
    let body := q.machine.stack.headD .null
    let given : Machine := { q.machine with stack := [] }
    body.items?.isSome ∧ given.depth < given.world.config.maxDepth ∧
    ∃ inner ∈ Place.start? fuel (bodyCode body) given, ∃ goal ∈ inner.next?,
    0 < goal.fuel ∧ (decode goal.unit.code goal.pos).instruction? = some (.op .returnFlow) ∧
    goal.machine.stack.map Value.integer? = [some i]

theorem Place.ReturnsInside.reaches {p : Place} {o : Opcode} {i : Int64} {b : Builtin} {cuts : List Nat}
    (h : p.ReturnsInside fuel o i) (hb : b.opcode? = some o)
    (ho : ∀ (m : Machine) (body : Value), m.stack = [body] → body.items?.isSome →
      Opens fuel m b body { m with stack := [] } cuts) :
    ∃ goal, Reaches goal p cuts ∧ goal.AtReturn ∧ goal.machine.stack.map Value.integer? = [some i] := by
  obtain ⟨q, hq, hfuel, hop, hlength, hbody, hdepth, inner, hinner, goal, hgoal, hleft, hreturn, hi⟩ := h
  have hstack : q.machine.stack = [q.machine.stack.headD .null] := by
    obtain ⟨v, hv⟩ := List.length_eq_one_iff.1 hlength
    rw [hv]
    rfl
  have hreaches : Reaches goal p (cuts ++ []) :=
    .next hq (.inside hfuel (.opcode hop hb) (ho _ _ hstack hbody) ⟨hdepth, hinner⟩ (.next hgoal .here))
  rw [List.append_nil] at hreaches
  exact ⟨goal, hreaches, ⟨hleft, .opcode hreturn rfl⟩, hi⟩

/-- A value returned out of an array. -/
theorem returned_on_top_array :
    let f : UserFunction := {
      params := []
      main := .block [.symbol .atSign, .block [.word "return", .integer 5] false] false }
    let ref : FunctionRef := ((World.initial {}).heap.addUser f).1
    let m : Machine := { world := ((World.initial {}).addUser f).2 }
    ∃ after, m.call 100 ref = (.ok .done, after) ∧ after.stack.map Value.integer? = [some 5] := by
  intro f ref m
  obtain ⟨c?, hf⟩ := exists_callable?_addUser (World.initial {}).heap f
  have he : m.Enters ref f := ⟨Nat.le_refl 0, rfl, by decide +kernel⟩
  obtain ⟨p, hp, hinside⟩ : ∃ p ∈ Place.start? 100 (functionCode ref) (m.entered f),
      p.ReturnsInside 98 .array 5 := by
    decide +kernel
  obtain ⟨goal, hreaches, hreturn, hfive⟩ :=
    hinside.reaches (b := .array) rfl fun _ _ hs hbody => .array hs hbody
  obtain ⟨v, hv, hfive⟩ := List.map_eq_singleton_iff.1 hfive
  obtain ⟨after, hcall, hafter⟩ := returned_on_top (m := m) (f := f) hf he hp hreaches hreturn hv nofun
  refine ⟨after, hcall, ?_⟩
  rw [hafter, List.map_cons, hfive]
  rfl

/-- A value returned out of a dictionary is lost: it is on top when the return is reached, and the call
ends without a result. -/
theorem returned_cut_off :
    let f : UserFunction := {
      params := []
      main := .block [.symbol .sharp, .block [.word "return", .integer 5] false] false }
    let ref : FunctionRef := ((World.initial {}).heap.addUser f).1
    let m : Machine := { world := ((World.initial {}).addUser f).2 }
    ∃ p goal cuts, Place.start? 100 (functionCode ref) (m.entered f) = some p ∧
      Reaches goal p cuts ∧ goal.AtReturn ∧ goal.machine.stack.map Value.integer? = [some 5] ∧
      (m.call 100 ref).1 = .ok .done ∧ (m.call 100 ref).2.stack.length = 0 := by
  intro f ref m
  obtain ⟨p, hp, hinside⟩ : ∃ p ∈ Place.start? 100 (functionCode ref) (m.entered f),
      p.ReturnsInside 98 .dictionary 5 := by
    decide +kernel
  obtain ⟨goal, hreaches, hreturn, hfive⟩ :=
    hinside.reaches (b := .dictionary) rfl fun _ _ hs hbody => .dictionary hs hbody
  exact ⟨p, goal, _, hp, hreaches, hreturn, hfive, by decide +kernel, by decide +kernel⟩

end BlockLang
