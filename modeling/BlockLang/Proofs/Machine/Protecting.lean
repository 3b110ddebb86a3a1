import Mathlib.Data.List.Induction
import BlockLang.Proofs.Machine.Levels
import BlockLang.Proofs.Machine.Returning

/-!
# Names that a loop or a dictionary binds

The loops over a collection bind their parameters, and the body of a dictionary its labels, in the scope
around them. Each runs its body inside of `protecting`, which puts these names back.

**Theorem (`protectsNames`).** However a protected run ends, the protected names are as before, with
their arities, and every other name is as the run has left it. So a loop leaves its parameters, and a
dictionary its labels, as they were.

Of the code that is run nothing is assumed. It may bind and unbind the names, end on a way out or with
an error, and protect the same names again.
-/

namespace BlockLang

open Exec

/-! ## Labels -/

namespace Value

variable {items : List Value} {name : String}

theorem labels_concat (items : List Value) (v : Value) :
    labels (items ++ [v]) =
      match v with
      | .label s => if (labels items).contains s then labels items else labels items ++ [s]
      | _ => labels items := by
  rw [labels, List.foldl_append]
  rfl

theorem mem_labels : name ∈ labels items ↔ .label name ∈ items := by
  induction items using List.reverseRecOn with
  | nil => simp [labels]
  | append_singleton items v ih =>
    rw [labels_concat, List.mem_append, ← ih, List.mem_singleton]
    cases v with
    | label s =>
      dsimp only
      split
      · next hs =>
        have hs : s ∈ labels items := List.contains_iff_mem.1 hs
        constructor
        · exact .inl
        · rintro (h | h)
          · exact h
          · cases h
            exact hs
      · simp
    | _ => simp

end Value

namespace Exec

variable {α β π : Type} {m : Machine} {names : List String} {name : String}

/-! ## Protected runs -/

/-- A run is known by its answer, up to the machine that it leaves. -/
theorem exists_eq_of_fst_eq {r : α × β} {a : α} (h : r.1 = a) : ∃ b, r = (a, b) :=
  ⟨r.2, Prod.ext h rfl⟩

/-- **A protected run** changes nothing for the names, and what the run itself has changed for all
others. -/
theorem entry_protecting (names : List String) (x : Exec α) (m : Machine) (name : String) :
    ((protecting names x).run.run m).2.world.scope.entry name =
      if name ∈ names then m.world.scope.entry name
      else (x.run.run m).2.world.scope.entry name := by
  rw [run_protecting names (Prod.eta (x.run.run m)).symm]
  exact Scope.entry_restoreNames ..

/-- What follows leaves a part of the machine as the first piece has left it. -/
theorem part_bind {part : Machine → π} {f : α → Exec β} (hf : ∀ a, Leaves part (f a)) (x : Exec α)
    (m : Machine) : part ((x >>= f).run.run m).2 = part (x.run.run m).2 := by
  rw [run_bind]
  rcases x.run.run m with ⟨e | a, after⟩
  · rfl
  · exact hf a after

/-- The piece leaves the scope as it is, however it ends. -/
abbrev LeavesScope (x : Exec α) : Prop := Leaves (·.world.scope) x

theorem leavesScope_push (v : Value) : LeavesScope (push v) := fun _ => rfl

theorem leavesScope_cutTo (base : Nat) : LeavesScope (cutTo base) := fun _ => rfl

theorem leavesScope_addDictionary (entries : NameTable Value) :
    LeavesScope (inWorld (·.addDictionary entries)) := fun _ => rfl

end Exec

/-! ## Loops and dictionaries -/

/-- The run of an operation in `m`. -/
def Machine.performed (m : Machine) (fuel : Nat) (run : CodeRef → Exec Flow) (b : Builtin) :
    Except Halt Flow × Machine :=
  (perform fuel run b).run.run m

/-- The operation that makes a loop of the kind. -/
def Exec.Traversal.builtin : Traversal → Builtin
  | loop => .loop
  | map => .map
  | select => .select

section

variable {run : CodeRef → Exec Flow} {m : Machine} {body params collection : Value}
  {rest items : List Value} {names : List String}

theorem performed_traversal (m : Machine) (fuel : Nat) (run : CodeRef → Exec Flow)
    (kind : Traversal) :
    m.performed fuel run kind.builtin = (traverse run kind).run.run m := by
  cases kind <;> rfl

/-- The passes of a loop over a collection, made for its operands. -/
def Machine.passesMade (m : Machine) (run : CodeRef → Exec Flow) (kind : Traversal)
    (names : List String) (items : List Value) (body : Value) (rest : List Value) :
    Except Halt (Flow × List Value) × Machine :=
  (passes run kind names body items.length items []).run.run { m with stack := rest }

/-- A loop with something to pass over leaves the parameters as they were, and all other names as its
passes have left them. -/
theorem entry_traverse (kind : Traversal) (hs : m.stack = body :: params :: collection :: rest)
    (hp : params.parameterNames kind.name = .ok names)
    (he : Value.elements m.world.heap kind.name collection = .ok items) (name : String) :
    ((traverse run kind).run.run m).2.world.scope.entry name =
      if name ∈ names then m.world.scope.entry name
      else (m.passesMade run kind names items body rest).2.world.scope.entry name := by
  rw [Exec.traverse, run_bind_of_ok (run_pop₃_of hs)]
  dsimp only
  rw [hp, run_bind_of_ok (run_answer ..), run_bind_of_ok (run_heap _), he,
    run_bind_of_ok (run_answer ..)]
  have hafter (r : Flow × List Value) : LeavesScope (do
      if r.1 = .done && kind ≠ .loop then push (.block r.2.reverse true)
      return r.1) :=
    .when (leavesScope_push _) fun _ => .pure _
  rw [part_bind hafter]
  exact entry_protecting names _ { m with stack := rest } name

/-- A loop without anything to pass over fails, with the scope as it was. -/
theorem scope_traverse_of_error {e : RuntimeError} (kind : Traversal)
    (hs : m.stack = body :: params :: collection :: rest)
    (hp : params.parameterNames kind.name = .ok names)
    (he : Value.elements m.world.heap kind.name collection = .error e) :
    ((traverse run kind).run.run m).2.world.scope = m.world.scope := by
  rw [Exec.traverse, run_bind_of_ok (run_pop₃_of hs)]
  dsimp only
  rw [hp, run_bind_of_ok (run_answer ..), run_bind_of_ok (run_heap _), he]
  rfl

/-- A dictionary leaves its labels as they were, and all other names as its body has left them. -/
theorem entry_makeDictionary (hs : m.stack = body :: rest) (hb : body.items? = some items)
    (name : String) :
    ((makeDictionary run).run.run m).2.world.scope.entry name =
      if name ∈ Value.labels items then m.world.scope.entry name
      else ((runInPlace run body).run.run { m with stack := rest }).2.world.scope.entry name := by
  rw [makeDictionary, run_bind_of_ok (run_pop_of hs), hb]
  dsimp only
  rw [run_bind_of_ok (run_height _)]
  have hafter (r : Flow × NameTable Value) : LeavesScope (do
      cutTo rest.length
      if r.1 = .done then push (← inWorld (·.addDictionary r.2))
      return r.1) := by
    refine (leavesScope_cutTo _).bind fun _ => ?_
    exact .ite ((leavesScope_addDictionary r.2).bind fun v =>
      (leavesScope_push v).bind fun _ => .pure _) (.pure _)
  have hentries (flow : Flow) : LeavesScope (do
      return (flow, entriesOf (← get).world (Value.labels items))) := fun _ => rfl
  rw [part_bind hafter, entry_protecting, part_bind hentries]

end

/-- What is left of the names that are bound for a run. -/
structure ProtectsNames (fuel : Nat) (run : CodeRef → Exec Flow) (m : Machine) : Prop where
  /-- A protected run ends as the run itself does. -/
  answer {α : Type} (names : List String) (x : Exec α) :
    ((protecting names x).run.run m).1 = (x.run.run m).1
  /-- The protected names are as before, and all others as the run has left them. -/
  entry {α : Type} (names : List String) (x : Exec α) (name : String) :
    ((protecting names x).run.run m).2.world.scope.entry name =
      if name ∈ names then m.world.scope.entry name
      else (x.run.run m).2.world.scope.entry name
  /-- A loop over a collection leaves its parameters as they were. -/
  parameters (kind : Traversal) (body params collection : Value) (rest : List Value)
      (names : List String) :
    m.stack = body :: params :: collection :: rest →
    params.parameterNames kind.name = .ok names →
    ∀ name ∈ names, (m.performed fuel run kind.builtin).2.world.scope.entry name =
      m.world.scope.entry name
  /-- It leaves all other names as its passes have left them. -/
  others (kind : Traversal) (body params collection : Value) (rest items : List Value)
      (names : List String) :
    m.stack = body :: params :: collection :: rest →
    params.parameterNames kind.name = .ok names →
    Value.elements m.world.heap kind.name collection = .ok items →
    ∀ name ∉ names, (m.performed fuel run kind.builtin).2.world.scope.entry name =
      (m.passesMade run kind names items body rest).2.world.scope.entry name
  /-- A dictionary leaves its labels as they were. -/
  labels (body : Value) (rest items : List Value) :
    m.stack = body :: rest → body.items? = some items →
    ∀ name, .label name ∈ items →
      (m.performed fuel run .dictionary).2.world.scope.entry name =
        m.world.scope.entry name
  /-- It leaves all other names as its body has left them. -/
  unlabelled (body : Value) (rest items : List Value) :
    m.stack = body :: rest → body.items? = some items →
    ∀ name, .label name ∉ items →
      (m.performed fuel run .dictionary).2.world.scope.entry name =
        ((runInPlace run body).run.run { m with stack := rest }).2.world.scope.entry name

/-- **Names that are bound for a run are put back after it**, whatever the run does and however it
ends. -/
theorem protectsNames (fuel : Nat) (run : CodeRef → Exec Flow) (m : Machine) :
    ProtectsNames fuel run m := by
  refine ⟨?answer, ?entry, ?parameters, ?others, ?labels, ?unlabelled⟩
  case answer =>
    intro α names x
    rw [run_protecting names (Prod.eta (x.run.run m)).symm]
  case entry => exact fun names x name => entry_protecting names x m name
  case parameters =>
    intro kind body params collection rest names hs hp name hname
    rw [performed_traversal]
    cases he : Value.elements m.world.heap kind.name collection with
    | error e => rw [scope_traverse_of_error kind hs hp he]
    | ok items => rw [entry_traverse kind hs hp he, if_pos hname]
  case others =>
    intro kind body params collection rest items names hs hp he name hname
    rw [performed_traversal, entry_traverse kind hs hp he, if_neg hname]
  case labels =>
    intro body rest items hs hb name hname
    exact (entry_makeDictionary hs hb name).trans (if_pos (Value.mem_labels.2 hname))
  case unlabelled =>
    intro body rest items hs hb name hname
    exact (entry_makeDictionary hs hb name).trans (if_neg (hname ∘ Value.mem_labels.1))

/-- A loop that is left by a break, after its body has given its parameter and another name a value. -/
theorem protectsNames_break :
    let body : Value :=
      .block [.label "x", .integer 7, .label "y", .word "x", .word "break"] false
    let m : Machine := {
      world := (World.initial {}).set "x" (.integer 5)
      stack := [body, .block [.word "x"] false, .integer 3] }
    let after := (m.performed 100 (runCode 100) Traversal.loop.builtin).2
    after.world.scope.entry "x" = m.world.scope.entry "x" ∧
      (m.world.get? "x").bind Value.integer? = some 5 ∧
      (after.world.get? "y").bind Value.integer? = some 7 := by
  intro body m after
  have hruns : (m.world.get? "x").bind Value.integer? = some 5 ∧
    (after.world.get? "y").bind Value.integer? = some 7 := by decide +kernel
  have hnames : (Value.block [.word "x"] false).parameterNames "loop" = .ok ["x"] := rfl
  have hx := (protectsNames 100 (runCode 100) m).parameters .loop body _ _ [] _ rfl hnames "x"
    List.mem_cons_self
  exact ⟨by rw [hx], hruns⟩

end BlockLang
