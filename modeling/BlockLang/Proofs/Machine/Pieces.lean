import BlockLang.Machine.Run
import BlockLang.Proofs.Simulation

/-!
# What the pieces of a run do

One equation for each piece that has just one way to go: looking at the machine, taking operands that
are there, and handing an outcome on. A run is followed by rewriting with them, piece by piece.

A piece may leave a part of the machine as it is, however it ends (`Leaves`); what is put together from such
pieces does so too. Pieces that are about operands leave every part that lies apart from them (`Apart`).
-/

namespace BlockLang.Exec

variable {α : Type}

section

variable (m : Machine)

theorem run_get : (get : Exec Machine).run.run m = (.ok m, m) := rfl

theorem run_heap : heap.run.run m = (.ok m.world.heap, m) := rfl

theorem run_height : height.run.run m = (.ok m.stack.length, m) := rfl

theorem run_clearAttrs : clearAttrs.run.run m = (.ok ⟨⟩, { m with attrs := [] }) := rfl

theorem run_bindAll (bindings : List (String × Value)) :
    (bindAll bindings).run.run m = (.ok ⟨⟩, { m with
      world := bindings.foldl (fun w (name, v) => w.set name v) m.world }) := rfl

theorem run_modifyScope (f : Scope → Scope) :
    (modifyScope f).run.run m = (.ok ⟨⟩, { m with world.scope := f m.world.scope }) := rfl

theorem run_pop (v : Value) (stack : List Value) :
    pop.run.run { m with stack := v :: stack } = (.ok v, { m with stack }) := rfl

/-- An answer that is there already. -/
theorem run_answer (a : α) :
    (liftM (.ok a : Except RuntimeError α) : Exec α).run.run m = (.ok a, m) := rfl

theorem run_observe (x : Exec α) :
    (observe x).run.run m = (.ok (x.run.run m).1, (x.run.run m).2) := run_lift ..

theorem run_afterwards (x : Exec α) (f : Machine → Machine) :
    (afterwards x f).run.run m = ((x.run.run m).1, f (x.run.run m).2) := by
  rw [afterwards, run_bind_of_ok (run_observe m x)]
  cases (x.run.run m).1 <;> rfl

theorem run_protecting {x : Exec α} {r : Except Halt α} {m after : Machine} (names : List String)
    (h : x.run.run m = (r, after)) :
    (protecting names x).run.run m = (r, { after with
      world.scope := after.world.scope.restoreNames m.world.scope names }) := by
  rw [protecting, run_bind_of_ok (run_get m), run_bind_of_ok (run_observe m x), h]
  cases r <;> rfl

theorem run_areEqual (fuel : Nat) (a b : Value) :
    (areEqual fuel a b).run.run m =
      (match Value.equalWithin m.world.heap fuel a b with
        | some equal => .ok equal
        | none => .error .outOfFuel, m) := by
  rw [areEqual, run_bind_of_ok (run_heap m)]
  cases Value.equalWithin m.world.heap fuel a b <;> rfl

end

/-- What looks at the outcome of a piece and stays out of fuel is not out of fuel by the piece. -/
theorem ne_outOfFuel_of_observe {β : Type} {x : Exec α} {k : Except Halt α → Exec β} {m : Machine}
    (hk : ∀ m, ((k (.error .outOfFuel)).run.run m).1 = .error .outOfFuel)
    (h : ((observe x >>= k).run.run m).1 ≠ .error .outOfFuel) : (x.run.run m).1 ≠ .error .outOfFuel := by
  intro he
  rw [run_bind, run_observe] at h
  change ((k (x.run.run m).1).run.run (x.run.run m).2).1 ≠ _ at h
  rw [he] at h
  exact h (hk _)

/-! ## Single instructions -/

/-- One instruction of a unit and what comes after it: `instruct` runs an instruction that neither jumps
nor ends the unit, and `next` goes on from an offset. -/
def advance (u : CodeUnit) (pos : Nat) (instruct : Instruction → Exec Flow)
    (next : Nat → Exec Flow) : Exec Flow := do
  let decoded := decode u.code pos
  match decoded.instruction? with
  | none => fail (.invalidBytecode pos)
  | some (.op .stop) => return .done
  | some (.jump condition target) =>
    next (if ← isTaken condition then target.toNat else decoded.next)
  | some i =>
    match ← instruct i with
    | .done => next decoded.next
    | flow => return flow

theorem execute_succ (fuel : Nat) (u : CodeUnit) (pos : Nat) :
    execute (fuel + 1) u pos =
      advance u pos (runInstruction fuel (runCode fuel) u pos) (execute fuel u) := rfl

/-- An instruction that neither jumps nor ends the unit is run, and what comes after it if it is done. -/
theorem advance_of_instruction {u : CodeUnit} {pos : Nat} {i : Instruction}
    {instruct : Instruction → Exec Flow} {next : Nat → Exec Flow}
    (hi : (decode u.code pos).instruction? = some i) (hs : i ≠ .op .stop)
    (hj : ∀ condition target, i ≠ .jump condition target) :
    advance u pos instruct next = (do
      match ← instruct i with
      | .done => next (decode u.code pos).next
      | flow => return flow) := by
  rw [advance, hi]
  split
  · next h => cases h
  · next h => exact absurd (Option.some.inj h) hs
  · next h => exact absurd (Option.some.inj h) (hj _ _)
  · next h =>
    obtain rfl := Option.some.inj h
    rfl

/-! ## What pieces leave as it is -/

/-- The piece leaves a part of the machine as it is, however it ends. -/
def Leaves {π : Type} (part : Machine → π) (x : Exec α) : Prop :=
  ∀ m, part (x.run.run m).2 = part m

namespace Leaves

variable {β π : Type} {part : Machine → π} {x y : Exec α}

theorem pure (a : α) : Leaves part (pure a : Exec α) := fun _ => rfl

theorem throw (halt : Halt) : Leaves part (throw halt : Exec α) := fun _ => rfl

theorem bind {f : α → Exec β} (hx : Leaves part x) (hf : ∀ a, Leaves part (f a)) :
    Leaves part (x >>= f) := by
  intro m
  have hm := hx m
  rw [run_bind]
  revert hm
  rcases x.run.run m with ⟨e | a, n⟩ <;> intro hm
  · exact hm
  · exact (hf a n).trans hm

/-- A look at the machine, and what follows for the machine that is there. -/
theorem get {f : Machine → Exec α} (h : ∀ m, Leaves part (f m)) :
    Leaves part (MonadState.get >>= f) := fun m => h m m

theorem heap {f : Heap → Exec α} (h : ∀ heap, Leaves part (f heap)) :
    Leaves part (Exec.heap >>= f) := fun m => h m.world.heap m

theorem height {f : Nat → Exec α} (h : ∀ n, Leaves part (f n)) :
    Leaves part (Exec.height >>= f) := fun m => h m.stack.length m

theorem ite {c : Prop} [Decidable c] (hx : Leaves part x) (hy : Leaves part y) :
    Leaves part (if c then x else y) := by
  split
  · exact hx
  · exact hy

/-- A piece that is run or left out, and what follows. -/
theorem when {c : Prop} [Decidable c] {x : Exec PUnit} {k : PUnit → Exec β} (hx : Leaves part x)
    (hk : ∀ u, Leaves part (k u)) : Leaves part (if c then x >>= k else k ⟨⟩) := .ite (hx.bind hk) (hk _)

theorem whenNot {c : Prop} [Decidable c] {x : Exec PUnit} {k : PUnit → Exec β} (hx : Leaves part x)
    (hk : ∀ u, Leaves part (k u)) : Leaves part (if c then k ⟨⟩ else x >>= k) := .ite (hk _) (hx.bind hk)

theorem observe (hx : Leaves part x) : Leaves part (Exec.observe x) := by
  intro m
  rw [run_observe]
  exact hx m

theorem resume (r : Except Halt α) : Leaves part (Exec.resume r) := by
  cases r with
  | ok a => exact .pure a
  | error halt => exact .throw halt

theorem afterwards (hx : Leaves part x) {f : Machine → Machine} (h : ∀ m, part (f m) = part m) :
    Leaves part (Exec.afterwards x f) := by
  intro m
  rw [run_afterwards]
  exact (h _).trans (hx m)

theorem forM {f : α → Exec PUnit} (hf : ∀ a, Leaves part (f a)) (l : List α) :
    Leaves part (l.forM f) := by
  induction l with
  | nil => exact .pure _
  | cons a l ih => exact (hf a).bind fun _ => ih

theorem mapM {f : α → Exec β} (hf : ∀ a, Leaves part (f a)) (l : List α) :
    Leaves part (l.mapM f) := by
  induction l with
  | nil => exact .pure _
  | cons a l ih =>
    rw [List.mapM_cons]
    exact (hf a).bind fun b => ih.bind fun bs => .pure (b :: bs)

end Leaves

/-! ## Pieces that are about operands -/

/-- The part of the machine has nothing to do with the operands, nor with the errors that were raised. -/
def Apart {π : Type} (part : Machine → π) : Prop :=
  ∀ m stack raised, part { m with stack, raised } = part m

namespace Leaves

variable {π : Type} {part : Machine → π} (hp : Apart part)

include hp

theorem fail (e : RuntimeError) : Leaves part (Exec.fail e : Exec α) :=
  fun m => hp m m.stack (e :: m.raised)

theorem answer (r : Except RuntimeError α) : Leaves part (liftM r : Exec α) := by
  cases r with
  | ok a => exact .pure a
  | error e => exact .fail hp e

theorem push (v : Value) : Leaves part (Exec.push v) := fun m => hp m (v :: m.stack) m.raised

theorem putBack (stack : List Value) : Leaves part (modify ({ · with stack }) : Exec PUnit) :=
  fun m => hp m stack m.raised

theorem pop : Leaves part Exec.pop := by
  refine .get fun m => ?_
  split
  · exact (putBack hp _).bind fun _ => .pure _
  · exact .fail hp _

theorem pop₂ : Leaves part Exec.pop₂ := by
  refine .get fun m => ?_
  split
  · exact (putBack hp _).bind fun _ => .pure _
  · exact .fail hp _

theorem pop₃ : Leaves part Exec.pop₃ := by
  refine .get fun m => ?_
  split
  · exact (putBack hp _).bind fun _ => .pure _
  · exact .fail hp _

theorem peek (i : Nat) : Leaves part (Exec.peek i) := by
  refine .get fun m => ?_
  split
  · exact .pure _
  · exact .fail hp _

theorem valueOf (name : String) : Leaves part (Exec.valueOf name) := by
  refine .get fun m => ?_
  dsimp only
  split
  · exact .pure _
  · exact .fail hp _

theorem bodyCode (hc : ∀ items dynamic, Leaves part (Exec.compile items dynamic)) (body : Value) :
    Leaves part (Exec.bodyCode body) := by
  cases body with
  | block items dynamic => exact hc items dynamic
  | inline items => exact hc items false
  | bytecode code => exact .pure _
  | _ => exact .fail hp _

omit hp in
/-- Compiling concerns the history of the run and the world. -/
theorem compile {items : List Value} {dynamic : Bool}
    (hadd : Leaves part (modify (·.compiling items dynamic) : Exec PUnit))
    (hworld : Leaves part (inWorld (·.compile items dynamic))) :
    Leaves part (Exec.compile items dynamic) := by
  refine hadd.bind fun _ => hworld.bind fun r => ?_
  cases r with
  | ok code => exact .pure _
  | error e => exact .throw _

end Leaves

end BlockLang.Exec
