import BlockLang.Machine.Run
import BlockLang.Proofs.Machine.Caching
import BlockLang.Proofs.Machine.FollowingRuns

/-!
# How deep a machine is

A machine counts the blocks and calls, and the tries, that it is inside of. The counts are raised and
lowered by hand around code that may end in any way, so every piece of a run has to give them back as it
found them.

**Steady pieces.** A piece is steady if it leaves both counts and the configuration as they were, however it
ends. What is shown here are the pieces that run no code, all of which leave the counts alone. Only `descend`
and `trying` touch them; they come later, with everything else that runs code.
-/

namespace BlockLang

/-- How many blocks and calls, and how many tries, a machine is inside of, and in what configuration. -/
def Machine.level (m : Machine) : Nat × Nat × Config := (m.depth, m.tryDepth, m.world.config)

/-- Compiling a block leaves the configuration as it is. -/
theorem World.config_compile (w : World) (items : List Value) (dynamic : Bool) :
    (w.compile items dynamic).2.config = w.config := by
  obtain ⟨arities, names, heap, cache, h⟩ := Exec.exists_compile_eq w items dynamic
  rw [h]

namespace Exec

variable {α : Type}

/-- The piece gives both counts back as it found them. -/
abbrev Steady (x : Exec α) : Prop := Leaves Machine.level x

/-! ## Pieces that run no code -/

theorem apart_level : Apart Machine.level := fun _ _ _ => rfl

theorem steady_fail (e : RuntimeError) : Steady (fail e : Exec α) := .fail apart_level e

theorem steady_answer (r : Except RuntimeError α) : Steady (liftM r : Exec α) :=
  .answer apart_level r

theorem steady_push (v : Value) : Steady (push v) := .push apart_level v

theorem steady_pop : Steady pop := .pop apart_level

theorem steady_pop₂ : Steady pop₂ := .pop₂ apart_level

theorem steady_pop₃ : Steady pop₃ := .pop₃ apart_level

theorem steady_peek (i : Nat) : Steady (peek i) := .peek apart_level i

theorem steady_cutTo (base : Nat) : Steady (cutTo base) := fun _ => rfl

theorem steady_takeAbove (base : Nat) : Steady (takeAbove base) := fun _ => rfl

theorem steady_inWorld {f : World → α × World} (h : ∀ w, (f w).2.config = w.config) :
    Steady (inWorld f) := fun m =>
  congrArg (fun config => (m.depth, m.tryDepth, config)) (h m.world)

theorem steady_modifyWorld {f : World → World} (h : ∀ w, (f w).config = w.config) :
    Steady (modifyWorld f) := fun m =>
  congrArg (fun config => (m.depth, m.tryDepth, config)) (h m.world)

theorem steady_modifyScope (f : Scope → Scope) : Steady (modifyScope f) := fun _ => rfl

theorem steady_bind (name : String) (v : Value) : Steady (Exec.bind name v) := fun _ => rfl

theorem steady_bindAll (bindings : List (String × Value)) : Steady (bindAll bindings) := by
  refine steady_modifyWorld fun w => ?_
  induction bindings generalizing w with
  | nil => rfl
  | cons e bindings ih => exact ih (w.set e.1 e.2)

theorem steady_valueOf (name : String) : Steady (valueOf name) := .valueOf apart_level name

theorem steady_protecting (names : List String) {x : Exec α} (hx : Steady x) :
    Steady (protecting names x) := by
  refine .get fun m => (Leaves.observe hx).bind fun outcome => ?_
  exact (steady_modifyScope _).bind fun _ => .resume outcome

theorem steady_read (source : String) : Steady (read source) := by
  have hworld : Steady (inWorld (·.read source)) := by
    refine steady_inWorld fun w => ?_
    obtain ⟨names, hn⟩ := World.learnAll_eq w (namesRead source)
    rw [World.read, hn]
  refine hworld.bind fun r => ?_
  cases r with
  | ok items => exact .pure _
  | error e => exact .throw _

theorem steady_compile (items : List Value) (dynamic : Bool) : Steady (compile items dynamic) :=
  .compile (fun _ => rfl) (steady_inWorld fun w => w.config_compile items dynamic)

theorem steady_clearAttrs : Steady clearAttrs := fun _ => rfl

theorem steady_attr? (name : String) : Steady (attr? name) := fun _ => rfl

theorem steady_hasFlag (name : String) : Steady (hasFlag name) := fun _ => rfl

theorem steady_shown (fuel : Nat) (v : Value) : Steady (shown fuel v) := by
  refine .heap fun heap => ?_
  split
  · exact .pure _
  · exact .throw _

theorem steady_areEqual (fuel : Nat) (a b : Value) : Steady (areEqual fuel a b) := by
  refine .heap fun heap => ?_
  split
  · exact .pure _
  · exact .throw _

theorem steady_print (s : String) : Steady (print s) := by
  refine .get fun m => ?_
  split
  · exact fun _ => rfl
  · exact steady_fail _

/-! ## Operations that run no code -/

theorem steady_apply (f : Value → Except RuntimeError Value) : Steady (apply f) :=
  steady_pop.bind fun v => (steady_answer (f v)).bind fun r => steady_push r

theorem steady_apply₂ (f : Value → Value → Except RuntimeError Value) : Steady (apply₂ f) :=
  steady_pop₂.bind fun (a, b) => (steady_answer (f a b)).bind fun r => steady_push r

theorem steady_compareEqual (fuel : Nat) (expected : Bool) : Steady (compareEqual fuel expected) :=
  steady_pop₂.bind fun (a, b) => (steady_areEqual fuel a b).bind fun _ => steady_push _

theorem steady_getPart : Steady getPart :=
  steady_pop₂.bind fun (collection, key) => .heap fun heap =>
    (steady_answer (Value.part heap collection key)).bind fun v => steady_push v

theorem steady_setPart : Steady setPart := by
  refine steady_pop₃.bind fun (collection, key, value) => ?_
  cases collection with
  | dictionary ref =>
    refine (steady_answer (key.keyName "set")).bind fun name => ?_
    exact steady_modifyWorld fun _ => rfl
  | _ => exact steady_fail _

theorem steady_countItems : Steady countItems :=
  steady_pop.bind fun v => .heap fun heap =>
    (steady_answer (Value.itemCount heap v)).bind fun n => steady_push n

theorem steady_replaceItems (fuel : Nat) : Steady (replaceItems fuel) := by
  refine steady_pop₃.bind fun (whole, old, new) => ?_
  dsimp only
  split
  · exact steady_push _
  · refine (Leaves.mapM (fun v => ?_) _).bind fun items => steady_push _
    exact (steady_areEqual fuel v _).bind fun _ => .ite (.pure _) (.pure _)
  · exact steady_fail _

theorem steady_joinItems (fuel : Nat) : Steady (joinItems fuel) := by
  refine steady_pop.bind fun v => ?_
  split
  · exact (Leaves.mapM (steady_shown fuel) _).bind fun texts => steady_push _
  · exact steady_fail _

theorem steady_appendItems (fuel : Nat) : Steady (appendItems fuel) := by
  refine steady_pop₂.bind fun operands => ?_
  split
  · exact (steady_shown fuel _).bind fun text => steady_push _
  · exact steady_push _
  · exact steady_push _
  · exact steady_fail _

theorem steady_stringOf (fuel : Nat) (v : Value) : Steady (stringOf fuel v) :=
  (steady_shown fuel v).bind fun _ => .pure _

theorem steady_blockOf (v : Value) : Steady (blockOf v) := by
  unfold blockOf
  split
  · exact .pure _
  · exact (steady_read _).bind fun items => .pure _
  · exact .pure _

theorem steady_convertTo (fuel : Nat) (type : String) (v : Value) :
    Steady (convertTo fuel type v) := by
  unfold convertTo
  split
  · exact steady_stringOf fuel v
  · exact steady_answer _
  · exact steady_answer _
  · exact steady_answer _
  · exact steady_blockOf v
  · exact steady_fail _

theorem steady_convert (fuel : Nat) : Steady (convert fuel) :=
  steady_pop₂.bind fun (type, v) => (steady_answer type.typeName).bind fun name =>
    (steady_convertTo fuel name v).bind fun r => steady_push r

theorem steady_toText (fuel : Nat) : Steady (toText fuel) :=
  steady_pop.bind fun v => (steady_stringOf fuel v).bind fun r => steady_push r

theorem steady_namesOfAttr (name : String) : Steady (namesOfAttr name) := by
  refine (steady_attr? name).bind fun v? => ?_
  split
  · exact steady_answer _
  · exact .pure _

theorem steady_functionOf (params : List String) (main : Value) : Steady (functionOf params main) := by
  refine (steady_hasFlag _).bind fun memoize => (steady_hasFlag _).bind fun exportable => ?_
  refine (steady_namesOfAttr _).bind fun exports => (steady_namesOfAttr _).bind fun names => ?_
  exact .bind (.get fun m => .pure _) fun imports => .pure _

theorem steady_makeFunction : Steady makeFunction := by
  refine steady_pop₂.bind fun (params, main) => ?_
  refine (steady_answer (params.parameterNames "function")).bind fun params => ?_
  have hmake : Steady (do push (← inWorld (·.addUser (← functionOf params main)))) :=
    (steady_functionOf params main).bind fun f =>
      (steady_inWorld fun _ => rfl).bind fun v => steady_push v
  cases main with
  | block | bytecode => exact hmake
  | _ => exact steady_fail _

theorem steady_printTop (fuel : Nat) : Steady (printTop fuel) :=
  steady_pop.bind fun v => (steady_shown fuel v).bind fun _ => steady_print _

theorem steady_raiseTop (fuel : Nat) : Steady (raiseTop fuel) :=
  steady_pop.bind fun v => (steady_shown fuel v).bind fun _ => .throw _

end Exec

end BlockLang
