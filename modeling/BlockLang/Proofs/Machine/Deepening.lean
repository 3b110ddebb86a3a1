import BlockLang.Proofs.Machine.Caching
import BlockLang.Proofs.Machine.Isolation
import BlockLang.Proofs.Machine.Stepping

/-!
# The limit on the depth

**Theorem (`course_deepening`).** A session under a limit that is never hit goes as it would under any higher
limit: every step gives the same answer and leaves the same output, operands and bindings.

To hit the limit is to be refused a block or a call. A program can recover from that and go on differently,
so it counts wherever it happens, and not just where a step fails with it.

The worlds of the two sessions have the same code, but not the same configuration. A block that is refused in
both sessions is refused with different limits, so no refusal can be allowed, not even one that happens on
both sides.
-/

namespace BlockLang

open Exec

variable {w w' v v' : World} {d d' : Nat}

/-- The error of a block or a call that would be too deep. -/
def RuntimeError.isOverflow : RuntimeError → Bool
  | stackOverflow _ => true
  | _ => false

/-! ## Worlds under another limit -/

/-- The world, under the given limit. -/
def World.limited (w : World) (limit : Nat) : World := { w with config.maxDepth := limit }

/-- The machine, under the given limit and before anything has happened in it. -/
def Machine.limited (m : Machine) (limit : Nat) : Machine :=
  { m with world := m.world.limited limit, raised := [] }

theorem World.limited_learn (w : World) (name : String) :
    (w.learn name).limited d = (w.limited d).learn name := by
  rw [World.learn, World.learn]
  exact apply_ite (World.limited · d) ..

theorem World.limited_initial (config : Config) :
    (World.initial config).limited d = World.initial { config with maxDepth := d } := by
  have install (w : World) (b : Builtin) : (w.install b).limited d = (w.limited d).install b := by
    rw [World.install, World.install, ← World.limited_learn]
    rfl
  have installAll (l : List Builtin) (w : World) :
      (l.foldl World.install w).limited d = l.foldl World.install (w.limited d) := by
    induction l generalizing w with
    | nil => rfl
    | cons b l ih => rw [List.foldl_cons, List.foldl_cons, ih, install]
  exact installAll _ _

/-- Another limit for a new machine is another configuration. -/
theorem Machine.limited_initial (config : Config) :
    (Machine.initial config).limited d = Machine.initial { config with maxDepth := d } := by
  rw [Machine.limited, Machine.initial, Machine.initial, World.limited_initial]

theorem World.SameCode.limited (h : w.SameCode v) (limit : Nat) :
    (w.limited limit).SameCode (v.limited limit) :=
  ⟨congrArg (fun c : Config => { c with maxDepth := limit }) h.config, h.units, h.callables, h.cache⟩

/-- The same code and the same configuration, but for a limit that may be higher in the second world. -/
structure World.Deepened (w w' : World) : Prop where
  limits : w.config.maxDepth ≤ w'.config.maxDepth
  same : (w.limited w'.config.maxDepth).SameCode w'

theorem World.Deepened.congr (h : w.Deepened w') (hv : w.SameCode v) (hv' : w'.SameCode v') :
    v.Deepened v' where
  limits := by
    rw [hv.config, hv'.config]
    exact h.limits
  same := by
    rw [hv'.config]
    exact h.same.trans (hv.limited _) hv'

/-! ## Machines under another limit -/

/-- The second machine may get deeper; otherwise the machines are the same. The comparison ends when the first
machine hits its limit. -/
def deepening : Pairing where
  code := World.Deepened
  link _ _ c c' := c = c'
  escapes e := e.isOverflow

theorem compiled_deepening (h : deepening.Worlds w w') (items : List Value) (dynamic : Bool) :
    deepening.Compiled (w.compile items dynamic) (w'.compile items dynamic) := by
  have hkeeps : w'.config.cacheUnits = w.config.cacheUnits := by
    rw [h.code.same.config]
    rfl
  have hcache : w'.cache = w.cache := h.code.same.cache
  refine Pairing.compiled_compile hkeeps hcache (fun _ _ => rfl) (fun hv hc => ?keep) h ?new dynamic
  case keep =>
    obtain rfl := hc
    exact ⟨⟨hv.limits, hv.same.keep _ _⟩, rfl⟩
  case new =>
    refine Pairing.compiled_compileNew World.Deepened.congr (fun h _ _ => ?_) h
      fun v _ => v.codesIn_true
    obtain ⟨hsame, href⟩ := h.same.addUnit _
    exact ⟨⟨h.limits, hsame⟩, href⟩

theorem lawful_deepening : deepening.Lawful where
  short := .inl rfl
  depth h := .inr ⟨h.limits, fun _ => rfl⟩
  congr := World.Deepened.congr
  addUser h _ _ := ⟨h.limits, h.same.addUser _⟩
  step hu := Pairing.steps_of_codesIn rfl id hu
  unit h hc := by
    obtain rfl := hc
    exact ⟨(h.same.unit? _).symm, fun v _ => v.codesIn_true⟩
  known _ _ := rfl
  compiled {w w' ref _ _ c? _} h hf hf' := by
    have hcallable : w'.heap.callable? ref = w.heap.callable? ref := h.same.callable? ref
    rw [hcallable, hf] at hf'
    cases hf'
    cases c? with
    | none => exact .none
    | some c => exact .some rfl
  compile dynamic h _ := ⟨_, compiled_deepening h _ dynamic, fun _ => rfl⟩
  setCompiled ref h hc := by
    obtain rfl := hc
    exact ⟨⟨h.limits, h.same.setCompiled ref _⟩, rfl⟩

theorem machines_deepening (m : Machine) (h : d ≤ d') :
    deepening.Machines (m.limited d) (m.limited d') where
  world := .of_code Value.codesIn_true m.world ⟨h, rfl, rfl, rfl, rfl⟩
  stack := (List.append_nil _).symm
  operands v _ := v.codesIn_true
  attrs := rfl
  given e _ := e.2.codesIn_true
  output := rfl
  depth := rfl
  tryDepth := rfl
  history := nofun

/-! ## Steps -/

/-- **A step goes the same under a higher limit**, unless the limit is hit in it. -/
theorem sim_step (fuel : Nat) (step : Step) :
    Sim deepening.coupling Eq (step.run fuel) (step.run fuel) := by
  cases step with
  | addUnit u =>
    refine Sim.bindEq (Pairing.sim_inWorld fun w w' hw => ?_) fun _ => Sim.pure rfl
    obtain ⟨hsame, href⟩ := hw.code.same.addUnit u
    exact ⟨hw.addUnit u ⟨hw.code.limits, hsame⟩, href⟩
  | _ =>
    have hgo (u : CodeUnit) (_ : u.CodesIn deepening.known) :
        Sim deepening.coupling Eq (execute fuel u 0) (execute fuel u 0) :=
      Pairing.sim_execute lawful_deepening fuel (fun v _ => v.codesIn_true) 0
    exact Pairing.sim_stepBy lawful_deepening rfl hgo fuel (Step.codesIn_true nofun)

/-! ## Sessions -/

theorem course_of_machines {fuel : Nat} {steps : List Step} {m n : Machine}
    (h : deepening.Machines m n)
    (hfits : ∀ r ∈ m.course fuel steps, ∀ e ∈ r.2.raised, e.isOverflow = false) :
    List.Forall₂ (fun r q => r.1 = q.1 ∧ r.2.Alike q.2) (m.course fuel steps)
      (n.course fuel steps) := by
  induction steps generalizing m n with
  | nil => exact .nil
  | cons step steps ih =>
    obtain ⟨hstep, hrest⟩ := List.forall_mem_cons.1 hfits
    have hlost : ¬ deepening.Lost ((step.run fuel).run.run m).2 :=
      Pairing.not_lost id fun e he => Bool.eq_false_iff.1 (hstep e he)
    obtain ⟨hend, hanswer, -⟩ := (sim_step fuel step).agrees h hlost
    exact .cons ⟨hanswer.eq, hend.alike rfl⟩ (ih hend hrest)

/-- **The limit on the depth only matters when it is hit.** -/
theorem course_deepening (fuel : Nat) (steps : List Step) (m : Machine) (h : d ≤ d')
    (hfits : ∀ r ∈ (m.limited d).course fuel steps, ∀ e ∈ r.2.raised, e.isOverflow = false) :
    List.Forall₂ (fun r q => r.1 = q.1 ∧ r.2.Alike q.2) ((m.limited d).course fuel steps)
      ((m.limited d').course fuel steps) :=
  course_of_machines (machines_deepening m h) hfits

/-- Calls inside calls, which just fit under a limit of `6`, and an error of another kind that is recovered
from. -/
theorem course_deepening_calls :
    let m : Machine := .initial {}
    let steps : List Step :=
      [.source "f: function [n] [if n > 0 [f n - 1]]", .source "try [f 2 size 5]", .source "print 7"]
    let low := (m.limited 6).course 100 steps
    let high := (m.limited 60).course 100 steps
    (∀ r ∈ low, ∀ e ∈ r.2.raised, e.isOverflow = false) ∧
      List.Forall₂ (fun r q => r.1 = q.1 ∧ r.2.Alike q.2) low high := by
  intro m steps low high
  have hfits : ∀ r ∈ low, ∀ e ∈ r.2.raised, e.isOverflow = false := by decide +kernel
  exact ⟨hfits, course_deepening 100 steps m (by decide) hfits⟩

/-- A limit that is hit can be noticed even where a try recovers from it. -/
example :
    let under (limit : Nat) :=
      ((Step.source "try? [do [do [1]]]").run 100).stackAfter ((Machine.initial {}).limited limit)
    Value.sameAll (under 2) [.logical false] ∧ Value.sameAll (under 3) [.logical true, .integer 1] := by
  decide +kernel

end BlockLang
