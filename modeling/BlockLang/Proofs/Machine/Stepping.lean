import BlockLang.Proofs.Machine.Compiling
import BlockLang.Proofs.Machine.Running

/-!
# Steps in paired machines

**Theorem (`sim_stepBy`).** If units are run in the same way, then every step of a session is taken in the
same way, as long as it holds no code but what the pairing admits and the machines have the same operands.

A step that hands a unit over is left out: a pairing need not stand that.
-/

namespace BlockLang

open Exec

/-- What the step holds refers to code in `A` only, and the step hands no unit over. -/
def Step.CodesIn (A : CodeRef → Prop) : Step → Prop
  | items l _ | build l | compile l _ => ∀ v ∈ l, v.CodesIn A
  | block o body => (∀ e ∈ o.imports, e.2.CodesIn A) ∧ body.CodesIn A
  | shielded _ body => body.CodesIn A
  | push v | bind _ v => v.CodesIn A
  | addFunction f => f.main.CodesIn A ∧ ∀ e ∈ f.imports, e.2.CodesIn A
  | addDictionary entries => ∀ e ∈ entries, e.2.CodesIn A
  | addUnit _ => False
  | _ => True

theorem Step.codesIn_true {step : Step} (h : ∀ u, step ≠ .addUnit u) : step.CodesIn fun _ => True := by
  cases step with
  | items l | build l | compile l => exact fun v _ => v.codesIn_true
  | block o body => exact ⟨fun e _ => e.2.codesIn_true, body.codesIn_true⟩
  | shielded names body => exact body.codesIn_true
  | push v | bind name v => exact v.codesIn_true
  | addFunction f => exact ⟨f.main.codesIn_true, fun e _ => e.2.codesIn_true⟩
  | addDictionary entries => exact fun e _ => e.2.codesIn_true
  | addUnit u => exact absurd rfl (h u)
  | _ => trivial

namespace Pairing

variable {S : Pairing} {go go' : CodeUnit → Exec Flow}

theorem sim_build (hS : S.Lawful) {items : List Value} (hi : ∀ v ∈ items, v.CodesIn S.known) :
    Sim S.coupling Eq (Exec.build items) (Exec.build items) := by
  have htrees : Sim S.coupling Eq (inWorld (·.callTrees items)) (inWorld (·.callTrees items)) := by
    refine sim_inWorld fun w w' hw => ?_
    obtain ⟨⟨ha, hb, hb'⟩, ht, -⟩ := World.callTrees_alike hw.alike hi
    have hcode := hS.congr hw.code (sameCode_of_rebuilt hb) (sameCode_of_rebuilt hb')
    exact ⟨hw.rebuilt hcode hb hb' ha, (ht.mono fun _ _ h => h.1).eq⟩
  refine htrees.bindEq fun r => ?_
  cases r with
  | ok trees => exact Sim.pure rfl
  | error e => exact Sim.throw trivial

/-- **Paired machines take a step in the same way**, if they run units in the same way and have the same
operands. -/
theorem sim_stepBy (hS : S.Lawful) (hrest : S.rest = [])
    (hgo : ∀ u, S.runs u 0 → Sim S.coupling Eq (go u) (go' u)) (fuel : Nat) {step : Step}
    (hstep : step.CodesIn S.known) :
    Sim S.coupling Eq (step.runBy fuel (running go)) (step.runBy fuel (running go')) := by
  cases step with
  | source text =>
    refine (sim_read hS text).bindSame fun l hl => ?_
    exact (sim_runTop hS hgo hl false).bindEq fun _ => Sim.pure rfl
  | items l dynamic => exact (sim_runTop hS hgo hstep dynamic).bindEq fun _ => Sim.pure rfl
  | block o body => exact (sim_runBlock hS hgo hstep.1 hstep.2).bindEq fun _ => Sim.pure rfl
  | shielded names body =>
    exact (sim_protecting hS names (sim_runInPlace hS hgo hstep)).bindEq fun _ => Sim.pure rfl
  | call ref => exact (sim_callFunction hS hgo fuel ref).bindEq fun _ => Sim.pure rfl
  | operation b => exact (sim_perform hS hgo fuel b).bindEq fun _ => Sim.pure rfl
  | read text => exact (sim_read hS text).bindSame fun l _ => Sim.pure rfl
  | build l => exact (sim_build hS hstep).bindEq fun _ => Sim.pure rfl
  | compile l dynamic =>
    have hrun (go : CodeUnit → Exec Flow) : (Step.compile l dynamic).runBy fuel (running go) =
        (Exec.compile l dynamic >>= unitOf) >>= fun u => pure (.unit u) := (bind_assoc ..).symm
    rw [hrun, hrun]
    exact (sim_compile hS hstep dynamic).bindSame fun u _ => Sim.pure rfl
  | push v => exact (sim_push hstep).bindEq fun _ => Sim.pure rfl
  | pop => exact (sim_pop hS).bindSame fun v _ => Sim.pure rfl
  | clear =>
    have hbase : S.Heights 0 0 := by rw [Heights, hrest, List.length_nil]
    exact (sim_cutTo hbase).bindEq fun _ => Sim.pure rfl
  | bind name v => exact (sim_bind hS name hstep).bindEq fun _ => Sim.pure rfl
  | unbind name =>
    refine Sim.get.bind fun m n h => ?_
    rw [h.world.alike.get?]
    refine Sim.bindEq (sim_modifyWorld fun w w' hw => ?_) fun _ => Sim.pure rfl
    refine hw.withScope hS (hw.scope.assign name (fun v hv => ?_) none)
    cases hv
  | addFunction f =>
    refine Sim.bindEq (sim_inWorld fun w w' hw => ?_) fun _ => Sim.pure rfl
    exact hw.addUser hS hstep.1 hstep.2
  | addDictionary entries =>
    refine Sim.bindEq (sim_inWorld fun w w' hw => ?_) fun _ => Sim.pure rfl
    exact hw.addDictionary hS hstep
  | addUnit u => exact hstep.elim

end Pairing

end BlockLang
