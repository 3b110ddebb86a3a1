import BlockLang.Proofs.Machine.Caching

/-!
# Source text never becomes invalid code

**Theorem (`session_valid`).** However a session of source texts runs, it never finds code invalid: no
request fails so, and no try has such an error to recover from.

The machine is compared with itself. Source has no values that refer to code, and programs never make
any, so every unit that is run has been compiled, and is run from its beginning. The invariant is that
all units are valid from there, and that those of functions and of kept blocks are among them
(`World.Sound`). It meets the code where a block is compiled: a new unit is valid because its call
trees are well-formed.
-/

namespace BlockLang

open Exec

variable {w w' v v' : World} {c c' : CodeRef} {u : CodeUnit} {items : List Value}

/-! ## Sound worlds -/

/-- The unit may be run from the offset on, and leads to no other unit by its constants. -/
def CodeUnit.Runs (u : CodeUnit) (pos : Nat) : Prop := u.CodesIn (Early 0) ∧ u.ValidFrom pos

/-- There is code under the reference. -/
def World.HasCode (w : World) (c : CodeRef) : Prop := ∃ u, w.heap.unit? c = some u

/-- All code can be run, and the code of functions and of kept blocks is there. -/
structure World.Sound (w : World) : Prop where
  units : ∀ c u, w.heap.unit? c = some u → u.Runs 0
  compiled : ∀ ref f c, w.heap.callable? ref = some (.user f (some c)) → w.HasCode c
  kept : ∀ e ∈ w.cache, w.HasCode e.2

theorem World.HasCode.extend (h : w.HasCode c) (hv : w.Extends v) : v.HasCode c := by
  obtain ⟨u, hu⟩ := h
  exact ⟨u, hv.units c u hu⟩

namespace World.Sound

theorem congr (h : w.Sound) (hv : w.SameCode v) : v.Sound where
  units c u hu := h.units c u (hv.unit? c ▸ hu)
  compiled ref f c hf := (h.compiled ref f c (hv.callable? ref ▸ hf)).extend hv.extends
  kept e he := (h.kept e (hv.cache ▸ he)).extend hv.extends

theorem addUnit (h : w.Sound) (hu : u.Runs 0) : (w.addUnit u).2.Sound := by
  have hgrows := (World.Grows.refl w).addUnit u
  refine ⟨fun c u' hu' => ?_, fun ref f c hf => ?_, fun e he => ?_⟩
  · have hpush : (w.heap.units.push u)[c.index]? = some u' := hu'
    rw [Array.getElem?_push] at hpush
    split at hpush
    · cases hpush
      exact hu
    · exact h.units c u' hpush
  · exact (h.compiled ref f c hf).extend hgrows.toExtends
  · exact (h.kept e he).extend hgrows.toExtends

theorem keep (h : w.Sound) (hc : w.HasCode c) (items : List Value) : (w.keep items c).Sound :=
  { h with kept := List.forall_mem_cons.2 ⟨hc, h.kept⟩ }

/-- A new function has no code yet: its body is no code itself. -/
theorem addUser (h : w.Sound) {f : UserFunction} (hf : f.main.CodesIn (Early 0)) :
    (w.addUser f).2.Sound := by
  refine { h with compiled := fun ref g c hg => ?_ }
  simp only [World.addUser, Heap.addUser, Heap.addCallable, Heap.callable?,
    Array.getElem?_push] at hg
  split at hg
  · revert hf hg
    cases f.main with
    | bytecode c => exact fun hf => absurd hf (Nat.not_lt_zero _)
    | _ =>
      intro _ hg
      cases hg
  · exact h.compiled ref g c hg

theorem setCompiled (h : w.Sound) (hc : w.HasCode c) (ref : FunctionRef) :
    (w.setCompiled ref c).Sound := by
  refine { h with compiled := fun other f d hf => ?_ }
  simp only [World.setCompiled, Heap.callable?_setCompiled] at hf
  split at hf
  · obtain ⟨callable, hcall, hf⟩ := Option.map_eq_some_iff.1 hf
    split at hf
    · cases hf
      exact hc
    · subst hf
      exact h.compiled other f d hcall
  · exact h.compiled other f d hf

end World.Sound

/-! ## A machine beside itself -/

/-- Both machines are one and the same, and all code in it can be run. -/
def validity : Pairing where
  known := Early 0
  runs := CodeUnit.Runs
  code w w' := w.SameCode w' ∧ w.Sound
  link w _ c c' := c = c' ∧ w.HasCode c
  strict := True

/-- What may be run goes on to what may be run: the code never jumps. -/
theorem CodeUnit.Runs.steps {pos : Nat} (h : u.Runs pos) : validity.Steps u pos := by
  obtain ⟨hin, hvalid⟩ := h
  cases hvalid with
  | stop hi =>
    refine ⟨hin, fun _ => ⟨.op .stop, by rw [hi], ?_⟩, fun hstop => ?_, fun hjump => ?_⟩
    · exact .inr (.inr (by simp))
    · exact absurd (by rw [hi]) hstop
    · rw [hi] at hjump
      cases hjump
  | step hi hvalid hjump hnext =>
    refine ⟨hin, fun _ => ⟨_, by rw [hi], hvalid⟩, fun _ => ?_, fun hi' => ?_⟩
    · rw [hi]
      exact ⟨hin, hnext⟩
    · rw [hi] at hi'
      exact absurd (Option.some.inj hi') (hjump _ _)

theorem compiled_validity (h : validity.Worlds w w') (hi : ∀ v ∈ items, v.CodesIn (Early 0))
    (dynamic : Bool) : validity.Compiled (w.compile items dynamic) (w'.compile items dynamic) := by
  obtain ⟨hsame, hsound⟩ := h.code
  refine Pairing.compiled_compile (congrArg Config.cacheUnits hsame.config) hsame.cache
    (fun c hc => ?found) (fun hv hl => ?keep) h ?new dynamic
  case found =>
    obtain ⟨e, he, rfl⟩ := Option.map_eq_some_iff.1 hc
    exact ⟨rfl, hsound.kept e (List.mem_of_find?_eq_some he)⟩
  case keep =>
    obtain ⟨hv, hsound⟩ := hv
    obtain ⟨rfl, hc⟩ := hl
    exact ⟨⟨hv.keep _ _, hsound.keep hc _⟩, rfl, hc⟩
  case new =>
    refine Pairing.compiled_compileNew (fun h hv hv' => ?_) (fun h hin hu => ?_) h hi
    · exact ⟨h.1.trans hv hv', h.2.congr hv⟩
    · exact ⟨⟨(h.1.addUnit _).1, h.2.addUnit ⟨hin, hu⟩⟩, (h.1.addUnit _).2, _, unit?_addUnit _ _⟩

theorem lawful_validity : validity.Lawful where
  short := .inl rfl
  depth h := .inl (congrArg Config.maxDepth h.1.config.symm)
  congr h hv hv' := ⟨h.1.trans hv hv', h.2.congr hv⟩
  addUser h _ hf := ⟨h.1.addUser _, h.2.addUser hf⟩
  step h := h.steps
  unit h hc := by
    obtain ⟨rfl, u, hu⟩ := hc
    refine ⟨(h.1.unit? _).symm, ?_⟩
    rw [hu]
    exact h.2.units _ u hu
  known _ hc := absurd hc (Nat.not_lt_zero _)
  compiled {_ _ _ _ _ c? _} h hf hf' := by
    rw [h.1.callable?, hf] at hf'
    cases hf'
    cases c? with
    | none => exact .none
    | some c => exact .some ⟨rfl, h.2.compiled _ _ c hf⟩
  compile dynamic h hi := ⟨_, compiled_validity h hi dynamic, fun _ => rfl⟩
  setCompiled ref h hc := by
    obtain ⟨rfl, hc⟩ := hc
    exact ⟨⟨h.1.setCompiled ref _, h.2.setCompiled hc ref⟩, rfl, hc⟩

/-! ## Sessions of source text -/

theorem World.units_initial (config : Config) : (World.initial config).heap.units = #[] := by
  have h (l : List Builtin) (w : World) :
      (l.foldl World.install w).heap.units = w.heap.units := by
    induction l generalizing w with
    | nil => rfl
    | cons b l ih =>
      rw [List.foldl_cons, ih]
      obtain ⟨names, hn⟩ := World.learnAll_eq w [b.name]
      have hlearn : w.learn b.name = { w with names } := hn
      rw [World.install, hlearn]
      rfl
  exact h _ _

theorem World.sound_initial (config : Config) : (World.initial config).Sound := by
  have h := Machine.ready_initial config
  refine ⟨fun c u hu => ?_, fun ref f c hf => ?_, fun e he => ?_⟩
  · rw [Heap.unit?, units_initial] at hu
    cases hu
  · exact absurd (h.compiled ref f c hf) (Nat.not_lt_zero _)
  · exact absurd (h.kept e he) (Nat.not_lt_zero _)

theorem machines_initial (config : Config) :
    validity.Machines (Machine.initial config) (Machine.initial config) := by
  have h := Machine.ready_initial config
  exact
    { world :=
        { scope := ⟨rfl, fun _ => rfl, h.bindings⟩
          heap := .refl _
          memo := rfl
          objects := h.objects
          results := h.results
          code := ⟨⟨rfl, rfl, rfl, rfl⟩, World.sound_initial config⟩ }
      stack := rfl
      operands := h.operands
      attrs := rfl
      given := h.attrs
      output := rfl
      depth := rfl
      tryDepth := rfl
      history := nofun }

/-- The answer of a request and the machine after it: code has not been found invalid, whether that ended
the request or was recovered from. -/
def FindsNoInvalidCode (r : Except Halt Unit × Machine) : Prop :=
  (∀ pos, r.1 ≠ .error (.error (.runtime (.invalidBytecode pos)))) ∧
    ∀ pos, .invalidBytecode pos ∉ r.2.raised

theorem findsNoInvalidCode_of_agrees {r q : Except Halt Unit × Machine}
    (h : validity.coupling.Agrees Eq r q) : FindsNoInvalidCode r := by
  refine ⟨fun pos hr => ?_, fun pos hr => ?_⟩
  · exact Bool.false_ne_true (h.halts _ hr trivial).symm
  · exact Bool.false_ne_true (h.alike.history _ hr trivial).symm

/-- A machine is never lost beside itself, so it stays beside itself. -/
theorem agrees_source {m n : Machine} (h : validity.Machines m n) (fuel : Nat) (text : String) :
    validity.coupling.Agrees Eq (((Request.source text).run fuel).run.run m)
      (((Request.source text).run fuel).run.run n) := by
  refine (Pairing.sim_runSource lawful_validity fuel text).agrees h ?_
  rintro (⟨_, _, hlost⟩ | ⟨hlost, -⟩)
  · exact hlost
  · exact hlost

/-- **Source text never becomes invalid code**, in whatever configuration it is run. -/
theorem session_valid (config : Config) (texts : List String) (fuel : Nat) :
    ∀ r ∈ session fuel (texts.map .source) (Machine.initial config), FindsNoInvalidCode r := by
  have h : ∀ {m n}, validity.Machines m n →
      ∀ r ∈ session fuel (texts.map .source) m, FindsNoInvalidCode r := by
    induction texts with
    | nil => exact fun _ => List.forall_mem_nil _
    | cons text texts ih =>
      intro m n h
      have hend := agrees_source h fuel text
      rw [List.map_cons, session, List.forall_mem_cons]
      exact ⟨findsNoInvalidCode_of_agrees hend, ih hend.alike⟩
  exact h (machines_initial config)

/-- A text that recovers from an error, and then calls a function. -/
theorem session_valid_try :
    let texts := ["try [size 5] f: function [a] [add a 1] f 2"]
    ∃ r ∈ session 100 (texts.map .source) (Machine.initial {}),
      (r.1.isOk = true ∧ r.2.raised.length = 1) ∧ FindsNoInvalidCode r := by
  intro texts
  refine ⟨_, List.mem_cons_self, ?_, session_valid {} texts 100 _ List.mem_cons_self⟩
  decide +kernel

/-- A unit that was not compiled is found invalid at once. -/
example (m : Machine) :
    ((execute 1 {} 0).run.run m).1 = .error (.error (.runtime (.invalidBytecode 0))) := rfl

end BlockLang
