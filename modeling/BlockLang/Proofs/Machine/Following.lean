import BlockLang.Machine.Run
import BlockLang.Proofs.Machine.Resembling
import BlockLang.Proofs.Machine.Scoping

/-!
# A machine beside one that keeps no results

Two machines that resemble each other run the same program, and the second one keeps no results. The first
one may keep some, unless that is excluded as well; then the two are on equal terms.

**Following.** A piece is followed by another one if, unless it runs out of fuel, the other one answers the
same, and the machines are side by side again afterwards (`Follows`). Every way in which the machine puts
pieces together preserves that. Only a call can be an exception: where the first machine finds a kept
result, nothing is said here about what the second one comes to. So the rules for calls are about one pair
of machines (`FollowsAt`), and have as a hypothesis that no result is found.
-/

namespace BlockLang

open Exec

/-- The second machine resembles the first one and keeps no results. If `equal` is asked for, neither
does the first one. -/
structure Beside (equal : Prop) (m n : Machine) : Prop where
  resembles : m.Resembles n
  closed : n.world.memo.IsClosed
  both : equal → m.world.memo.IsClosed

namespace Exec

variable {equal : Prop} {α β : Type} {x y : Exec α} {m n : Machine}

/-- From the given machines, the first piece runs out of fuel, or the second one does the same. -/
def FollowsAt (equal : Prop) (x y : Exec α) (m n : Machine) : Prop :=
  (x.run.run m).1 ≠ .error .outOfFuel →
    (x.run.run m).1 = (y.run.run n).1 ∧ Beside equal (x.run.run m).2 (y.run.run n).2

/-- From all machines of which one is beside the other, the first piece runs out of fuel, or the second
one does the same. -/
def Follows (equal : Prop) (x y : Exec α) : Prop :=
  ∀ m n, Beside equal m n → FollowsAt equal x y m n

namespace Follows

variable {f g : α → Exec β}

protected theorem pure (a : α) : Follows equal (pure a) (pure a) := fun _ _ h _ => ⟨rfl, h⟩

protected theorem throw (halt : Halt) : Follows equal (throw halt : Exec α) (throw halt) :=
  fun _ _ h _ => ⟨rfl, h⟩

/-- Nothing is claimed of a piece that is out of fuel. -/
theorem outOfFuel (y : Exec α) : Follows equal (throw .outOfFuel) y := fun _ _ _ h => absurd rfl h

/-- What comes second only has to be followed from the machines that the first pieces leave. -/
theorem bindAt (hx : FollowsAt equal x y m n)
    (hf : ∀ a m' n', x.run.run m = (.ok a, m') → Beside equal m' n' →
      FollowsAt equal (f a) (g a) m' n') :
    FollowsAt equal (x >>= f) (y >>= g) m n := by
  intro h
  rw [run_bind] at h
  rw [run_bind, run_bind]
  rw [FollowsAt] at hx
  revert hx hf h
  rcases x.run.run m with ⟨e | a, m'⟩ <;> intro hx hf h
  · have hne : (Except.error e : Except Halt α) ≠ .error .outOfFuel := fun he =>
      h (congrArg Except.error (Except.error.inj he))
    obtain ⟨hr, hm⟩ := hx hne
    revert hr hm
    rcases y.run.run n with ⟨e' | b, n'⟩ <;> intro hr hm
    · exact ⟨congrArg Except.error (Except.error.inj hr), hm⟩
    · cases hr
  · obtain ⟨hr, hm⟩ := hx nofun
    revert hr hm
    rcases y.run.run n with ⟨e' | b, n'⟩ <;> intro hr hm
    · cases hr
    · cases hr
      exact hf a m' n' rfl hm h

protected theorem bind (hx : Follows equal x y) (hf : ∀ a, Follows equal (f a) (g a)) :
    Follows equal (x >>= f) (y >>= g) :=
  fun m n h => bindAt (hx m n h) fun a m' n' _ => hf a m' n'

/-- What follows may look at the machine. -/
protected theorem get {f g : Machine → Exec α}
    (h : ∀ m n, Beside equal m n → Follows equal (f m) (g n)) :
    Follows equal (get >>= f) (get >>= g) := fun m n hm => h m n hm m n hm

protected theorem modify {f g : Machine → Machine}
    (h : ∀ m n, Beside equal m n → Beside equal (f m) (g n)) :
    Follows equal (modify f) (modify g) := fun m n hm _ => ⟨rfl, h m n hm⟩

protected theorem ite {c : Prop} [Decidable c] {x' y' : Exec α} (h : c → Follows equal x y)
    (h' : ¬ c → Follows equal x' y') :
    Follows equal (if c then x else x') (if c then y else y') := by
  by_cases hc : c
  · rw [if_pos hc, if_pos hc]
    exact h hc
  · rw [if_neg hc, if_neg hc]
    exact h' hc

/-- A piece whose outcome is looked at. What looks at it stays out of fuel. -/
protected theorem observe {k k' : Except Halt α → Exec β} (hx : Follows equal x y)
    (hk : ∀ r, Follows equal (k r) (k' r))
    (hout : ∀ m, ((k (.error .outOfFuel)).run.run m).1 = .error .outOfFuel) :
    Follows equal (observe x >>= k) (observe y >>= k') := by
  intro m n hm h
  obtain ⟨hr, hm⟩ := hx m n hm (ne_outOfFuel_of_observe hout h)
  rw [run_bind, run_observe] at h
  rw [run_bind, run_bind, run_observe, run_observe, ← hr]
  exact hk _ _ _ hm h

theorem resume (r : Except Halt α) : Follows equal (resume r) (resume r) := by
  cases r with
  | ok a => exact .pure a
  | error halt => exact .throw halt

theorem afterwards {f : Machine → Machine} (hx : Follows equal x y)
    (hf : ∀ m n, Beside equal m n → Beside equal (f m) (f n)) :
    Follows equal (afterwards x f) (afterwards y f) :=
  .observe hx (fun r => (Follows.modify hf).bind fun _ => resume r) fun _ => rfl

end Follows

/-! ## Errors and operands -/

/-- What is remembered of the errors makes no difference. -/
theorem follows_raise (e : RuntimeError) :
    Follows equal (modify fun m => { m with raised := e :: m.raised } : Exec PUnit)
      (modify fun m => { m with raised := e :: m.raised }) :=
  .modify fun _ _ h => { h with resembles := { h.resembles with } }

theorem follows_fail (e : RuntimeError) : Follows equal (fail e : Exec α) (fail e) :=
  (follows_raise e).bind fun _ => .throw _

/-- The answer of a function on values. -/
theorem follows_answer (r : Except RuntimeError α) :
    Follows equal (liftM r : Exec α) (liftM r) := by
  cases r with
  | ok a => exact .pure a
  | error e => exact follows_fail e

theorem follows_setStack (stack : List Value) :
    Follows equal (modify ({ · with stack }) : Exec PUnit) (modify ({ · with stack })) :=
  .modify fun _ _ h => { h with resembles := { h.resembles with stack := rfl } }

theorem follows_push (v : Value) : Follows equal (push v) (push v) :=
  .modify fun _ _ h => { h with
    resembles := { h.resembles with stack := congrArg (v :: ·) h.resembles.stack } }

theorem follows_pop : Follows equal pop pop := by
  refine .get fun m n h => ?_
  rw [← h.resembles.stack]
  cases m.stack with
  | nil => exact follows_fail _
  | cons v stack => exact (follows_setStack stack).bind fun _ => .pure v

theorem follows_pop₂ : Follows equal pop₂ pop₂ := by
  refine .get fun m n h => ?_
  rw [← h.resembles.stack]
  rcases m.stack with _ | ⟨b, _ | ⟨a, stack⟩⟩
  · exact follows_fail _
  · exact follows_fail _
  · exact (follows_setStack stack).bind fun _ => .pure (a, b)

theorem follows_pop₃ : Follows equal pop₃ pop₃ := by
  refine .get fun m n h => ?_
  rw [← h.resembles.stack]
  rcases m.stack with _ | ⟨c, _ | ⟨b, _ | ⟨a, stack⟩⟩⟩
  · exact follows_fail _
  · exact follows_fail _
  · exact follows_fail _
  · exact (follows_setStack stack).bind fun _ => .pure (a, b, c)

theorem follows_peek (i : Nat) : Follows equal (peek i) (peek i) := by
  refine .get fun m n h => ?_
  rw [← h.resembles.stack]
  cases m.stack[i]? with
  | none => exact follows_fail _
  | some v => exact .pure v

theorem follows_height : Follows equal height height :=
  .get fun m n h => by
    rw [← h.resembles.stack]
    exact .pure _

theorem follows_cutTo (base : Nat) : Follows equal (cutTo base) (cutTo base) :=
  .modify fun _ _ h => { h with
    resembles := { h.resembles with stack := congrArg (below base) h.resembles.stack } }

theorem follows_takeAbove (base : Nat) : Follows equal (takeAbove base) (takeAbove base) := by
  refine .get fun m n h => ?_
  rw [← h.resembles.stack]
  exact (follows_cutTo base).bind fun _ => .pure _

/-! ## The world -/

theorem Beside.withWorld (h : Beside equal m n) {w w' : World} (hw : w.SameButResults w')
    (hm : w.memo = m.world.memo) (hn : w'.memo = n.world.memo) :
    Beside equal { m with world := w } { n with world := w' } where
  resembles := { h.resembles with world := hw }
  closed := by
    rw [hn]
    exact h.closed
  both he := by
    rw [hm]
    exact h.both he

/-- A change of the world that leaves the results that are kept. -/
structure KeepsMemo (f : World → α × World) : Prop where
  same {w w' : World} : w.SameButResults w' →
    (f w).1 = (f w').1 ∧ (f w).2.SameButResults (f w').2
  memo (w : World) : (f w).2.memo = w.memo

theorem KeepsMemo.follows {f : World → α × World} (hf : KeepsMemo f) :
    Follows equal (inWorld f) (inWorld f) := by
  intro m n h _
  obtain ⟨hr, hw⟩ := hf.same h.resembles.world
  exact ⟨congrArg Except.ok hr, Beside.withWorld h hw (hf.memo _) (hf.memo _)⟩

theorem follows_modifyWorld {f g : World → World}
    (h : ∀ {w w' : World}, w.SameButResults w' → (f w).SameButResults (g w'))
    (hf : ∀ w, (f w).memo = w.memo) (hg : ∀ w, (g w).memo = w.memo) :
    Follows equal (modifyWorld f) (modifyWorld g) :=
  .modify fun _ _ hm => Beside.withWorld hm (h hm.resembles.world) (hf _) (hg _)

theorem follows_modifyScope {f g : Scope → Scope}
    (h : ∀ s s', s.Paired (fun _ => True) s' → (f s).Paired (fun _ => True) (g s')) :
    Follows equal (modifyScope f) (modifyScope g) :=
  follows_modifyWorld (fun hw => hw.withScope (h _ _ hw.scope)) (fun _ => rfl) fun _ => rfl

theorem follows_heap {f g : Heap → Exec α}
    (h : ∀ a b : Heap, a.SameButMarks b → Follows equal (f a) (g b)) :
    Follows equal (heap >>= f) (heap >>= g) :=
  fun m n hm => h _ _ hm.resembles.world.heap m n hm

theorem memo_setAll (w : World) (bindings : List (String × Value)) :
    (bindings.foldl (fun w (name, v) => w.set name v) w).memo = w.memo := by
  induction bindings generalizing w with
  | nil => rfl
  | cons e bindings ih => exact ih (w.set e.1 e.2)

theorem follows_bind (name : String) (v : Value) :
    Follows equal (Exec.bind name v) (Exec.bind name v) :=
  follows_modifyWorld (fun hw => hw.set name v) (fun _ => rfl) fun _ => rfl

theorem follows_bindAll (bindings : List (String × Value)) :
    Follows equal (bindAll bindings) (bindAll bindings) :=
  follows_modifyWorld (fun hw => hw.setAll bindings) (memo_setAll · bindings) (memo_setAll · bindings)

theorem follows_valueOf (name : String) : Follows equal (valueOf name) (valueOf name) := by
  refine .get fun m n h => ?_
  dsimp only
  rw [← h.resembles.world.get?, ← h.resembles.world.undefined]
  cases m.world.get? name with
  | some v => exact .pure v
  | none => exact follows_fail _

theorem follows_protecting (names : List String) (h : Follows equal x y) :
    Follows equal (protecting names x) (protecting names y) := by
  refine .get fun m n hm => .observe h (fun r => ?_) fun _ => rfl
  refine (follows_modifyScope fun s s' hs => ?_).bind fun _ => .resume r
  exact hs.restoreNames hm.resembles.world.scope names

theorem keepsMemo_read (source : String) : KeepsMemo (·.read source) where
  same h := h.read source
  memo w := by
    obtain ⟨names, hn⟩ := World.learnAll_eq w (namesRead source)
    simp only [World.read, hn]

theorem follows_read (source : String) : Follows equal (read source) (read source) := by
  refine (keepsMemo_read source).follows.bind fun r => ?_
  cases r with
  | ok items => exact .pure items
  | error e => exact .throw _

theorem exists_compileNew_eq (w : World) (items : List Value) :
    ∃ arities names heap, (w.compileNew items).2 = { w with scope.arities := arities, names, heap } := by
  obtain ⟨arities, names, hv⟩ := World.rebuilt_callTrees w items
  unfold World.compileNew
  revert hv
  rcases w.callTrees items with ⟨e | trees, v⟩ <;> rintro rfl
  · exact ⟨arities, names, w.heap, rfl⟩
  · dsimp only
    cases CodeUnit.ofCalls trees with
    | error e => exact ⟨arities, names, w.heap, rfl⟩
    | ok u => exact ⟨arities, names, _, rfl⟩

/-- **Compiling a block** changes arities, the names that were seen, the code in the heap and the code that is
kept. -/
theorem exists_compile_eq (w : World) (items : List Value) (dynamic : Bool) :
    ∃ arities names heap cache,
      (w.compile items dynamic).2 = { w with scope.arities := arities, names, heap, cache } := by
  obtain ⟨arities, names, heap, hnew⟩ := exists_compileNew_eq w items
  unfold World.compile
  split
  · split
    · exact ⟨_, _, _, _, rfl⟩
    · revert hnew
      rcases w.compileNew items with ⟨e | code, v⟩ <;> rintro rfl <;> exact ⟨_, _, _, _, rfl⟩
  · exact ⟨arities, names, heap, w.cache, hnew⟩

theorem keepsMemo_compile (items : List Value) (dynamic : Bool) :
    KeepsMemo (·.compile items dynamic) where
  same h := h.compile items dynamic
  memo w := by
    obtain ⟨arities, names, heap, cache, h⟩ := exists_compile_eq w items dynamic
    rw [h]

theorem follows_compile (items : List Value) (dynamic : Bool) :
    Follows equal (compile items dynamic) (compile items dynamic) := by
  have hhistory : Follows equal (modify (·.compiling items dynamic) : Exec PUnit)
      (modify (·.compiling items dynamic)) :=
    .modify fun _ _ h => { h with resembles := { h.resembles with } }
  refine hhistory.bind fun _ => ?_
  refine (keepsMemo_compile items dynamic).follows.bind fun r => ?_
  cases r with
  | ok c => exact .pure c
  | error e => exact .throw _

theorem follows_unitOf (c : CodeRef) : Follows equal (unitOf c) (unitOf c) := by
  refine follows_heap fun a b h => ?_
  rw [h.unit?]
  exact .pure _

/-! ## Attributes and text -/

theorem follows_setAttrs (f : NameTable Value → NameTable Value) :
    Follows equal (modify fun m => { m with attrs := f m.attrs } : Exec PUnit)
      (modify fun m => { m with attrs := f m.attrs }) :=
  .modify fun _ _ h => { h with
    resembles := { h.resembles with attrs := congrArg f h.resembles.attrs } }

theorem follows_attr? (name : String) : Follows equal (attr? name) (attr? name) :=
  .get fun m n h => by
    rw [← h.resembles.attrs]
    exact .pure _

theorem follows_hasFlag (name : String) : Follows equal (hasFlag name) (hasFlag name) :=
  (follows_attr? name).bind fun _ => .pure _

theorem follows_shown (fuel : Nat) (v : Value) : Follows equal (shown fuel v) (shown fuel v) := by
  refine follows_heap fun a b h => ?_
  rw [Value.display?, Value.display?, h.sameShape.displayWithin]
  cases v.displayWithin b fuel false with
  | some s => exact .pure s
  | none => exact .throw _

theorem follows_areEqual (fuel : Nat) (u v : Value) :
    Follows equal (areEqual fuel u v) (areEqual fuel u v) := by
  refine follows_heap fun a b h => ?_
  rw [Value.equalWithin_congr h.dictionary]
  cases Value.equalWithin b fuel u v with
  | some r => exact .pure r
  | none => exact .throw _

theorem follows_print (s : String) : Follows equal (print s) (print s) := by
  refine .get fun m n h => ?_
  rw [← h.resembles.output]
  cases m.output with
  | collected text =>
    exact .modify fun _ _ h => { h with resembles := { h.resembles with output := rfl } }
  | refused reason => exact follows_fail _

/-! ## Blocks -/

theorem follows_forM {f : α → Exec PUnit} (hf : ∀ a, Follows equal (f a) (f a)) (l : List α) :
    Follows equal (l.forM f) (l.forM f) := by
  induction l with
  | nil => exact .pure _
  | cons a l ih => exact (hf a).bind fun _ => ih

theorem follows_bindParameters (params : List String) :
    Follows equal (bindParameters params) (bindParameters params) :=
  follows_forM (fun name => follows_pop.bind fun v => follows_bind name v) params.reverse

theorem follows_keepTop (base : Nat) : Follows equal (keepTop base) (keepTop base) := by
  refine follows_height.bind fun height => .ite (fun _ => ?_) fun _ => .pure _
  exact follows_pop.bind fun top => (follows_cutTo base).bind fun _ => follows_push top

/-- The piece changes the kept results at most, and keeps none in a table that is closed. -/
def OnlyRemembers (x : Exec Unit) : Prop :=
  ∀ m, ∃ memo, x.run.run m = (.ok ⟨⟩, { m with world.memo := memo }) ∧
    (m.world.memo.IsClosed → memo.IsClosed)

theorem onlyRemembers_pure : OnlyRemembers (pure ()) := fun m => ⟨m.world.memo, rfl, id⟩

theorem onlyRemembers_remember (key : MemoKey) (base : Nat) : OnlyRemembers (remember key base) := by
  rintro ⟨world, stack, attrs, output, depth, tryDepth, raised, fresh, built⟩
  rw [remember, run_bind, run_get]
  by_cases h : base < stack.length
  · simp only [if_pos h]
    cases stack with
    | nil => exact ⟨world.memo, rfl, id⟩
    | cons v stack =>
      refine ⟨world.memo.insert key v, rfl, fun hm => ?_⟩
      rw [hm.insert]
      exact hm
  · simp only [if_neg h]
    exact ⟨world.memo, rfl, id⟩

theorem OnlyRemembers.follows {x y : Exec Unit} (hx : OnlyRemembers x) (hy : OnlyRemembers y) :
    Follows equal x y := by
  intro m n h _
  obtain ⟨memo, hm, hcm⟩ := hx m
  obtain ⟨memo', hn, hcn⟩ := hy n
  rw [hm, hn]
  exact ⟨rfl, { h.resembles with world := h.resembles.world.withMemo _ _ }, hcn h.closed,
    fun he => hcm (h.both he)⟩

/-- The end of a block: its result is kept if there is a key. -/
def keepUnder (key? : Option MemoKey) (base : Nat) (flow : Flow) : Exec Flow := do
  match key? with
  | some key => remember key base
  | none => pure ()
  return flow

theorem follows_keepUnder (key? key'? : Option MemoKey) (base : Nat) (flow : Flow) :
    Follows equal (keepUnder key? base flow) (keepUnder key'? base flow) := by
  have hnone := onlyRemembers_pure
  have hsome (key : MemoKey) := onlyRemembers_remember key base
  cases key? <;> cases key'?
  · exact .pure _
  · exact (hnone.follows (hsome _)).bind fun _ => .pure _
  · exact ((hsome _).follows hnone).bind fun _ => .pure _
  · exact ((hsome _).follows (hsome _)).bind fun _ => .pure _

theorem follows_functionCode (ref : FunctionRef) :
    Follows equal (functionCode ref) (functionCode ref) := by
  refine follows_heap fun a b h => ?_
  have hc := h.related ref
  revert hc
  generalize a.callable? ref = c?, b.callable? ref = c'?
  rintro (⟨⟨_⟩ | ⟨f, memoize, _ | code⟩⟩ | _)
  · exact follows_fail _
  · dsimp only
    cases f.main with
    | block items dynamic =>
      refine (follows_compile items dynamic).bind fun code => ?_
      refine (follows_modifyWorld (fun hw => hw.setCompiled ref code) ?_ ?_).bind fun _ => .pure code
      · exact fun _ => rfl
      · exact fun _ => rfl
    | _ => exact follows_fail _
  · exact .pure code
  · exact follows_fail _

section

variable {run run' : CodeRef → Exec Flow} (hrun : ∀ code, Follows equal (run code) (run' code))

include hrun

theorem follows_descend {code : Exec CodeRef} (hcode : Follows equal code code) :
    Follows equal (descend run code) (descend run' code) := by
  have hdepth (f : Nat → Nat) (m n : Machine) (h : Beside equal m n) :
      Beside equal { m with depth := f m.depth } { n with depth := f n.depth } :=
    { h with resembles := { h.resembles with depth := congrArg f h.resembles.depth } }
  exact (Follows.modify (hdepth (· + 1))).bind fun _ =>
    (hcode.bind hrun).afterwards (hdepth (· - 1))

/-- Neither what a block is memoized under nor what is kept of it makes a difference inside of it. -/
theorem follows_inScope (o : BlockOptions) (memoize : Option FunctionRef) {code : Exec CodeRef}
    (hcode : Follows equal code code) (key? key'? : Option MemoKey) :
    Follows equal (inScope run o code key?) (inScope run' { o with memoize } code key'?) := by
  refine .get fun m n hm => ?_
  refine (follows_bindAll o.imports).bind fun _ => ?_
  refine (follows_bindParameters o.params).bind fun _ => ?_
  refine follows_height.bind fun base => ?_
  have hs := hm.resembles.world.scope
  have hleave (flow : Flow) : Follows equal
      (if o.inPlace then keepUnder key? base flow
      else do
        modifyScope (o.scopeAfter m.world.scope)
        keepUnder key? base flow)
      (if o.inPlace then keepUnder key'? base flow
      else do
        modifyScope (o.scopeAfter n.world.scope)
        keepUnder key'? base flow) := by
    have hkeep : Follows equal (keepUnder key? base flow) (keepUnder key'? base flow) :=
      follows_keepUnder key? key'? base flow
    refine .ite (fun _ => hkeep) fun _ => ?_
    exact (follows_modifyScope fun t t' ht => hs.scopeAfter ht o).bind fun _ => hkeep
  refine .observe (follows_descend hrun hcode) (fun r => ?_) fun m => ?_
  · rcases r with halt | flow
    · refine .ite (fun _ => .throw halt) fun _ => ?_
      refine (follows_modifyScope fun t t' ht => ?_).bind fun _ => .throw halt
      cases o.inTry
      · exact hs
      · exact hs.scopeAfter ht o
    · have hleave := hleave (if o.functionBoundary then .done else flow)
      exact .ite (fun _ => (follows_keepTop base).bind fun _ => hleave) fun _ => hleave
  · dsimp only
    split <;> rfl

/-- A block that nothing is kept of. -/
theorem follows_runScoped (o : BlockOptions) (ho : o.memoize = none) {code : Exec CodeRef}
    (hcode : Follows equal code code) :
    Follows equal (runScoped run o code) (runScoped run' o code) := by
  refine .get fun m n h => ?_
  dsimp only
  rw [ho, ← h.resembles.stack, ← h.resembles.depth,
    ← h.resembles.world.config.maxDepth]
  have hbody := follows_inScope hrun o o.memoize hcode none none
  have hrest : Follows equal
      (if m.world.config.maxDepth ≤ m.depth then do
        fail (.stackOverflow m.world.config.maxDepth)
        inScope run o code none
      else inScope run o code none)
      (if m.world.config.maxDepth ≤ m.depth then do
        fail (.stackOverflow m.world.config.maxDepth)
        inScope run' o code none
      else inScope run' o code none) :=
    .ite (fun _ => (follows_fail _).bind fun _ => hbody) fun _ => hbody
  exact .ite (fun _ => (follows_fail _).bind fun _ => hrest) fun _ => hrest

omit hrun in
theorem follows_bodyCode (body : Value) : Follows equal (bodyCode body) (bodyCode body) := by
  cases body with
  | block items dynamic => exact follows_compile items dynamic
  | inline items => exact follows_compile items false
  | bytecode ref => exact .pure ref
  | _ => exact follows_fail _

theorem follows_runInPlace (body : Value) :
    Follows equal (runInPlace run body) (runInPlace run' body) :=
  follows_runScoped hrun _ rfl (follows_bodyCode body)

theorem follows_runPass (body : Value) : Follows equal (runPass run body) (runPass run' body) := by
  refine follows_height.bind fun base => (follows_runInPlace hrun body).bind fun flow => ?_
  cases flow with
  | returned => exact .pure _
  | broken => exact (follows_cutTo base).bind fun _ => .pure _
  | continued => exact (follows_cutTo base).bind fun _ => .pure _
  | done =>
    refine .get fun m n h => ?_
    rw [← h.resembles.stack]
    exact (follows_cutTo base).bind fun _ => .pure _

end

end Exec

end BlockLang
