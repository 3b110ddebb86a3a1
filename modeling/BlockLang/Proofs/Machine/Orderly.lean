import BlockLang.Proofs.CallTree.Labels
import BlockLang.Proofs.Machine.Compiling
import BlockLang.Proofs.Machine.Pieces
import BlockLang.Proofs.Machine.Scoping
import BlockLang.Proofs.Value.Equivalence

/-!
# Machines whose table of arities is accounted for

The table of arities is written by bindings, which put the arity of a function beside it, and by labels
while call trees are built, which write an arity ahead of the binding. Both tables are then saved, put back
and handed on together.

**The invariant** (`Machine.Orderly`). In every scope, the arity of a name is the one that its binding implies,
or a label has said so in a block that was built when the name was bound as it is now
(`Machine.Explains`). An arity is implied for good only if the function is there, so the invariant has a second
half: no value in the machine refers to a function that does not exist (`Heap.Knows`, `Heap.Closed`). Along
with the entries of the dictionaries goes that their keys are different (`Heap.KeysOnce`).

A piece of a run *keeps order* if it leads from an orderly machine to an orderly one, in which functions have
the arities that they had and the history goes on (`Machine.Later`); what was known and explained before is
still so, and that holds for the scopes that a call has saved as well. There is one rule for each piece that
runs are put together from.
-/

namespace BlockLang

open CallTree Exec

/-! ## Values that refer to functions that are there -/

namespace Heap

/-- All functions that the value refers to are there. -/
def Knows (h : Heap) (v : Value) : Prop := v.FunctionsIn fun ref => ref.index < h.callables.size

/-- What the objects of a heap hold refers to functions that are there, and no dictionary lists a key twice. -/
structure Closed (h : Heap) : Prop where
  keys : h.KeysOnce
  entries : ∀ ref, ∀ e ∈ h.dictionary ref, h.Knows e.2
  functions : ∀ ref f c?, h.callable? ref = some (.user f c?) →
    h.Knows f.main ∧ ∀ e ∈ f.imports, h.Knows e.2
  constants : ∀ c u, h.unit? c = some u → ∀ v ∈ u.constants, h.Knows v

/-- The arity that a binding gives to its name. -/
def arityOf? (h : Heap) : Option Value → Option Nat
  | some (.function ref) => some (h.arity ref)
  | _ => none

/-- What a name is bound to refers to functions that are there, and its arity is the one that the binding
implies, or what a label of the name has said in a block that was built under this binding. -/
structure Explains (h : Heap) (built : Scope → List Value → Prop) (name : String)
    (e : Option Value × Option Nat) : Prop where
  known : ∀ v, e.1 = some v → h.Knows v
  arity? : e.2 = h.arityOf? e.1 ∨
    ∃ scope items, built scope items ∧ scope.bindings.get? name = e.1 ∧ World.Says items name e.2

/-- Functions have been added at most. -/
structure Grown (h h' : Heap) : Prop where
  size : h.callables.size ≤ h'.callables.size
  arity : ∀ ref : FunctionRef, ref.index < h.callables.size → h'.arity ref = h.arity ref

variable {h h' : Heap} {v : Value} {v? : Option Value}

theorem knows_block {items : List Value} {dynamic : Bool} :
    h.Knows (.block items dynamic) ↔ ∀ v ∈ items, h.Knows v := by
  simp [Knows]

theorem knows_inline {items : List Value} : h.Knows (.inline items) ↔ ∀ v ∈ items, h.Knows v := by
  simp [Knows]

theorem Grown.of_callables (hc : h'.callables = h.callables) : h.Grown h' :=
  ⟨Nat.le_of_eq (congrArg Array.size hc.symm), fun ref _ => by
    simp only [Heap.arity, callable?, hc]⟩

theorem Knows.grown (hv : h.Knows v) (hg : h.Grown h') : h'.Knows v :=
  Value.RefersIn.mono (fun _ => id) (fun _ hlt => Nat.lt_of_lt_of_le hlt hg.size) v hv

theorem Grown.arityOf? (hg : h.Grown h') (hv : ∀ v, v? = some v → h.Knows v) :
    h'.arityOf? v? = h.arityOf? v? := by
  unfold Heap.arityOf?
  split
  · next ref => exact congrArg some (hg.arity ref (hv _ rfl))
  · rfl

/-- A closed heap stays closed when functions are added elsewhere, and all else is as before. -/
theorem Closed.grown (hh : h.Closed) (hg : h.Grown h') (hd : h'.dictionaries = h.dictionaries)
    (hu : h'.units = h.units)
    (hf : ∀ ref f c?, h'.callable? ref = some (.user f c?) →
      h'.Knows f.main ∧ ∀ e ∈ f.imports, h'.Knows e.2) : h'.Closed where
  keys ref := by
    rw [dictionary, hd]
    exact hh.keys ref
  entries ref e he := (hh.entries ref e (by rwa [dictionary, ← hd])).grown hg
  functions := hf
  constants c u hu' v hv := (hh.constants c u (by rwa [unit?, ← hu]) v hv).grown hg

theorem Closed.insertEntry (hh : h.Closed) (hv : h.Knows v) (ref : DictionaryRef) (key : String) :
    (h.insertEntry ref key v).Closed where
  keys := hh.keys.insertEntry ref key v
  entries other := by
    rw [dictionary_insertEntry]
    split
    · exact NameTable.forall_insert (hh.entries ref) hv
    · exact hh.entries other
  functions := hh.functions
  constants := hh.constants

theorem Closed.addDictionary (hh : h.Closed) {entries : NameTable Value}
    (he : ∀ e ∈ entries, h.Knows e.2) (hk : entries.names.Nodup) :
    (h.addDictionary entries).2.Closed where
  keys := hh.keys.addDictionary hk
  entries other := by
    simp only [dictionary, Heap.addDictionary, Array.getElem?_push]
    split
    · exact he
    · exact hh.entries other
  functions := hh.functions
  constants := hh.constants

theorem grown_addCallable (h : Heap) (c : Callable) : h.Grown (h.addCallable c).2 where
  size := by simp [addCallable]
  arity ref hlt := by
    have hsame : (h.addCallable c).2.callable? ref = h.callable? ref :=
      Array.getElem?_push_lt hlt |>.trans (Array.getElem?_eq_getElem hlt).symm
    rw [Heap.arity, Heap.arity, hsame]

theorem Closed.addCallable (hh : h.Closed) {c : Callable}
    (hc : ∀ f c?, c = .user f c? → h.Knows f.main ∧ ∀ e ∈ f.imports, h.Knows e.2) :
    (h.addCallable c).2.Closed := by
  have hg := h.grown_addCallable c
  refine hh.grown hg rfl rfl fun ref f c? hf => ?_
  simp only [callable?, Heap.addCallable, Array.getElem?_push] at hf
  have hbefore : h.Knows f.main ∧ ∀ e ∈ f.imports, h.Knows e.2 := by
    split at hf
    · exact hc f c? (Option.some.inj hf)
    · exact hh.functions ref f c? hf
  exact ⟨hbefore.1.grown hg, fun e he => (hbefore.2 e he).grown hg⟩

theorem knows_addCallable (h : Heap) (c : Callable) :
    (h.addCallable c).2.Knows (.function (h.addCallable c).1) := by
  simp [Knows, addCallable]

theorem grown_setCompiled (h : Heap) (ref : FunctionRef) (c : CodeRef) :
    h.Grown (h.setCompiled ref c) where
  size := by simp [Heap.setCompiled]
  arity other _ := by
    rw [Heap.arity, Heap.arity, callable?_setCompiled]
    split
    · rcases h.callable? other with _ | ⟨b | ⟨f, _ | _⟩⟩ <;> rfl
    · rfl

theorem Closed.setCompiled (hh : h.Closed) (ref : FunctionRef) (c : CodeRef) :
    (h.setCompiled ref c).Closed := by
  have hg := h.grown_setCompiled ref c
  refine hh.grown hg rfl rfl fun other f c? hf => ?_
  have hbefore : ∃ d?, h.callable? other = some (.user f d?) := by
    rw [callable?_setCompiled] at hf
    split at hf
    · obtain ⟨callable, hcall, hf⟩ := Option.map_eq_some_iff.1 hf
      split at hf
      · cases hf
        exact ⟨_, hcall⟩
      · exact ⟨_, hf ▸ hcall⟩
    · exact ⟨_, hf⟩
  obtain ⟨d?, hbefore⟩ := hbefore
  obtain ⟨hmain, himports⟩ := hh.functions other f d? hbefore
  exact ⟨hmain.grown hg, fun e he => (himports e he).grown hg⟩

end Heap

/-! ## Orderly machines -/

namespace Machine

/-- The functions that the value refers to are there. -/
def Knows (m : Machine) (v : Value) : Prop := m.world.heap.Knows v

/-- The machine accounts for the arity of a name that is bound so. -/
def Explains (m : Machine) (name : String) (e : Option Value × Option Nat) : Prop :=
  m.world.heap.Explains m.built name e

/-- The machine accounts for the arities of all names in the scope. -/
def ExplainsScope (m : Machine) (s : Scope) : Prop := ∀ name, m.Explains name (s.entry name)

/-- Every arity is accounted for, and all functions that values refer to are there. -/
structure Orderly (m : Machine) : Prop where
  scope : m.ExplainsScope m.world.scope
  heap : m.world.heap.Closed
  results : ∀ e ∈ m.world.memo.entries, m.Knows e.2
  operands : ∀ v ∈ m.stack, m.Knows v
  given : ∀ e ∈ m.attrs, m.Knows e.2

/-- The second machine has the functions of the first one, and its history goes on from there. -/
structure Later (m n : Machine) : Prop where
  heap : m.world.heap.Grown n.world.heap
  built : ∀ scope items, m.built scope items → n.built scope items

variable {m n k : Machine} {name : String} {v : Value} {s t : Scope}

theorem knows_block {items : List Value} {dynamic : Bool} :
    m.Knows (.block items dynamic) ↔ ∀ v ∈ items, m.Knows v := Heap.knows_block

theorem knows_inline {items : List Value} : m.Knows (.inline items) ↔ ∀ v ∈ items, m.Knows v :=
  Heap.knows_inline

theorem Later.of_callables (hc : n.world.heap.callables = m.world.heap.callables)
    (hb : n.built = m.built) : m.Later n := ⟨.of_callables hc, fun _ _ h => hb ▸ h⟩

protected theorem Later.refl (m : Machine) : m.Later m := .of_callables rfl rfl

theorem Later.trans (h : m.Later n) (h' : n.Later k) : m.Later k where
  heap := ⟨Nat.le_trans h.heap.size h'.heap.size, fun ref hlt =>
    (h'.heap.arity ref (Nat.lt_of_lt_of_le hlt h.heap.size)).trans (h.heap.arity ref hlt)⟩
  built scope items hb := h'.built scope items (h.built scope items hb)

theorem Knows.later (hv : m.Knows v) (h : m.Later n) : n.Knows v := Heap.Knows.grown hv h.heap

theorem Explains.later {e : Option Value × Option Nat} (he : m.Explains name e) (h : m.Later n) :
    n.Explains name e where
  known v hv := Heap.Knows.grown (he.known v hv) h.heap
  arity? := by
    rcases he.arity? with ha | ⟨scope, items, hb, hsame, hsays⟩
    · exact .inl (ha.trans (h.heap.arityOf? he.known).symm)
    · exact .inr ⟨scope, items, h.built scope items hb, hsame, hsays⟩

theorem ExplainsScope.later (hs : m.ExplainsScope s) (h : m.Later n) : n.ExplainsScope s :=
  fun name => (hs name).later h

/-! ## Scopes -/

namespace ExplainsScope

theorem get? (hs : m.ExplainsScope s) (hv : s.bindings.get? name = some v) : m.Knows v :=
  (hs name).known v hv

/-- Both tables of a name are written together. -/
theorem assign (hs : m.ExplainsScope s) {value? : Option Value} {arity? : Option Nat}
    (he : m.Explains name (value?, arity?)) : m.ExplainsScope (s.assign name value? arity?) := by
  intro other
  rw [Scope.entry_assign]
  split
  · next heq => exact heq ▸ he
  · exact hs other

theorem restoreNames (hs : m.ExplainsScope s) (ht : m.ExplainsScope t) (names : List String) :
    m.ExplainsScope (s.restoreNames t names) := by
  intro other
  rw [Scope.entry_restoreNames]
  split
  · exact ht other
  · exact hs other

theorem takeNames (hs : m.ExplainsScope s) (ht : m.ExplainsScope t) (names : List String) :
    m.ExplainsScope (s.takeNames t names) := by
  intro other
  rw [Scope.entry_takeNames]
  split
  · exact ht other
  · exact hs other

theorem scopeAfter (hs : m.ExplainsScope s) (ht : m.ExplainsScope t) (o : BlockOptions) :
    m.ExplainsScope (o.scopeAfter s t) := by
  unfold BlockOptions.scopeAfter
  split
  · exact ht.restoreNames hs o.params
  · exact hs.takeNames ht o.exports

end ExplainsScope

/-! ## Changes of an orderly machine -/

namespace Orderly

/-- Changing neither the functions nor the history leaves all that was known and explained. -/
theorem congr (h : m.Orderly) (hn : m.Later n) (hscope : n.ExplainsScope n.world.scope)
    (hheap : n.world.heap.Closed) (hmemo : ∀ e ∈ n.world.memo.entries, n.Knows e.2)
    (hstack : n.stack = m.stack) (hattrs : n.attrs = m.attrs) : n.Orderly where
  scope := hscope
  heap := hheap
  results := hmemo
  operands v hv := (h.operands v (hstack ▸ hv)).later hn
  given e he := (h.given e (hattrs ▸ he)).later hn

theorem withStack (h : m.Orderly) {stack : List Value} (hs : ∀ v ∈ stack, m.Knows v) :
    Orderly { m with stack } :=
  { h with operands := hs }

theorem withScope (h : m.Orderly) (hs : m.ExplainsScope s) : Orderly { m with world.scope := s } :=
  { h with scope := hs }

theorem set (h : m.Orderly) (hv : m.Knows v) (name : String) :
    Orderly { m with world := m.world.set name v } := by
  refine h.withScope (h.scope.assign ⟨?_, .inl ?_⟩)
  · rintro _ ⟨⟩
    exact hv
  · cases v <;> rfl

end Orderly

end Machine

/-! ## Pieces that keep order -/

namespace Exec

variable {α β : Type} {x : Exec α} {Q : Machine → α → Prop} {m n : Machine} {v : Value}

/-- The run has led to an orderly machine that is later, with an answer that has `Q` there. -/
structure Kept (Q : Machine → α → Prop) (m : Machine) (r : Except Halt α × Machine) : Prop where
  orderly : r.2.Orderly
  later : m.Later r.2
  answer : ∀ a, r.1 = .ok a → Q r.2 a

/-- From `m`, if it is orderly, the piece keeps order, and its answer has `Q`. -/
def Keeps (x : Exec α) (Q : Machine → α → Prop) (m : Machine) : Prop :=
  m.Orderly → Kept Q m (x.run.run m)

/-- The piece keeps order, wherever it begins. -/
def KeepsOrder (x : Exec α) : Prop := ∀ m, Keeps x (fun _ _ => True) m

namespace Keeps

theorem mono {R : Machine → α → Prop} (h : Keeps x Q m) (hQ : ∀ n a, Q n a → R n a) : Keeps x R m :=
  fun hm => { h hm with answer := fun a ha => hQ _ a ((h hm).answer a ha) }

protected theorem pure {a : α} (h : Q m a) : Keeps (pure a) Q m :=
  fun hm => ⟨hm, .refl m, fun _ ha => Except.ok.inj ha ▸ h⟩

protected theorem throw (halt : Halt) : Keeps (throw halt) Q m := fun hm => ⟨hm, .refl m, nofun⟩

/-- What comes second begins in a later machine. -/
protected theorem bind {f : α → Exec β} {R : Machine → β → Prop} (hx : Keeps x Q m)
    (hf : ∀ n a, m.Later n → Q n a → Keeps (f a) R n) : Keeps (x >>= f) R m := by
  intro hm
  have hx := hx hm
  rw [run_bind]
  revert hx
  rcases x.run.run m with ⟨e | a, n⟩ <;> intro hx
  · exact ⟨hx.orderly, hx.later, nofun⟩
  · have hend := hf n a hx.later (hx.answer a rfl) hx.orderly
    exact { hend with later := hx.later.trans hend.later }

/-- Looking at the machine. -/
protected theorem get {f : Machine → Exec α} (h : m.Orderly → Keeps (f m) Q m) :
    Keeps (get >>= f) Q m := fun hm => h hm hm

protected theorem heap {f : Heap → Exec α} (h : m.world.heap.Closed → Keeps (f m.world.heap) Q m) :
    Keeps (heap >>= f) Q m := fun hm => h hm.heap hm

protected theorem modify {f : Machine → Machine} {Q : Machine → PUnit → Prop}
    (h : m.Orderly → (f m).Orderly ∧ m.Later (f m) ∧ Q (f m) ⟨⟩) : Keeps (modify f) Q m :=
  fun hm => ⟨(h hm).1, (h hm).2.1, fun _ _ => (h hm).2.2⟩

protected theorem inWorld {f : World → α × World}
    (h : m.Orderly → Machine.Orderly { m with world := (f m.world).2 } ∧
      m.Later { m with world := (f m.world).2 } ∧ Q { m with world := (f m.world).2 } (f m.world).1) :
    Keeps (inWorld f) Q m :=
  fun hm => ⟨(h hm).1, (h hm).2.1, fun _ ha => Except.ok.inj ha ▸ (h hm).2.2⟩

protected theorem ite {c : Prop} [Decidable c] {y : Exec α} (hx : c → Keeps x Q m)
    (hy : ¬ c → Keeps y Q m) : Keeps (if c then x else y) Q m := by
  by_cases hc : c
  · rw [if_pos hc]
    exact hx hc
  · rw [if_neg hc]
    exact hy hc

protected theorem observe (hx : Keeps x Q m) :
    Keeps (observe x) (fun n r => ∀ a, r = .ok a → Q n a) m := by
  intro hm
  rw [run_observe]
  exact { hx hm with answer := fun r hr => Except.ok.inj hr ▸ (hx hm).answer }

theorem resume {r : Except Halt α} (h : ∀ a, r = .ok a → Q m a) : Keeps (resume r) Q m := by
  cases r with
  | ok a => exact .pure (h a rfl)
  | error halt => exact .throw halt

end Keeps

theorem KeepsOrder.bind {f : α → Exec β} (hx : KeepsOrder x) (hf : ∀ a, KeepsOrder (f a)) :
    KeepsOrder (x >>= f) := fun m => (hx m).bind fun n a _ _ => hf a n

/-- A step that is taken under a condition. -/
theorem keeps_when {c : Prop} [Decidable c] {x : Exec PUnit} {k : PUnit → Exec α}
    (hx : c → Keeps x (fun _ _ => True) m) (hk : ∀ n, m.Later n → Keeps (k ⟨⟩) Q n) :
    Keeps (if c then x >>= k else k ⟨⟩) Q m :=
  Keeps.ite (fun h => (hx h).bind fun n _ hn _ => hk n hn) fun _ => hk m (.refl m)

/-- A step that is taken unless a condition holds. -/
theorem keeps_unless {c : Prop} [Decidable c] {x : Exec PUnit} {k : PUnit → Exec α}
    (hx : ¬ c → Keeps x (fun _ _ => True) m) (hk : ∀ n, m.Later n → Keeps (k ⟨⟩) Q n) :
    Keeps (if c then k ⟨⟩ else x >>= k) Q m :=
  Keeps.ite (fun _ => hk m (.refl m)) fun h => (hx h).bind fun n _ hn _ => hk n hn

/-! ## Errors, operands and the output -/

theorem keeps_fail (e : RuntimeError) : Keeps (fail e) Q m :=
  Keeps.bind (Q := fun _ _ => True)
    (.modify fun hm => ⟨{ hm with }, .of_callables rfl rfl, trivial⟩) fun _ _ _ _ => .throw _

/-- What would follow an error is never reached. -/
theorem keeps_fail_bind (e : RuntimeError) {f : β → Exec α} : Keeps (fail e >>= f) Q m :=
  (keeps_fail (Q := fun _ _ => False) e).bind fun _ _ _ h => h.elim

theorem keeps_answer (r : Except RuntimeError α) :
    Keeps (liftM r : Exec α) (fun _ a => r = .ok a) m := by
  cases r with
  | ok a => exact .pure rfl
  | error e => exact keeps_fail e

/-- Counting what is under way. -/
theorem keepsOrder_count (f g : Nat → Nat) :
    KeepsOrder (modify fun m => { m with depth := f m.depth, tryDepth := g m.tryDepth } : Exec PUnit) :=
  fun _ => .modify fun hm => ⟨{ hm with }, .of_callables rfl rfl, trivial⟩

theorem keeps_setStack {stack : List Value} (hs : ∀ v ∈ stack, m.Knows v) :
    Keeps (modify ({ · with stack }) : Exec PUnit) (fun _ _ => True) m :=
  .modify fun hm => ⟨hm.withStack hs, .of_callables rfl rfl, trivial⟩

theorem keeps_push (hv : m.Knows v) : Keeps (push v) (fun _ _ => True) m :=
  .modify fun hm => ⟨hm.withStack (List.forall_mem_cons.2 ⟨hv, hm.operands⟩), .of_callables rfl rfl,
    trivial⟩

theorem keeps_pop : Keeps pop Machine.Knows m := by
  refine .get fun hm => ?_
  have hall := hm.operands
  revert hall
  rcases m.stack with _ | ⟨v, stack⟩ <;> intro hall
  · exact keeps_fail _
  · obtain ⟨hv, hs⟩ := List.forall_mem_cons.1 hall
    exact (keeps_setStack hs).bind fun n _ hn _ => .pure (hv.later hn)

theorem keeps_pop₂ : Keeps pop₂ (fun n a => n.Knows a.1 ∧ n.Knows a.2) m := by
  refine .get fun hm => ?_
  have hall := hm.operands
  revert hall
  rcases m.stack with _ | ⟨b, _ | ⟨a, stack⟩⟩ <;> intro hall
  · exact keeps_fail _
  · exact keeps_fail _
  · obtain ⟨hb, ha, hs⟩ : m.Knows b ∧ m.Knows a ∧ ∀ v ∈ stack, m.Knows v := by simpa using hall
    exact (keeps_setStack hs).bind fun n _ hn _ => .pure ⟨ha.later hn, hb.later hn⟩

theorem keeps_pop₃ : Keeps pop₃ (fun n a => n.Knows a.1 ∧ n.Knows a.2.1 ∧ n.Knows a.2.2) m := by
  refine .get fun hm => ?_
  have hall := hm.operands
  revert hall
  rcases m.stack with _ | ⟨c, _ | ⟨b, _ | ⟨a, stack⟩⟩⟩ <;> intro hall
  · exact keeps_fail _
  · exact keeps_fail _
  · exact keeps_fail _
  · obtain ⟨hc, hb, ha, hs⟩ :
        m.Knows c ∧ m.Knows b ∧ m.Knows a ∧ ∀ v ∈ stack, m.Knows v := by simpa using hall
    exact (keeps_setStack hs).bind fun n _ hn _ => .pure ⟨ha.later hn, hb.later hn, hc.later hn⟩

theorem keeps_peek (i : Nat) : Keeps (peek i) Machine.Knows m := by
  refine .get fun hm => ?_
  cases hv : m.stack[i]? with
  | some v => exact .pure (hm.operands v (List.mem_of_getElem? hv))
  | none => exact keeps_fail _

theorem keepsOrder_height : KeepsOrder height := fun _ => .get fun _ => .pure trivial

theorem keepsOrder_cutTo (base : Nat) : KeepsOrder (cutTo base) := fun _ =>
  .modify fun hm => ⟨hm.withStack fun v hv => hm.operands v (List.mem_of_mem_drop hv),
    .of_callables rfl rfl, trivial⟩

theorem keeps_takeAbove (base : Nat) : Keeps (takeAbove base) (fun n l => ∀ v ∈ l, n.Knows v) m := by
  refine .get fun hm => (keepsOrder_cutTo base m).bind fun n _ hn _ => .pure fun v hv => ?_
  exact (hm.operands v (List.mem_of_mem_take (List.mem_reverse.1 hv))).later hn

theorem keepsOrder_shown (fuel : Nat) (v : Value) : KeepsOrder (shown fuel v) := by
  refine fun m => .heap fun _ => ?_
  cases v.display? m.world.heap fuel with
  | some s => exact .pure trivial
  | none => exact .throw _

theorem keepsOrder_areEqual (fuel : Nat) (a b : Value) : KeepsOrder (areEqual fuel a b) := by
  refine fun m => .heap fun _ => ?_
  cases Value.equalWithin m.world.heap fuel a b with
  | some equal => exact .pure trivial
  | none => exact .throw _

theorem keepsOrder_print (s : String) : KeepsOrder (print s) := by
  refine fun m => .get fun _ => ?_
  cases m.output with
  | collected text => exact .modify fun hm => ⟨{ hm with }, .of_callables rfl rfl, trivial⟩
  | refused reason => exact keeps_fail _

/-! ## Names -/

theorem keeps_modifyScope {f : Scope → Scope}
    (h : m.ExplainsScope m.world.scope → m.ExplainsScope (f m.world.scope)) :
    Keeps (modifyScope f) (fun _ _ => True) m :=
  .modify fun hm => ⟨hm.withScope (h hm.scope), .of_callables rfl rfl, trivial⟩

theorem keeps_bind (hv : m.Knows v) (name : String) : Keeps (Exec.bind name v) (fun _ _ => True) m :=
  .modify fun hm => ⟨hm.set hv name, .of_callables rfl rfl, trivial⟩

/-- Binding names one after the other. -/
theorem keeps_bindAll {bindings : List (String × Value)} (hb : ∀ e ∈ bindings, m.Knows e.2) :
    Keeps (bindAll bindings) (fun _ _ => True) m := by
  refine .modify fun hm => ?_
  induction bindings generalizing m with
  | nil => exact ⟨hm, .refl m, trivial⟩
  | cons e bindings ih =>
    obtain ⟨he, hb⟩ := List.forall_mem_cons.1 hb
    have hset : m.Later { m with world := m.world.set e.1 e.2 } := .of_callables rfl rfl
    obtain ⟨hend, hlater, -⟩ := ih (fun e he => (hb e he).later hset) (hm.set he e.1)
    exact ⟨hend, hset.trans hlater, trivial⟩

theorem keeps_valueOf (name : String) : Keeps (valueOf name) Machine.Knows m := by
  refine .get fun hm => ?_
  dsimp only
  cases hv : m.world.get? name with
  | some v => exact .pure (hm.scope.get? hv)
  | none => exact keeps_fail _

theorem keeps_protecting (names : List String) (hx : Keeps x Q m)
    (hQ : ∀ {n k a}, n.Later k → Q n a → Q k a) : Keeps (protecting names x) Q m := by
  refine .get fun hm => hx.observe.bind fun n r hn hr => ?_
  refine Keeps.bind (Q := fun k _ => n.Later k) ?_ fun k _ _ hk =>
    .resume fun a ha => hQ hk (hr a ha)
  refine .modify fun hn' => ⟨hn'.withScope ?_, .of_callables rfl rfl, .of_callables rfl rfl⟩
  exact hn'.scope.restoreNames (hm.scope.later hn) names

theorem keeps_read (source : String) : Keeps (read source) (fun n l => ∀ v ∈ l, n.Knows v) m := by
  have hread : Keeps (inWorld (·.read source)) (fun _ r => r = readSource source) m := by
    refine .inWorld fun hm => ?_
    obtain ⟨names, hn⟩ := World.learnAll_eq m.world (namesRead source)
    simp only [World.read, hn]
    exact ⟨{ hm with }, .of_callables rfl rfl, trivial⟩
  refine hread.bind fun n r _ hr => ?_
  cases r with
  | ok items => exact .pure (refersIn_of_readSource hr.symm)
  | error e => exact .throw _

/-! ## Attributes -/

theorem keepsOrder_clearAttrs : KeepsOrder clearAttrs := fun _ =>
  .modify fun hm => ⟨{ hm with given := by simp }, .of_callables rfl rfl, trivial⟩

theorem keeps_setAttr (hv : m.Knows v) (name : String) :
    Keeps (modify fun m => { m with attrs := m.attrs.insert name v } : Exec PUnit)
      (fun _ _ => True) m :=
  .modify fun hm => ⟨{ hm with given := NameTable.forall_insert hm.given hv }, .of_callables rfl rfl,
    trivial⟩

theorem keepsOrder_attr? (name : String) : KeepsOrder (attr? name) := fun _ => .get fun _ => .pure trivial

theorem keepsOrder_hasFlag (name : String) : KeepsOrder (hasFlag name) :=
  (keepsOrder_attr? name).bind fun _ _ => .pure trivial

end Exec

end BlockLang
