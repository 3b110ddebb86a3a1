import BlockLang.Machine.Run
import BlockLang.Proofs.Code.Validity
import BlockLang.Proofs.Value.Errors
import BlockLang.Proofs.Value.Results

/-!
# Machines side by side

Two machines are compared while they run the same program: one with more operands than the other, or
one that keeps the code of blocks and one that does not. A machine beside itself shows what holds of it
throughout a run.

**A pairing** says what may differ. The operands of the second machine are those of the first on top of
some `rest`. Their worlds agree in all that programs can see; how their code is related is left to the
pairing. The comparison ends, and the first machine is lost, when an error is raised in it that the
pairing lets escape, or, if the pairing is watched, when it uses stale code. A pairing also says from
where units may be run; if it is strict, the code there has to be valid, and no error says otherwise.

**A lawful pairing** is one that the machine respects: whatever the machine does with code keeps it
related, and compiling the same block gives the same unit on both sides. `Pairing.Lawful` lists what has
to be shown of a pairing, and the modules that follow show the rest for all of them.
-/

namespace BlockLang

/-! ## Scopes and heaps -/

variable {A : CodeRef → Prop}

/-- The same bindings, to values with code in `A`, and the same arities. -/
structure Scope.Paired (A : CodeRef → Prop) (s s' : Scope) : Prop where
  bindings : s.bindings = s'.bindings
  arities : ∀ name, s.arities.get? name = s'.arities.get? name
  values : ∀ e ∈ s.bindings, e.2.CodesIn A

namespace Scope.Paired

variable {s s' t t' : Scope}

theorem value (h : s.Paired A s') {name : String} {v : Value} (hv : s.bindings.get? name = some v) :
    v.CodesIn A := h.values _ (NameTable.mem_of_get? hv)

theorem assign (h : s.Paired A s') (name : String) {v? : Option Value}
    (hv : ∀ v, v? = some v → v.CodesIn A) (arity? : Option Nat) :
    (s.assign name v? arity?).Paired A (s'.assign name v? arity?) := by
  refine ⟨by rw [Scope.assign, Scope.assign, h.bindings], fun other => ?_,
    NameTable.forall_put h.values hv⟩
  by_cases ho : other = name
  · subst ho
    simp [Scope.assign]
  · simp [Scope.assign, ho, h.arities]

theorem restoreName (h : s.Paired A s') (ht : t.Paired A t') (name : String) :
    (s.restoreName t name).Paired A (s'.restoreName t' name) := by
  rw [Scope.restoreName, Scope.restoreName, ← ht.bindings, ← ht.arities]
  exact h.assign name (fun _ => ht.value) _

theorem restoreNames (h : s.Paired A s') (ht : t.Paired A t') (names : List String) :
    (s.restoreNames t names).Paired A (s'.restoreNames t' names) := by
  induction names generalizing s s' with
  | nil => exact h
  | cons name names ih => exact ih (h.restoreName ht name)

theorem takeName (h : s.Paired A s') (ht : t.Paired A t') (name : String) :
    (s.takeName t name).Paired A (s'.takeName t' name) := by
  rw [Scope.takeName, Scope.takeName, ← ht.bindings, ← ht.arities]
  cases hv : t.bindings.get? name with
  | none => exact h
  | some v =>
    refine h.assign name (fun u hu => ?_) _
    cases hu
    exact ht.value hv

theorem takeNames (h : s.Paired A s') (ht : t.Paired A t') (names : List String) :
    (s.takeNames t names).Paired A (s'.takeNames t' names) := by
  induction names generalizing s s' with
  | nil => exact h
  | cons name names ih => exact ih (h.takeName ht name)

theorem scopeAfter (h : s.Paired A s') (ht : t.Paired A t') (o : BlockOptions) :
    (o.scopeAfter s t).Paired A (o.scopeAfter s' t') := by
  unfold BlockOptions.scopeAfter
  split
  · exact ht.restoreNames h o.params
  · exact h.takeNames ht o.exports

end Scope.Paired

/-- What the objects of a heap hold refers to code in `A` only. -/
structure Heap.CodesIn (A : CodeRef → Prop) (h : Heap) : Prop where
  entries : ∀ ref, ∀ e ∈ h.dictionary ref, e.2.CodesIn A
  functions : ∀ ref f c?, h.callable? ref = some (.user f c?) →
    f.main.CodesIn A ∧ ∀ e ∈ f.imports, e.2.CodesIn A

namespace Heap

variable {h h' : Heap} {ref : DictionaryRef} {key : String} {v : Value}

theorem CodesIn.part (hh : h.CodesIn A) {a b : Value} (ha : a.CodesIn A)
    (hv : Value.part h a b = .ok v) : v.CodesIn A :=
  Value.refersIn_of_part hv ha fun ref _ _ hk => hh.entries ref _ (NameTable.mem_of_get? hk)

theorem CodesIn.insertEntry (hh : h.CodesIn A) (hv : v.CodesIn A) :
    (h.insertEntry ref key v).CodesIn A := by
  refine ⟨fun other => ?_, hh.functions⟩
  rw [dictionary_insertEntry]
  split
  · exact NameTable.forall_insert (hh.entries ref) hv
  · exact hh.entries other

theorem Alike.insertEntry (hh : h.Alike h') :
    (h.insertEntry ref key v).Alike (h'.insertEntry ref key v) :=
  ⟨by rw [Heap.insertEntry, Heap.insertEntry, hh.dictionaries], hh.callables⟩

theorem CodesIn.addDictionary (hh : h.CodesIn A) {entries : NameTable Value}
    (he : ∀ e ∈ entries, e.2.CodesIn A) : (h.addDictionary entries).2.CodesIn A := by
  refine ⟨fun other => ?_, hh.functions⟩
  simp only [dictionary, Heap.addDictionary, Array.getElem?_push]
  split
  · exact he
  · exact hh.entries other

theorem Alike.addDictionary (hh : h.Alike h') (entries : NameTable Value) :
    (h.addDictionary entries).1 = (h'.addDictionary entries).1 ∧
      (h.addDictionary entries).2.Alike (h'.addDictionary entries).2 := by
  refine ⟨by rw [Heap.addDictionary, Heap.addDictionary, hh.dictionaries], ?_, hh.callables⟩
  rw [Heap.addDictionary, Heap.addDictionary, hh.dictionaries]

theorem Alike.size_callables (hh : h.Alike h') : h.callables.size = h'.callables.size := by
  simpa using congrArg Array.size hh.callables

theorem CodesIn.addCallable (hh : h.CodesIn A) {f : UserFunction} {c? : Option CodeRef}
    (hm : f.main.CodesIn A) (hi : ∀ e ∈ f.imports, e.2.CodesIn A) :
    (h.addCallable (.user f c?)).2.CodesIn A := by
  refine ⟨hh.entries, fun ref g d? hg => ?_⟩
  simp only [callable?, Heap.addCallable, Array.getElem?_push] at hg
  split at hg
  · cases hg
    exact ⟨hm, hi⟩
  · exact hh.functions ref g d? hg

theorem Alike.addUser (hh : h.Alike h') (f : UserFunction) :
    (h.addUser f).1 = (h'.addUser f).1 ∧ (h.addUser f).2.Alike (h'.addUser f).2 := by
  refine ⟨?_, hh.dictionaries, ?_⟩
  · simp only [Heap.addUser, addCallable, hh.size_callables]
  · simp only [Heap.addUser, addCallable, Array.map_push, hh.callables]

/-- Recording code changes neither which callable a function is nor what it holds. -/
theorem map_bare_setCompiled (ref : FunctionRef) (c : CodeRef) :
    (h.setCompiled ref c).callables.map Callable.bare = h.callables.map Callable.bare := by
  refine Array.ext_getElem? fun i => ?_
  simp only [setCompiled, Array.getElem?_map, Array.getElem?_modify]
  split
  · cases h.callables[i]? with
    | none => rfl
    | some callable => rcases callable with _ | ⟨f, _ | _⟩ <;> rfl
  · rfl

theorem Alike.setCompiled (hh : h.Alike h') (ref : FunctionRef) (c c' : CodeRef) :
    (h.setCompiled ref c).Alike (h'.setCompiled ref c') :=
  ⟨hh.dictionaries, by rw [map_bare_setCompiled, map_bare_setCompiled, hh.callables]⟩

theorem callable?_setCompiled (ref other : FunctionRef) (c : CodeRef) :
    (h.setCompiled ref c).callable? other =
      if other = ref then (h.callable? other).map fun
        | .user f none => .user f (some c)
        | callable => callable
      else h.callable? other := by
  obtain ⟨i⟩ := ref
  obtain ⟨j⟩ := other
  simp only [callable?, Heap.setCompiled, Array.getElem?_modify, FunctionRef.mk.injEq]
  by_cases hij : i = j
  · subst hij
    exact (if_pos rfl).trans (if_pos rfl).symm
  · rw [if_neg hij, if_neg (Ne.symm hij)]

theorem CodesIn.setCompiled (hh : h.CodesIn A) (ref : FunctionRef) (c : CodeRef) :
    (h.setCompiled ref c).CodesIn A := by
  refine ⟨hh.entries, fun other f d? hf => ?_⟩
  rw [callable?_setCompiled] at hf
  split at hf
  · obtain ⟨callable, hcall, hf⟩ := Option.map_eq_some_iff.1 hf
    split at hf
    · cases hf
      exact hh.functions other _ none hcall
    · subst hf
      exact hh.functions other f d? hcall
  · exact hh.functions other f d? hf

end Heap

/-! ## Pairings -/

/-- The constants of the unit refer to code in `A` only. -/
def CodeUnit.CodesIn (A : CodeRef → Prop) (u : CodeUnit) : Prop := ∀ v ∈ u.constants, v.CodesIn A

/-- What two runs are compared by. -/
structure Pairing where
  /-- The operands of the second machine below those of the first. -/
  rest : List Value := []
  /-- The code that values may refer to. -/
  known : CodeRef → Prop := fun _ => True
  /-- The units that may be run from an offset. -/
  runs : CodeUnit → Nat → Prop := fun u _ => u.CodesIn known
  /-- How the code of the two worlds is related. -/
  code : World → World → Prop
  /-- Which references stand for the same code, each in its world. -/
  link : World → World → CodeRef → CodeRef → Prop
  /-- The errors that end the comparison. -/
  escapes : RuntimeError → Prop := fun _ => False
  /-- Stale code ends the comparison. -/
  watched : Prop := False
  /-- Code is valid, and is not found invalid. -/
  strict : Prop := False

/-- The world has the same configuration, the same code, and keeps the same code. -/
structure World.SameCode (w v : World) : Prop where
  config : v.config = w.config
  units : v.heap.units = w.heap.units
  callables : v.heap.callables = w.heap.callables
  cache : v.cache = w.cache

namespace Pairing

variable {S : Pairing} {w w' v v' : World} {c c' : CodeRef} {u : CodeUnit} {pos : Nat}

/-- The error may be raised. -/
def Admits (S : Pairing) (e : RuntimeError) : Prop := S.strict → e.isInvalidBytecode = false

/-- Programs cannot tell the worlds apart. -/
structure Worlds (S : Pairing) (w w' : World) : Prop where
  scope : w.scope.Paired S.known w'.scope
  heap : w.heap.Alike w'.heap
  memo : w.memo = w'.memo
  objects : w.heap.CodesIn S.known
  results : ∀ e ∈ w.memo.entries, e.2.CodesIn S.known
  code : S.code w w'

/-- Compiling ended alike. -/
def Compiled (S : Pairing) (r q : Except Error CodeRef × World) : Prop :=
  S.Worlds r.2 q.2 ∧ SameAnswer (S.link r.2 q.2) r.1 q.1

/-- The instruction at the offset may be run, and the unit from there on. -/
structure Steps (S : Pairing) (u : CodeUnit) (pos : Nat) : Prop where
  constants : u.CodesIn S.known
  valid : S.strict → ∃ i, (decode u.code pos).instruction? = some i ∧ i.IsValid u.constants
  next : (decode u.code pos).instruction? ≠ some (.op .stop) → S.runs u (decode u.code pos).next
  jump {condition : Condition} {target : UInt16} :
    (decode u.code pos).instruction? = some (.jump condition target) → S.runs u target.toNat

/-- The machine respects the pairing. -/
structure Lawful (S : Pairing) : Prop where
  /-- Operands below are out of reach. -/
  short : S.rest = [] ∨
    S.escapes .stackUnderflow ∧ ∀ name arity found, S.escapes (.wrongArity name arity found)
  depth {w w' : World} : S.code w w' → w.config.maxDepth = w'.config.maxDepth ∨
    w.config.maxDepth ≤ w'.config.maxDepth ∧ ∀ limit, S.escapes (.stackOverflow limit)
  /-- Nothing but code matters to the relation of code. -/
  congr {w w' v v' : World} : S.code w w' → w.SameCode v → w'.SameCode v' → S.code v v'
  addUser {w w' : World} {f : UserFunction} : S.code w w' → w.heap.Alike w'.heap →
    f.main.CodesIn S.known → S.code (w.addUser f).2 (w'.addUser f).2
  step {u : CodeUnit} {pos : Nat} : S.runs u pos → S.Steps u pos
  unit {w w' : World} {c c' : CodeRef} : S.code w w' → S.link w w' c c' →
    w.heap.unit? c = w'.heap.unit? c' ∧ S.runs ((w.heap.unit? c).getD {}) 0
  known {w w' : World} {c : CodeRef} : S.code w w' → S.known c → S.link w w' c c
  compiled {w w' : World} {ref : FunctionRef} {f f' : UserFunction} {c? c'? : Option CodeRef} :
    S.code w w' → w.heap.callable? ref = some (.user f c?) →
    w'.heap.callable? ref = some (.user f' c'?) → Option.Rel (S.link w w') c? c'?
  compile {w w' : World} {items : List Value} (dynamic : Bool) : S.Worlds w w' →
    (∀ v ∈ items, v.CodesIn S.known) → ∃ q, S.Compiled (w.compile items dynamic) q ∧
      ((S.watched → w.CompilesAfresh items dynamic) → w'.compile items dynamic = q)
  setCompiled {w w' : World} {c c' : CodeRef} (ref : FunctionRef) : S.code w w' →
    S.link w w' c c' →
    S.code (w.setCompiled ref c) (w'.setCompiled ref c') ∧
      S.link (w.setCompiled ref c) (w'.setCompiled ref c') c c'

/-- Where only its constants decide whether a unit may be run, it may be run on from anywhere. -/
theorem steps_of_codesIn (hruns : S.runs = fun u _ => u.CodesIn S.known) (hstrict : ¬ S.strict)
    (hu : u.CodesIn S.known) : S.Steps u pos where
  constants := hu
  valid hs := absurd hs hstrict
  next _ := by rwa [hruns]
  jump _ := by rwa [hruns]

namespace Worlds

/-- A world is paired with itself, in whatever two configurations, if values may refer to any code. -/
theorem of_code (hknown : ∀ v : Value, v.CodesIn S.known) (w : World) {config config' : Config}
    (hc : S.code { w with config } { w with config := config' }) :
    S.Worlds { w with config } { w with config := config' } where
  scope := ⟨rfl, fun _ => rfl, fun e _ => hknown e.2⟩
  heap := .refl _
  memo := rfl
  objects := ⟨fun _ e _ => hknown e.2, fun _ f _ _ => ⟨hknown f.main, fun e _ => hknown e.2⟩⟩
  results e _ := hknown e.2
  code := hc

theorem alike (h : S.Worlds w w') : w.Alike w' := ⟨h.scope.bindings, h.scope.arities, h.heap⟩

theorem withScope (h : S.Worlds w w') (hS : S.Lawful) {s s' : Scope}
    (hs : s.Paired S.known s') : S.Worlds { w with scope := s } { w' with scope := s' } :=
  { h with
    scope := hs
    code := hS.congr h.code ⟨rfl, rfl, rfl, rfl⟩ ⟨rfl, rfl, rfl, rfl⟩ }

theorem withNames (h : S.Worlds w w') (hS : S.Lawful) (names names' : List String) :
    S.Worlds { w with names } { w' with names := names' } :=
  { h with code := hS.congr h.code ⟨rfl, rfl, rfl, rfl⟩ ⟨rfl, rfl, rfl, rfl⟩ }

theorem impliedArity? (h : S.Worlds w w') (v : Value) : w.impliedArity? v = w'.impliedArity? v := by
  cases v with
  | function ref => exact congrArg some (h.heap.arity ref)
  | _ => rfl

theorem set (h : S.Worlds w w') (hS : S.Lawful) (name : String) {v : Value}
    (hv : v.CodesIn S.known) : S.Worlds (w.set name v) (w'.set name v) := by
  unfold World.set
  rw [h.impliedArity?]
  refine h.withScope hS (h.scope.assign name (fun u hu => ?_) _)
  cases hu
  exact hv

theorem setAll (h : S.Worlds w w') (hS : S.Lawful) {bindings : List (String × Value)}
    (hb : ∀ e ∈ bindings, e.2.CodesIn S.known) :
    S.Worlds (bindings.foldl (fun w (name, v) => w.set name v) w)
      (bindings.foldl (fun w (name, v) => w.set name v) w') := by
  induction bindings generalizing w w' with
  | nil => exact h
  | cons e bindings ih =>
    obtain ⟨he, hb⟩ := List.forall_mem_cons.1 hb
    exact ih (h.set hS e.1 he) hb

theorem withMemo (h : S.Worlds w w') (hS : S.Lawful) {memo : Memo MemoKey Value}
    (hm : ∀ e ∈ memo.entries, e.2.CodesIn S.known) :
    S.Worlds { w with memo } { w' with memo } :=
  { h with
    memo := rfl
    results := hm
    code := hS.congr h.code ⟨rfl, rfl, rfl, rfl⟩ ⟨rfl, rfl, rfl, rfl⟩ }

theorem insertEntry (h : S.Worlds w w') (hS : S.Lawful) (ref : DictionaryRef) (key : String)
    {v : Value} (hv : v.CodesIn S.known) :
    S.Worlds { w with heap := w.heap.insertEntry ref key v }
      { w' with heap := w'.heap.insertEntry ref key v } :=
  { h with
    heap := h.heap.insertEntry
    objects := h.objects.insertEntry hv
    code := hS.congr h.code ⟨rfl, rfl, rfl, rfl⟩ ⟨rfl, rfl, rfl, rfl⟩ }

theorem addDictionary (h : S.Worlds w w') (hS : S.Lawful) {entries : NameTable Value}
    (he : ∀ e ∈ entries, e.2.CodesIn S.known) :
    S.Worlds (w.addDictionary entries).2 (w'.addDictionary entries).2 ∧
      (w.addDictionary entries).1 = (w'.addDictionary entries).1 :=
  ⟨{ h with
      heap := (h.heap.addDictionary entries).2
      objects := h.objects.addDictionary he
      code := hS.congr h.code ⟨rfl, rfl, rfl, rfl⟩ ⟨rfl, rfl, rfl, rfl⟩ },
    congrArg Value.dictionary (h.heap.addDictionary entries).1⟩

theorem addUser (h : S.Worlds w w') (hS : S.Lawful) {f : UserFunction}
    (hm : f.main.CodesIn S.known) (hi : ∀ e ∈ f.imports, e.2.CodesIn S.known) :
    S.Worlds (w.addUser f).2 (w'.addUser f).2 ∧ (w.addUser f).1 = (w'.addUser f).1 :=
  ⟨{ h with
      heap := (h.heap.addUser f).2
      objects := h.objects.addCallable hm hi
      code := hS.addUser h.code h.heap hm },
    congrArg Value.function (h.heap.addUser f).1⟩

theorem setCompiled (h : S.Worlds w w') (hS : S.Lawful) (ref : FunctionRef)
    (hc : S.link w w' c c') : S.Worlds (w.setCompiled ref c) (w'.setCompiled ref c') :=
  { h with
    heap := h.heap.setCompiled ref c c'
    objects := h.objects.setCompiled ref c
    code := (hS.setCompiled ref h.code hc).1 }

theorem read (h : S.Worlds w w') (hS : S.Lawful) (source : String) :
    S.Worlds (w.read source).2 (w'.read source).2 := by
  obtain ⟨names, hn⟩ := World.learnAll_eq w (namesRead source)
  obtain ⟨names', hn'⟩ := World.learnAll_eq w' (namesRead source)
  simp only [World.read, hn, hn']
  exact h.withNames hS names names'

end Worlds

/-! ## Machines -/

/-- The machines are in the same state but for the operands below, and for code. -/
structure Machines (S : Pairing) (m n : Machine) : Prop where
  world : S.Worlds m.world n.world
  stack : n.stack = m.stack ++ S.rest
  operands : ∀ v ∈ m.stack, v.CodesIn S.known
  attrs : m.attrs = n.attrs
  given : ∀ e ∈ m.attrs, e.2.CodesIn S.known
  output : m.output = n.output
  depth : m.depth = n.depth
  tryDepth : m.tryDepth = n.tryDepth
  history : ∀ e ∈ m.raised, S.Admits e

/-- Something has happened that the comparison does not cover. -/
def Lost (S : Pairing) (m : Machine) : Prop :=
  (∃ e ∈ m.raised, S.escapes e) ∨ S.watched ∧ ¬ m.fresh

theorem not_lost (hw : ¬ S.watched) {m : Machine} (h : ∀ e ∈ m.raised, ¬ S.escapes e) :
    ¬ S.Lost m := by
  rintro (⟨e, he, hs⟩ | ⟨hwatched, -⟩)
  · exact h e he hs
  · exact hw hwatched

/-- The machine may halt so. -/
def Halts (S : Pairing) : Halt → Prop
  | .error (.runtime e) => S.Admits e
  | _ => True

/-- How the machines are compared. -/
def coupling (S : Pairing) : Coupling Halt Machine Machine where
  alike := S.Machines
  lost := S.Lost
  halts := S.Halts

end Pairing

end BlockLang
