import BlockLang.Proofs.Code.Repeating
import BlockLang.Proofs.Machine.Pairing
import BlockLang.Proofs.Machine.Pieces

/-!
# Machines that keep different results

Two machines *resemble* each other if they differ only in which functions are marked as memoized, in the
results that they keep, in the names that they have seen, and in what is remembered of their history.

Whatever changes a world changes two such worlds alike. Compiling is the one change that looks at much: it
gives the same code because building reads nothing of a function but its shape (`Heap.SameShape`).
-/

namespace BlockLang

open Exec

/-! ## Heaps and worlds -/

/-- The function without its mark. -/
def UserFunction.unmarked (f : UserFunction) : UserFunction := { f with memoize := false }

/-- A callable without its mark. -/
def Callable.unmarked : Callable → Callable
  | .builtin b => .builtin b
  | .user f compiled? => .user f.unmarked compiled?

@[simp] theorem Callable.shape_unmarked (c : Callable) : c.unmarked.shape = c.shape := by
  cases c <;> rfl

/-- One callable is the other one, perhaps with another mark. -/
inductive Callable.SameButMark : Callable → Callable → Prop
  | builtin (b : Builtin) : SameButMark (.builtin b) (.builtin b)
  | user (f : UserFunction) (memoize : Bool) (compiled? : Option CodeRef) :
    SameButMark (.user f compiled?) (.user { f with memoize } compiled?)

theorem Callable.sameButMark_of_unmarked {c c' : Callable} (h : c.unmarked = c'.unmarked) :
    c.SameButMark c' := by
  cases c with
  | builtin b =>
    cases c' with
    | builtin b' =>
      cases h
      exact .builtin b
    | user f' compiled? => cases h
  | user f compiled? =>
    cases c' with
    | builtin b' => cases h
    | user f' compiled'? =>
      obtain ⟨hf, rfl⟩ := Callable.user.inj h
      have hf' : f' = { f with memoize := f'.memoize } :=
        congrArg (fun g : UserFunction => { g with memoize := f'.memoize }) hf.symm
      rw [hf']
      exact .user f f'.memoize compiled?

/-- The same objects, marks aside. -/
structure Heap.SameButMarks (h h' : Heap) : Prop where
  dictionaries : h.dictionaries = h'.dictionaries
  callables : h.callables.map Callable.unmarked = h'.callables.map Callable.unmarked
  units : h.units = h'.units

namespace Heap.SameButMarks

variable {h h' h'' : Heap}

protected theorem refl (h : Heap) : h.SameButMarks h := ⟨rfl, rfl, rfl⟩

protected theorem symm (hh : h.SameButMarks h') : h'.SameButMarks h :=
  ⟨hh.dictionaries.symm, hh.callables.symm, hh.units.symm⟩

protected theorem trans (hh : h.SameButMarks h') (hh' : h'.SameButMarks h'') : h.SameButMarks h'' :=
  ⟨hh.dictionaries.trans hh'.dictionaries, hh.callables.trans hh'.callables,
    hh.units.trans hh'.units⟩

theorem dictionary (hh : h.SameButMarks h') (ref : DictionaryRef) :
    h.dictionary ref = h'.dictionary ref := by
  rw [Heap.dictionary, Heap.dictionary, hh.dictionaries]

theorem unit? (hh : h.SameButMarks h') : h.unit? = h'.unit? := by
  funext c
  rw [Heap.unit?, Heap.unit?, hh.units]

theorem callable? (hh : h.SameButMarks h') (ref : FunctionRef) :
    (h.callable? ref).map Callable.unmarked = (h'.callable? ref).map Callable.unmarked := by
  have := congrArg (·[ref.index]?) hh.callables
  simp only [Array.getElem?_map] at this
  exact this

/-- At every place there is the same callable, marks aside. -/
theorem related (hh : h.SameButMarks h') (ref : FunctionRef) :
    Option.Rel Callable.SameButMark (h.callable? ref) (h'.callable? ref) := by
  have hc := hh.callable? ref
  revert hc
  rcases h.callable? ref with _ | c <;> rcases h'.callable? ref with _ | c' <;> intro hc
  · exact .none
  · cases hc
  · cases hc
  · exact .some (Callable.sameButMark_of_unmarked (Option.some.inj hc))

theorem sameShape (hh : h.SameButMarks h') : h.SameShape h' := by
  refine ⟨hh.dictionaries, ?_⟩
  have := congrArg (·.map Callable.shape) hh.callables
  simpa [Array.map_map, Function.comp_def] using this

theorem size_callables (hh : h.SameButMarks h') : h.callables.size = h'.callables.size := by
  simpa using congrArg Array.size hh.callables

theorem insertEntry (hh : h.SameButMarks h') (ref : DictionaryRef) (key : String) (v : Value) :
    (h.insertEntry ref key v).SameButMarks (h'.insertEntry ref key v) :=
  ⟨by rw [Heap.insertEntry, Heap.insertEntry, hh.dictionaries], hh.callables, hh.units⟩

theorem addDictionary (hh : h.SameButMarks h') (entries : NameTable Value) :
    (h.addDictionary entries).1 = (h'.addDictionary entries).1 ∧
      (h.addDictionary entries).2.SameButMarks (h'.addDictionary entries).2 := by
  refine ⟨by rw [Heap.addDictionary, Heap.addDictionary, hh.dictionaries], ?_, hh.callables, hh.units⟩
  rw [Heap.addDictionary, Heap.addDictionary, hh.dictionaries]

theorem addCallable (hh : h.SameButMarks h') {c c' : Callable} (hc : c.unmarked = c'.unmarked) :
    (h.addCallable c).1 = (h'.addCallable c').1 ∧
      (h.addCallable c).2.SameButMarks (h'.addCallable c').2 := by
  refine ⟨?_, hh.dictionaries, ?_, hh.units⟩
  · simp only [Heap.addCallable, hh.size_callables]
  · simp only [Heap.addCallable, Array.map_push, hh.callables, hc]

theorem addBuiltin (hh : h.SameButMarks h') (b : Builtin) :
    (h.addBuiltin b).1 = (h'.addBuiltin b).1 ∧
      (h.addBuiltin b).2.SameButMarks (h'.addBuiltin b).2 := hh.addCallable rfl

theorem addUser (hh : h.SameButMarks h') {f f' : UserFunction} (hf : f.unmarked = f'.unmarked) :
    (h.addUser f).1 = (h'.addUser f').1 ∧ (h.addUser f).2.SameButMarks (h'.addUser f').2 := by
  have hmain : f.main = f'.main := (congrArg UserFunction.main hf :)
  rw [Heap.addUser, Heap.addUser, hmain]
  exact hh.addCallable (by rw [Callable.unmarked, Callable.unmarked, hf])

theorem addUnit (hh : h.SameButMarks h') (u : CodeUnit) :
    (h.addUnit u).1 = (h'.addUnit u).1 ∧ (h.addUnit u).2.SameButMarks (h'.addUnit u).2 := by
  refine ⟨by rw [Heap.addUnit, Heap.addUnit, hh.units], hh.dictionaries, hh.callables, ?_⟩
  rw [Heap.addUnit, Heap.addUnit, hh.units]

theorem setCompiled (hh : h.SameButMarks h') (ref : FunctionRef) (c : CodeRef) :
    (h.setCompiled ref c).SameButMarks (h'.setCompiled ref c) := by
  refine ⟨hh.dictionaries, ?_, hh.units⟩
  refine Array.ext_getElem? fun i => ?_
  have hi := hh.callable? ⟨i⟩
  simp only [Heap.callable?] at hi
  simp only [Heap.setCompiled, Array.getElem?_map, Array.getElem?_modify]
  split
  · revert hi
    rcases h.callables[i]? with _ | _ | ⟨f, _ | _⟩ <;>
      rcases h'.callables[i]? with _ | _ | ⟨f', _ | _⟩ <;> simp [Callable.unmarked]
  · exact hi

end Heap.SameButMarks

/-- The configurations differ in how many results are kept at most. -/
structure Config.SameButCapacity (c c' : Config) : Prop where
  cacheUnits : c.cacheUnits = c'.cacheUnits
  maxDepth : c.maxDepth = c'.maxDepth

/-- Worlds that differ in marks, in the results that they keep, and in the names that were seen. -/
structure World.SameButResults (w w' : World) : Prop where
  config : w.config.SameButCapacity w'.config
  scope : w.scope.Paired (fun _ => True) w'.scope
  heap : w.heap.SameButMarks w'.heap
  cache : w.cache = w'.cache

theorem Scope.Paired.of_eq {s s' : Scope} (hb : s.bindings = s'.bindings)
    (ha : ∀ name, s.arities.get? name = s'.arities.get? name) : s.Paired (fun _ => True) s' :=
  ⟨hb, ha, fun e _ => e.2.codesIn_true⟩

namespace World.SameButResults

variable {w w' w'' : World}

protected theorem refl (w : World) : w.SameButResults w :=
  ⟨⟨rfl, rfl⟩, .of_eq rfl fun _ => rfl, .refl _, rfl⟩

protected theorem symm (h : w.SameButResults w') : w'.SameButResults w :=
  ⟨⟨h.config.cacheUnits.symm, h.config.maxDepth.symm⟩,
    .of_eq h.scope.bindings.symm fun name => (h.scope.arities name).symm, h.heap.symm, h.cache.symm⟩

protected theorem trans (h : w.SameButResults w') (h' : w'.SameButResults w'') :
    w.SameButResults w'' :=
  ⟨⟨h.config.cacheUnits.trans h'.config.cacheUnits, h.config.maxDepth.trans h'.config.maxDepth⟩,
    .of_eq (h.scope.bindings.trans h'.scope.bindings)
      fun name => (h.scope.arities name).trans (h'.scope.arities name),
    h.heap.trans h'.heap, h.cache.trans h'.cache⟩

theorem get? (h : w.SameButResults w') (name : String) : w.get? name = w'.get? name := by
  rw [World.get?, World.get?, h.scope.bindings]

theorem undefined (h : w.SameButResults w') (name : String) : w.undefined name = w'.undefined name := by
  rw [World.undefined, World.undefined, h.scope.bindings]

theorem withScope (h : w.SameButResults w') {s s' : Scope} (hs : s.Paired (fun _ => True) s') :
    SameButResults { w with scope := s } { w' with scope := s' } := { h with scope := hs }

theorem impliedArity? (h : w.SameButResults w') (v : Value) :
    w.impliedArity? v = w'.impliedArity? v := by
  cases v with
  | function ref => exact congrArg some (h.heap.sameShape.arity ref)
  | _ => rfl

theorem set (h : w.SameButResults w') (name : String) (v : Value) :
    (w.set name v).SameButResults (w'.set name v) := by
  unfold World.set
  rw [h.impliedArity?]
  exact h.withScope (h.scope.assign name (fun u _ => u.codesIn_true) _)

theorem setAll (h : w.SameButResults w') (bindings : List (String × Value)) :
    (bindings.foldl (fun w (name, v) => w.set name v) w).SameButResults
      (bindings.foldl (fun w (name, v) => w.set name v) w') := by
  induction bindings generalizing w w' with
  | nil => exact h
  | cons e bindings ih => exact ih (h.set e.1 e.2)

theorem addDictionary (h : w.SameButResults w') (entries : NameTable Value) :
    (w.addDictionary entries).1 = (w'.addDictionary entries).1 ∧
      (w.addDictionary entries).2.SameButResults (w'.addDictionary entries).2 :=
  ⟨congrArg Value.dictionary (h.heap.addDictionary entries).1,
    { h with heap := (h.heap.addDictionary entries).2 }⟩

theorem addUser (h : w.SameButResults w') {f f' : UserFunction} (hf : f.unmarked = f'.unmarked) :
    (w.addUser f).1 = (w'.addUser f').1 ∧ (w.addUser f).2.SameButResults (w'.addUser f').2 :=
  ⟨congrArg Value.function (h.heap.addUser hf).1, { h with heap := (h.heap.addUser hf).2 }⟩

theorem install (h : w.SameButResults w') (b : Builtin) : (w.install b).SameButResults (w'.install b) := by
  obtain ⟨names, hn⟩ := World.learnAll_eq w [b.name]
  obtain ⟨names', hn'⟩ := World.learnAll_eq w' [b.name]
  have hlearn : w.learn b.name = { w with names } := hn
  have hlearn' : w'.learn b.name = { w' with names := names' } := hn'
  obtain ⟨hv, hheap⟩ := h.heap.addBuiltin b
  have hadded : SameButResults { w with names, heap := (w.heap.addBuiltin b).2 }
      { w' with names := names', heap := (w'.heap.addBuiltin b).2 } := { h with heap := hheap }
  have hset := hadded.set b.name (.function (w.heap.addBuiltin b).1)
  have hw' : (w'.install b) = ({ w' with names := names', heap := (w'.heap.addBuiltin b).2 } : World).set
      b.name (.function (w.heap.addBuiltin b).1) := by
    rw [World.install, hlearn', hv]
    rfl
  rw [hw', World.install, hlearn]
  exact hset

theorem addUnit (h : w.SameButResults w') (u : CodeUnit) :
    (w.addUnit u).1 = (w'.addUnit u).1 ∧ (w.addUnit u).2.SameButResults (w'.addUnit u).2 :=
  ⟨(h.heap.addUnit u).1, { h with heap := (h.heap.addUnit u).2 }⟩

theorem setCompiled (h : w.SameButResults w') (ref : FunctionRef) (c : CodeRef) :
    (w.setCompiled ref c).SameButResults (w'.setCompiled ref c) :=
  { h with heap := h.heap.setCompiled ref c }

theorem withNames (h : w.SameButResults w') (names names' : List String) :
    SameButResults { w with names } { w' with names := names' } := { h with }

theorem withMemo (h : w.SameButResults w') (memo memo' : Memo MemoKey Value) :
    SameButResults { w with memo } { w' with memo := memo' } := { h with }

theorem read (h : w.SameButResults w') (source : String) :
    (w.read source).1 = (w'.read source).1 ∧ (w.read source).2.SameButResults (w'.read source).2 := by
  obtain ⟨names, hn⟩ := World.learnAll_eq w (namesRead source)
  obtain ⟨names', hn'⟩ := World.learnAll_eq w' (namesRead source)
  simp only [World.read, hn, hn']
  exact ⟨trivial, h.withNames names names'⟩

theorem entriesOf (h : w.SameButResults w') (names : List String) :
    entriesOf w names = entriesOf w' names := by
  simp only [Exec.entriesOf, h.get?]

/-! ### Compiling -/

theorem alikeFor (h : w.SameButResults w') (items : List Value) :
    World.AlikeFor True items w w' :=
  ⟨h.scope.bindings, h.heap.sameShape, fun name _ => h.scope.arities name⟩

/-- Building gives the same trees, and leaves the worlds as it found them but for arities. -/
theorem callTrees (h : w.SameButResults w') (items : List Value) :
    (w.callTrees items).1 = (w'.callTrees items).1 ∧
      (w.callTrees items).2.SameButResults (w'.callTrees items).2 := by
  have ht := World.together_callTrees (h.alikeFor items)
  have hb := World.rebuilt_callTrees w items
  have hb' := World.rebuilt_callTrees w' items
  have hafter {v v' : World} (hv : w.Rebuilt v) (hv' : w'.Rebuilt v')
      (ha : World.AlikeFor True [] v v') : v.SameButResults v' := by
    obtain ⟨arities, names, rfl⟩ := hv
    obtain ⟨arities', names', rfl⟩ := hv'
    exact ⟨h.config, .of_eq ha.bindings fun name => ha.arity? name (.inl trivial), h.heap, h.cache⟩
  revert ht hb hb'
  rcases w.callTrees items with ⟨e | trees, v⟩ <;>
    rcases w'.callTrees items with ⟨e' | trees', v'⟩ <;> intro ht hb hb'
  · exact ⟨congrArg Except.error ht.1, hafter hb hb' ht.2⟩
  · exact ht.elim
  · exact ht.elim
  · exact ⟨congrArg Except.ok ht.1, hafter hb hb' ht.2.2.alike⟩

theorem compileNew (h : w.SameButResults w') (items : List Value) :
    (w.compileNew items).1 = (w'.compileNew items).1 ∧
      (w.compileNew items).2.SameButResults (w'.compileNew items).2 := by
  have ht := h.callTrees items
  unfold World.compileNew
  revert ht
  rcases w.callTrees items with ⟨answer, v⟩
  rcases w'.callTrees items with ⟨answer', v'⟩
  rintro ⟨rfl, hv⟩
  cases answer with
  | error e => exact ⟨rfl, hv⟩
  | ok trees =>
    dsimp only
    cases CodeUnit.ofCalls trees with
    | error e => exact ⟨rfl, hv⟩
    | ok u =>
      obtain ⟨hc, hu⟩ := hv.addUnit u
      exact ⟨congrArg Except.ok hc, hu⟩

/-- **The same code is found or compiled.** -/
theorem compile (h : w.SameButResults w') (items : List Value) (dynamic : Bool) :
    (w.compile items dynamic).1 = (w'.compile items dynamic).1 ∧
      (w.compile items dynamic).2.SameButResults (w'.compile items dynamic).2 := by
  have hnew := h.compileNew items
  have hcached : w.cached? items = w'.cached? items := by rw [World.cached?, World.cached?, h.cache]
  unfold World.compile
  rw [← h.config.cacheUnits, ← hcached]
  cases w.config.cacheUnits && !dynamic with
  | false => exact hnew
  | true =>
    rw [if_pos rfl, if_pos rfl]
    cases w.cached? items with
    | some c => exact ⟨rfl, h⟩
    | none =>
      revert hnew
      rcases w.compileNew items with ⟨answer, v⟩
      rcases w'.compileNew items with ⟨answer', v'⟩
      rintro ⟨rfl, hv⟩
      cases answer with
      | error e => exact ⟨rfl, hv⟩
      | ok c => exact ⟨rfl, { hv with cache := congrArg ((items, c) :: ·) hv.cache }⟩

end World.SameButResults

/-! ## Machines -/

/-- The machines differ in marks, in the results that they keep, and in their history at most. -/
structure Machine.Resembles (m n : Machine) : Prop where
  world : m.world.SameButResults n.world
  stack : m.stack = n.stack
  attrs : m.attrs = n.attrs
  output : m.output = n.output
  depth : m.depth = n.depth
  tryDepth : m.tryDepth = n.tryDepth

namespace Machine.Resembles

variable {m n l : Machine}

protected theorem refl (m : Machine) : m.Resembles m := ⟨.refl _, rfl, rfl, rfl, rfl, rfl⟩

protected theorem symm (h : m.Resembles n) : n.Resembles m :=
  ⟨h.world.symm, h.stack.symm, h.attrs.symm, h.output.symm, h.depth.symm, h.tryDepth.symm⟩

protected theorem trans (h : m.Resembles n) (h' : n.Resembles l) : m.Resembles l :=
  ⟨h.world.trans h'.world, h.stack.trans h'.stack, h.attrs.trans h'.attrs, h.output.trans h'.output,
    h.depth.trans h'.depth, h.tryDepth.trans h'.tryDepth⟩

end Machine.Resembles

/-- How many results a machine may keep makes no difference before its first run. -/
theorem Machine.resembles_initial {config config' : Config} (h : config.SameButCapacity config') :
    (Machine.initial config).Resembles (Machine.initial config') := by
  have hinstall (l : List Builtin) {w w' : World} (hw : w.SameButResults w') :
      (l.foldl World.install w).SameButResults (l.foldl World.install w') := by
    induction l generalizing w w' with
    | nil => exact hw
    | cons b l ih => exact ih (hw.install b)
  refine ⟨hinstall Builtin.all ⟨h, .of_eq rfl fun _ => rfl, .refl _, rfl⟩, rfl, rfl, rfl, rfl, rfl⟩

/-- The table keeps nothing, now or later. -/
def Memo.IsClosed {κ α : Type} (memo : Memo κ α) : Prop := memo.capacity = 0 ∧ memo.entries = []

namespace Memo.IsClosed

variable {κ α : Type} [DecidableEq κ] {memo : Memo κ α}

theorem find? (h : memo.IsClosed) (key : κ) : memo.find? key = none := by
  rw [Memo.find?, h.2]
  rfl

theorem insert (h : memo.IsClosed) (key : κ) (v : α) : memo.insert key v = memo := by
  rw [Memo.insert, if_pos h.1]

theorem get? (h : memo.IsClosed) (key : κ) : memo.get? key = (none, memo) := by
  rw [Memo.get?, h.find? key]

end Memo.IsClosed

end BlockLang
