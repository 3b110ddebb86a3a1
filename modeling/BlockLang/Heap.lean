import BlockLang.Builtin
import BlockLang.NameTable

/-!
# Shared objects

What references stand for. Dictionaries are changed in place, so everyone who holds a reference sees
the change; functions and units of code never change, except that the body of a user function is
compiled when it is first called. Nothing is ever removed.
-/

namespace BlockLang

/-- A compiled unit: its constants, each once, and the bytes of its instructions. -/
structure CodeUnit where
  constants : Array Value := #[]
  code : Array UInt8 := #[]
deriving Inhabited

/-- A function written in the language. -/
structure UserFunction where
  params : List String
  /-- The body: a block, or code already compiled. -/
  main : Value
  /-- Bindings captured when the function was made. -/
  imports : List (String × Value) := []
  /-- Names whose bindings outlive a call. -/
  exports : List String := []
  /-- Every binding but the parameters outlives a call. -/
  exportable : Bool := false
  /-- Results are kept and reused. -/
  memoize : Bool := false
deriving Inhabited

/-- Something that can be called. -/
inductive Callable where
  | builtin (b : Builtin)
  | user (f : UserFunction) (compiled? : Option CodeRef)
deriving Inhabited

namespace Callable

def arity : Callable → Nat
  | builtin b => b.arity
  | user f _ => f.params.length

def builtin? : Callable → Option Builtin
  | builtin b => some b
  | user .. => none

/-- A callable in messages. -/
def description : Callable → String
  | builtin b => b.name
  | user f _ => s!"function/{f.params.length}"

end Callable

/-- The objects behind all references. -/
structure Heap where
  dictionaries : Array (NameTable Value) := #[]
  callables : Array Callable := #[]
  units : Array CodeUnit := #[]
deriving Inhabited

namespace Heap

/-! ## Looking up -/

/-- The entries of a dictionary, in order of arrival. -/
def dictionary (h : Heap) (ref : DictionaryRef) : NameTable Value :=
  h.dictionaries[ref.index]?.getD []

def callable? (h : Heap) (ref : FunctionRef) : Option Callable := h.callables[ref.index]?

def unit? (h : Heap) (ref : CodeRef) : Option CodeUnit := h.units[ref.index]?

/-- The arity of a function. -/
def arity (h : Heap) (ref : FunctionRef) : Nat := ((h.callable? ref).map Callable.arity).getD 0

/-! ## Changing -/

def addDictionary (h : Heap) (entries : NameTable Value) : DictionaryRef × Heap :=
  (⟨h.dictionaries.size⟩, { h with dictionaries := h.dictionaries.push entries })

def addUnit (h : Heap) (unit : CodeUnit) : CodeRef × Heap :=
  (⟨h.units.size⟩, { h with units := h.units.push unit })

def addCallable (h : Heap) (c : Callable) : FunctionRef × Heap :=
  (⟨h.callables.size⟩, { h with callables := h.callables.push c })

def addBuiltin (h : Heap) (b : Builtin) : FunctionRef × Heap := h.addCallable (.builtin b)

/-- Adds a user function. A body that is code already counts as compiled. -/
def addUser (h : Heap) (f : UserFunction) : FunctionRef × Heap :=
  let compiled? := match f.main with
    | .bytecode ref => some ref
    | _ => none
  h.addCallable (.user f compiled?)

/-- Gives a key of a dictionary a value. -/
def insertEntry (h : Heap) (ref : DictionaryRef) (key : String) (value : Value) : Heap :=
  { h with dictionaries := h.dictionaries.modify ref.index (·.insert key value) }

theorem dictionary_insertEntry (h : Heap) (ref : DictionaryRef) (key : String) (value : Value)
    (other : DictionaryRef) :
    (h.insertEntry ref key value).dictionary other =
      if other = ref ∧ ref.index < h.dictionaries.size then (h.dictionary ref).insert key value
      else h.dictionary other := by
  obtain ⟨i⟩ := ref
  obtain ⟨j⟩ := other
  simp only [dictionary, insertEntry, Array.getElem?_modify, DictionaryRef.mk.injEq]
  by_cases hij : i = j
  · subst hij
    by_cases hi : i < h.dictionaries.size
    · simp [hi]
    · simp [hi]
  · simp [hij, Ne.symm hij]

/-- Records the code of a user function's body, unless it has some already. -/
def setCompiled (h : Heap) (ref : FunctionRef) (code : CodeRef) : Heap :=
  { h with callables := h.callables.modify ref.index fun
      | .user f none => .user f (some code)
      | c => c }

end Heap

theorem exists_callable?_addUser (h : Heap) (f : UserFunction) :
    ∃ c?, (h.addUser f).2.callable? (h.addUser f).1 = some (.user f c?) :=
  ⟨_, Array.getElem?_push_size⟩

end BlockLang
