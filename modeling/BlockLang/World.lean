import BlockLang.Memo
import BlockLang.Reading
import BlockLang.Text.Distance
import BlockLang.Value.Fingerprint

/-!
# Worlds

Everything that a program can see and change apart from its operands: the bindings of names, the
arities that calls are built by, shared objects, results kept for memoized functions, and units of
code kept for blocks already compiled.

**Scopes.** Bindings and arities form a `Scope`, which is saved when a call begins and put back, as a
whole or name by name, when it ends. `World.set` keeps the two tables in step; the builder of call
trees also writes arities ahead of the bindings they belong to.
-/

namespace BlockLang

/-- The limits of a world. -/
structure Config where
  /-- Blocks written in source are compiled once. -/
  cacheUnits : Bool := true
  /-- How many results are kept for memoized functions. -/
  memoCapacity : Nat := 4096
  /-- How deep blocks and calls may nest. -/
  maxDepth : Nat := 256
deriving DecidableEq, Repr

/-- What names are bound to, and the arities of the names that can be called. -/
structure Scope where
  bindings : NameTable Value := []
  arities : NameTable Nat := []

namespace Scope

/-- Gives a name a binding and an arity, or takes either away. -/
def assign (s : Scope) (name : String) (value? : Option Value) (arity? : Option Nat) : Scope where
  bindings := s.bindings.put name value?
  arities := s.arities.put name arity?

/-- Puts a name back to what it was in another scope. -/
def restoreName (s saved : Scope) (name : String) : Scope :=
  s.assign name (saved.bindings.get? name) (saved.arities.get? name)

/-- Puts names back to what they were in another scope. -/
def restoreNames (s saved : Scope) (names : List String) : Scope :=
  names.foldl (restoreName · saved) s

/-- Takes over a name from another scope, if it is bound there. -/
def takeName (s source : Scope) (name : String) : Scope :=
  match source.bindings.get? name with
  | some value => s.assign name (some value) (source.arities.get? name)
  | none => s

/-- Takes over those of the names that are bound in another scope. -/
def takeNames (s source : Scope) (names : List String) : Scope :=
  names.foldl (takeName · source) s

end Scope

/-- The key of a memoized result: the function, and the fingerprint of the arguments. -/
abbrev MemoKey := FunctionRef × List Mark

/-- The state that programs share. -/
structure World where
  config : Config
  scope : Scope := {}
  heap : Heap := {}
  /-- Every name that was ever seen. -/
  names : List String := []
  memo : Memo MemoKey Value
  /-- Code kept for blocks, latest first. -/
  cache : List (List Value × CodeRef) := []

namespace World

/-! ## Names and bindings -/

/-- Records that a name was seen. -/
def learn (w : World) (name : String) : World :=
  if w.names.contains name then w else { w with names := name :: w.names }

def learnAll (w : World) (names : List String) : World := names.foldl learn w

def get? (w : World) (name : String) : Option Value := w.scope.bindings.get? name

/-- The number of operands that a call of the name waits for; `none` if it is not called. -/
def arity? (w : World) (name : String) : Option Nat := w.scope.arities.get? name

/-- The arity that a value gives to the name it is bound to. -/
def impliedArity? (w : World) : Value → Option Nat
  | .function ref => some (w.heap.arity ref)
  | _ => none

/-- Binds a name. -/
def set (w : World) (name : String) (value : Value) : World :=
  { w with scope := w.scope.assign name (some value) (w.impliedArity? value) }

/-- Unbinds a name. -/
def unset (w : World) (name : String) : World :=
  { w with scope := w.scope.assign name none none }

/-- Lets a name be called with the given number of operands, whatever it is bound to. -/
def declareArity (w : World) (name : String) (arity : Nat) : World :=
  { w with scope.arities := w.scope.arities.insert name arity }

/-- Keeps a name from being called, whatever it is bound to. -/
def forgetArity (w : World) (name : String) : World :=
  { w with scope.arities := w.scope.arities.erase name }

/-- The error for a name without a binding. -/
def undefined (w : World) (name : String) : RuntimeError :=
  .undefinedSymbol name (Text.nearest name w.scope.bindings.names)

/-! ## Shared objects -/

def addDictionary (w : World) (entries : NameTable Value) : Value × World :=
  let (ref, heap) := w.heap.addDictionary entries
  (.dictionary ref, { w with heap })

def addBuiltin (w : World) (b : Builtin) : Value × World :=
  let (ref, heap) := w.heap.addBuiltin b
  (.function ref, { w with heap })

def addUser (w : World) (f : UserFunction) : Value × World :=
  let (ref, heap) := w.heap.addUser f
  (.function ref, { w with heap })

def addUnit (w : World) (unit : CodeUnit) : CodeRef × World :=
  let (ref, heap) := w.heap.addUnit unit
  (ref, { w with heap })

/-- Records the code of a user function's body. -/
def setCompiled (w : World) (ref : FunctionRef) (code : CodeRef) : World :=
  { w with heap := w.heap.setCompiled ref code }

/-- The callable that a value refers to. -/
def callable? (w : World) : Value → Option Callable
  | .function ref => w.heap.callable? ref
  | _ => none

/-! ## Beginning -/

/-- Binds an operation under its own name. -/
def install (w : World) (b : Builtin) : World :=
  let (value, w) := (w.learn b.name).addBuiltin b
  w.set b.name value

/-- A world that knows the operations of the language and nothing else. -/
def initial (config : Config) : World :=
  Builtin.all.foldl install { config, memo := .empty config.memoCapacity }

/-! ## Reading and code -/

/-- Reads source text, and records the names in it. -/
def read (w : World) (source : String) : Except ReadError (List Value) × World :=
  (readSource source, w.learnAll (namesRead source))

/-- The code kept for a block. -/
def cached? (w : World) (items : List Value) : Option CodeRef :=
  (w.cache.find? fun entry => Value.sameAll entry.1 items).map (·.2)

/-- Keeps the code of a block. -/
def keep (w : World) (items : List Value) (code : CodeRef) : World :=
  { w with cache := (items, code) :: w.cache }

end World

end BlockLang
