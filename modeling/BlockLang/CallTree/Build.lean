import BlockLang.CallTree.Draft
import BlockLang.World

/-!
# Building call trees

Turns a sequence of items into the calls that they spell. A word with an arity begins a call;
every other item is a whole tree and becomes an operand of the innermost open call.

* **Operators** stand behind their first operand: a whole tree that is followed by such a symbol
  becomes its first operand. The rest of the items is then its second, so operators group to the
  right.
* **Labels** begin a binding. A label in front of a function form lets the name be called from then
  on, and one in front of a plain value keeps it from being called.
* **Quoting.** `::` makes a block of all the items that remain, `->` of the next expression, and
  `=>` makes two blocks, parameters and body, of a word or a block with placeholders.
* **Inlines** are built on their own; the trees in them take the place of the inline.

Names are resolved as the world stands at that point. What labels say about arities stays in the
world, even if the items turn out to be no sequence of calls.
-/

namespace BlockLang

/-- Building a call tree reads and writes a world. -/
abbrev BuildM := ExceptT BuildError (StateM World)

namespace World

open CallTree (Draft)

/-! ## Calls by name -/

/-- The opcode of the operation that a name stands for, if its first binding is still in place. -/
def opcodeOf? (w : World) (name : String) : Option Opcode := do
  let b ← Builtin.ofName? name
  let callable ← w.callable? (← w.get? name)
  if callable.builtin? = some b then b.opcode? else none

/-- What a call of the name does. An eager call is of the function bound to the name now, any other
of the one bound to it when the call is made. -/
def callHead (w : World) (name : String) (eager : Bool) : Head :=
  match w.opcodeOf? name with
  | some op => .operation op
  | none =>
    match w.get? name, eager with
    | some (.function ref), true => .other (.function ref)
    | _, _ => .other (.word name)

/-- The call that the next item makes of the tree in front of it. -/
def operator? (w : World) : List Value → Option (Head × Nat)
  | .symbol s :: _ => do
    let target ← s.alias?
    if target.fixity ≠ .between then none
    let arity ← w.arity? target.name
    if arity = 0 then none else some (w.callHead target.name true, arity)
  | _ => none

/-- Adds a whole tree, as the first operand of an operator if one comes next. Answers how many of
the items that follow are used up. -/
def attach (w : World) (d : Draft) (t : CallTree) (rest : List Value) : Draft × Nat :=
  match w.operator? rest with
  | some (head, arity) => ((d.begin head arity).put t, 1)
  | none => (d.put t, 0)

def attachConstant (w : World) (d : Draft) (v : Value) (rest : List Value) : Draft × Nat :=
  w.attach d (.constant v) rest

/-- Begins a call, or makes it if it waits for nothing. -/
def beginCall (w : World) (d : Draft) (head : Head) (arity : Nat) (rest : List Value) :
    Draft × Nat :=
  if arity = 0 then w.attach d (.call head 0 []) rest else (d.begin head arity, 0)

/-! ## Words and labels -/

/-- The value that a word always stands for. -/
def constantWord? : String → Option Value
  | "true" => some (.logical true)
  | "false" => some (.logical false)
  | "null" => some .null
  | _ => none

def placeWord (w : World) (d : Draft) (name : String) (rest : List Value) : Draft × Nat :=
  match constantWord? name with
  | some v => w.attachConstant d v rest
  | none =>
    match w.arity? name with
    | some arity => w.beginCall d (w.callHead name false) arity rest
    | none => w.attach d (.load name) rest

/-- The values that name parameters in a block. -/
def isParameter : Value → Bool
  | .word _ | .literal _ => true
  | _ => false

/-- The number of parameters in what follows the head of a function form: attributes, and then the
block of the parameters. -/
def parameterCount? : List Value → Option Nat
  | .attr _ :: rest => parameterCount? rest
  | .attrLabel _ :: _ :: rest => parameterCount? rest
  | .block items _ :: _ => some (items.countP isParameter)
  | _ => none

/-- The arity of the function made by the form that the items begin with. -/
def declaredArity? : List Value → Option Nat
  | .word "function" :: rest | .symbol .dollar :: rest => parameterCount? rest
  | _ => none

/-- The items begin with a value that cannot be called. -/
def startsPlain : List Value → Bool
  | .null :: _ | .logical _ :: _ | .integer _ :: _ | .floating _ :: _ | .rational _ :: _
  | .string _ :: _ | .literal _ :: _ | .block .. :: _ | .dictionary _ :: _ => true
  | .word name :: _ => (constantWord? name).isSome
  | _ => false

/-- What a label in front of the items says about the arity of its name. -/
def declare (w : World) (name : String) (rest : List Value) : World :=
  match declaredArity? rest with
  | some arity => w.declareArity name arity
  | none => if startsPlain rest then w.forgetArity name else w

/-! ## Paths -/

/-- The key that a path segment stands for. -/
def segmentKey : Value → Value
  | .word name => .string name
  | v => v

/-- The tree that follows a path from its head, key by key. -/
def pathTree : List Value → CallTree
  | [] => .constant .null
  | head :: keys =>
    let start := match head with
      | .word name => .load name
      | v => .constant v
    keys.foldl
      (fun t key => .call (.operation .get) 2 [t, .constant (segmentKey key)]) start

/-- The function that a path of two segments finds in a dictionary. -/
def pathFunction? (w : World) : List Value → Option FunctionRef
  | [.word head, key] =>
    match w.get? head, segmentKey key with
    | some (.dictionary ref), .string s =>
      match (w.heap.dictionary ref).get? s with
      | some (.function f) => some f
      | _ => none
    | _, _ => none
  | _ => none

def placePath (w : World) (d : Draft) (segments rest : List Value) : Draft × Nat :=
  match w.pathFunction? segments with
  | some ref => w.beginCall d (.other (.function ref)) (w.heap.arity ref) rest
  | none => w.attach d (pathTree segments) rest

/-- Begins to store to where a path leads. -/
def placePathLabel (d : Draft) (segments : List Value) : Except BuildError Draft :=
  match segments.getLast? with
  | none => .error .emptyPath
  | some last =>
    let target := pathTree segments.dropLast
    let key := CallTree.constant (segmentKey last)
    .ok (d.enter { head := .operation .set, arity := 3, given := [key, target] })

/-! ## Placeholders -/

/-- The name of the placeholder with the given number. -/
def placeholder (k : Nat) : String := s!"_{k}"

/-- The names of the first `count` placeholders. -/
def placeholders (count : Nat) : List String := (List.range count).map placeholder

mutual

/-- Names the ampersands in a value from number `k` on, and answers the next number. Blocks are left
alone. -/
def nameAmpersands (k : Nat) : Value → Value × Nat
  | .symbol .ampersand => (.word (placeholder k), k + 1)
  | .inline items =>
    let (items, k) := nameAllAmpersands k items
    (.inline items, k)
  | v => (v, k)

/-- Names the ampersands in values, one value after the other. -/
def nameAllAmpersands (k : Nat) : List Value → List Value × Nat
  | [] => ([], k)
  | v :: l =>
    let (v, k) := nameAmpersands k v
    let (l, k) := nameAllAmpersands k l
    (v :: l, k)

end

/-- The names of the parameters, and the body, of the function that `=>` makes of the next item. -/
def placeholderForm? (w : World) : List Value → Option (List String × List Value)
  | .word name :: _ =>
    (w.arity? name).map fun arity =>
      (placeholders arity, .word name :: (placeholders arity).map .word)
  | .block items _ :: _ =>
    let (body, count) := nameAllAmpersands 0 items
    some (placeholders count, body)
  | _ => none

/-! ## Symbols -/

/-- Makes the next word a call of the latest operand. -/
def pipe? (w : World) (d : Draft) : List Value → Option Draft
  | .word name :: _ => do
    let arity ← w.arity? name
    if arity = 0 then none else d.pipe? (w.callHead name false) arity
  | _ => none

/-- Adds a symbol that stands for a name, or for itself. -/
def placeSymbol (w : World) (d : Draft) (s : Symbol) (rest : List Value) : Draft × Nat :=
  match s.alias? with
  | none => w.attachConstant d (.symbol s) rest
  | some target =>
    if target.name = "null" then w.attachConstant d .null rest
    else
      match w.arity? target.name with
      | some arity => w.beginCall d (w.callHead target.name true) arity rest
      | none => w.attachConstant d (.symbol s) rest

/-- Adds the parameters and the body that `=>` makes of the next item. -/
def placeThickArrow (d : Draft) (rest : List Value) : BuildM (Draft × Nat) := do
  match (← get).placeholderForm? rest with
  | some (names, body) =>
    modify (learnAll · names)
    let d := d.put (.constant (.block (names.map .word) false))
    let (d, used) := (← get).attachConstant d (.block body false) rest.tail
    return (d, used + 1)
  | none => return (← get).attachConstant d (.symbol .thickArrow) rest

/-! ## Items -/

/-- Adds an item. Answers how many of the items that follow are used up. -/
def placeItem (d : Draft) (item : Value) (rest : List Value) : BuildM (Draft × Nat) := do
  let w ← get
  match item with
  | .word name => return w.placeWord d name rest
  | .label name =>
    modify (declare · name rest)
    return (d.begin (.store name) 1, 0)
  | .attr name => return (d.put (.call (.attr name) 1 [.constant (.logical true)]), 0)
  | .attrLabel name => return (d.begin (.attr name) 1, 0)
  | .path segments => return w.placePath d segments rest
  | .pathLabel segments => return (← placePathLabel d segments, 0)
  | .symbol .doubleColon =>
    return ((w.attachConstant d (.block rest false) []).1, rest.length)
  | .symbol .thickArrow => placeThickArrow d rest
  | .symbol .pipe =>
    match w.pipe? d rest with
    | some d => return (d, 1)
    | none => return w.attachConstant d (.symbol .pipe) rest
  | .symbol s => return w.placeSymbol d s rest
  | .newline _ => return (d, 0)
  | v => return w.attachConstant d v rest

/-- Puts the trees of an inline in its place. Only the last of them can become an operand of an
operator. -/
def splice (w : World) (d : Draft) (trees : List CallTree) (rest : List Value) : Draft × Nat :=
  match trees.getLast? with
  | none => (d, 0)
  | some last => w.attach (trees.dropLast.foldl Draft.putPlain d) last rest

/-- The draft as it is when its items end; no call may be left open. -/
def finish (d : Draft) (used : Nat) : BuildM (Draft × Nat) := do
  d.check (← get).heap
  return (d, used)

mutual

/-- Adds items to a draft, the first `skip` of which are used up already, and answers how many items
were used; `used` counts those before. With `one`, it stops behind the first whole expression. -/
def addItems (one : Bool) (d : Draft) (skip used : Nat) : List Value → BuildM (Draft × Nat)
  | [] => finish d used
  | item :: rest =>
    match skip with
    | skip + 1 => addItems one d skip (used + 1) rest
    | 0 => do
      let (d, skip) ← match item with
        | .inline _ => do
          let trees ← inlineTrees item
          pure ((← get).splice d trees rest)
        | .symbol .arrow => do
          let (_, count) ← addItems true {} 0 0 rest
          let body := Value.block (rest.take count) false
          let (d, more) := (← get).attachConstant d body (rest.drop count)
          pure (d, count + more)
        | item => placeItem d item rest
      if one && d.isSettled then return (d, used + 1 + skip)
      else addItems one d skip (used + 1) rest
termination_by structural l => l

/-- The trees that an inline stands for. -/
def inlineTrees : Value → BuildM (List CallTree)
  | .inline items => do
    let (d, _) ← addItems false {} 0 0 items
    return d.trees
  | _ => return []
termination_by structural v => v

end

/-- The call trees of a sequence of items. -/
def callTrees (w : World) (items : List Value) : Except BuildError (List CallTree) × World :=
  ((addItems false {} 0 0 items).map fun (d, _) => d.trees).run.run w

end World

end BlockLang
