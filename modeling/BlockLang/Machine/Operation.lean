import BlockLang.Machine.Basic
import BlockLang.Text.Replace
import BlockLang.Value.Bits
import BlockLang.Value.Collection
import BlockLang.Value.Comparison
import BlockLang.Value.Convert

/-!
# Operations that run no code

Operations take their operands from the stack, the first one deepest, and push their result. Those
that only look at their operands are lifted from functions on values; the others print, change a
dictionary, or need the names and attributes that the machine knows.
-/

namespace BlockLang.Exec

/-- Replaces the top operand by what a function makes of it. -/
def apply (f : Value → Except RuntimeError Value) : Exec Unit := do
  let v ← pop
  push (← f v)

/-- Replaces the top two operands by what a function makes of them. -/
def apply₂ (f : Value → Value → Except RuntimeError Value) : Exec Unit := do
  let (a, b) ← pop₂
  push (← f a b)

/-- Adds one to the top operand, or takes it away. -/
def step (op : Arith) : Exec Unit := apply fun v => op.apply v (.integer 1)

/-- Tells whether the top two operands are equal, or whether they differ. -/
def compareEqual (fuel : Nat) (expected : Bool) : Exec Unit := do
  let (a, b) ← pop₂
  push (.logical ((← areEqual fuel a b) == expected))

/-! ## Collections -/

/-- Looks a key up in a collection. -/
def getPart : Exec Unit := do
  let (collection, key) ← pop₂
  push (← Value.part (← heap) collection key)

/-- Gives a key of a dictionary a value; nothing is pushed. -/
def setPart : Exec Unit := do
  let (collection, key, value) ← pop₃
  match collection with
  | .dictionary ref =>
    let name ← key.keyName "set"
    modifyWorld fun w => { w with heap := w.heap.insertEntry ref name value }
  | v => fail (Value.wrongType "set" "a dictionary" v)

def countItems : Exec Unit := do
  let v ← pop
  push (← Value.itemCount (← heap) v)

/-- Replaces the occurrences of a text in a text, or of a value among the items of a block. -/
def replaceItems (fuel : Nat) : Exec Unit := do
  let (whole, pattern, replacement) ← pop₃
  match whole, pattern, replacement with
  | .string s, .string old, .string new =>
    push (.string (String.ofList (Text.replaceAll old.toList new.toList s.toList)))
  | .block items _, old, new =>
    let items ← items.mapM fun v => do
      if ← areEqual fuel v old then return new else return v
    push (.block items true)
  | v, _, _ => fail (Value.wrongType "replace" "a string or block" v)

/-- Joins the displays of the items of a block. -/
def joinItems (fuel : Nat) : Exec Unit := do
  match ← pop with
  | .block items _ =>
    let texts ← items.mapM (shown fuel)
    push (.string (String.join texts))
  | v => fail (Value.wrongType "join" "a block" v)

/-- Puts a value at the end of a text or block; a block brings its items. -/
def appendItems (fuel : Nat) : Exec Unit := do
  match ← pop₂ with
  | (.string s, v) => push (.string (s ++ (← shown fuel v)))
  | (.block items _, .block others _) => push (.block (items ++ others) true)
  | (.block items _, v) => push (.block (items ++ [v]) true)
  | (v, _) => fail (Value.wrongType "append" "a string or block" v)

/-! ## Conversions -/

/-- The value as a string: a string itself, or the display of any other value. -/
def stringOf (fuel : Nat) (v : Value) : Exec Value := return .string (← shown fuel v)

/-- The value as a block: a block itself, the items that a text is read into, or the value alone. -/
def blockOf (v : Value) : Exec Value := do
  match v with
  | .block items dynamic => return .block items dynamic
  | .string s => return .block (← read s) false
  | v => return .block [v] true

/-- Converts a value to the type of the given name. -/
def convertTo (fuel : Nat) (type : String) (v : Value) : Exec Value := do
  match type with
  | "string" => stringOf fuel v
  | "integer" => liftM v.toInteger
  | "floating" => liftM v.toFloating
  | "logical" => liftM v.toLogical
  | "block" => blockOf v
  | name => fail (.unknownType name)

/-- Converts a value to the type that is named before it. -/
def convert (fuel : Nat) : Exec Unit := do
  let (type, v) ← pop₂
  push (← convertTo fuel (← type.typeName) v)

def toText (fuel : Nat) : Exec Unit := do push (← stringOf fuel (← pop))

/-! ## Functions -/

/-- The current bindings of those of the names that are bound. -/
def captured (names : List String) : Exec (List (String × Value)) := do
  let w := (← get).world
  return names.filterMap fun name => (w.get? name).map (name, ·)

/-- The names that an attribute lists; none if it is not given. -/
def namesOfAttr (name : String) : Exec (List String) := do
  match ← attr? name with
  | some v => v.parameterNames "function"
  | none => return []

/-- The function with the given parameters and body that the attributes ask for. -/
def functionOf (params : List String) (main : Value) : Exec UserFunction := do
  let memoize ← hasFlag "memoize"
  let exportable ← hasFlag "exportable"
  let exports ← namesOfAttr "export"
  let imports ← captured (← namesOfAttr "import")
  return { params, main, imports, exports, exportable, memoize }

/-- Makes a function of its parameters and its body, as the attributes say. -/
def makeFunction : Exec Unit := do
  let (params, main) ← pop₂
  let params ← params.parameterNames "function"
  match main with
  | .block .. | .bytecode _ =>
    let f ← functionOf params main
    push (← inWorld (·.addUser f))
  | v => fail (Value.wrongType "function" "a block" v)

/-! ## Output and errors -/

/-- Prints the display of the top operand on a line of its own. -/
def printTop (fuel : Nat) : Exec Unit := do
  let line ← shown fuel (← pop)
  print (line ++ "\n")

/-- Fails with the display of the top operand. -/
def raiseTop (fuel : Nat) : Exec Unit := do
  let message ← shown fuel (← pop)
  throw (.error (.program message))

end BlockLang.Exec
