import BlockLang.Numeric.Rational
import BlockLang.Symbol

/-!
# Values

What source text is read into and what programs compute with: code and data have one type.
Dictionaries, functions and compiled code are shared and have an identity, so a value holds a
reference to them; what a reference stands for is kept in a `BlockLang.Heap`.
-/

namespace BlockLang

/-- A reference to a dictionary. -/
structure DictionaryRef where
  index : Nat
deriving DecidableEq, Repr, Inhabited

/-- A reference to a function. -/
structure FunctionRef where
  index : Nat
deriving DecidableEq, Repr, Inhabited

/-- A reference to a unit of compiled code. -/
structure CodeRef where
  index : Nat
deriving DecidableEq, Repr, Inhabited

/-- A value of the language. -/
inductive Value where
  | null
  | logical (b : Bool)
  | integer (n : Int64)
  | floating (x : Binary64)
  | rational (q : Rational)
  | string (s : String)
  | word (name : String)
  /-- A word that stands for its own name. -/
  | literal (name : String)
  /-- The name of a binding about to be made. -/
  | label (name : String)
  /-- A flag for the call that follows. -/
  | attr (name : String)
  /-- The name of a side argument for the call that follows. -/
  | attrLabel (name : String)
  | symbol (s : Symbol)
  /-- A head and the keys that lead on from it. -/
  | path (segments : List Value)
  | pathLabel (segments : List Value)
  /-- A sequence of values; `dynamic` marks one built by a running program. -/
  | block (items : List Value) (dynamic : Bool)
  /-- A sequence whose results stand in the place where it is written. -/
  | inline (items : List Value)
  | dictionary (ref : DictionaryRef)
  | function (ref : FunctionRef)
  | bytecode (ref : CodeRef)
  /-- The number of the line that begins here. -/
  | newline (line : Nat)
deriving Inhabited

/-- The kind of a value. -/
inductive Kind where
  | null | logical | integer | floating | rational | string
  | word | literal | label | attr | attrLabel | symbol | path | pathLabel
  | block | inline | dictionary | function | bytecode | newline
deriving DecidableEq, Repr, Inhabited

/-- The name of a kind in messages. -/
def Kind.name : Kind → String
  | null => "null"
  | logical => "logical"
  | integer => "integer"
  | floating => "floating"
  | rational => "rational"
  | string => "string"
  | word => "word"
  | literal => "literal"
  | label => "label"
  | attr => "attribute"
  | attrLabel => "attributeLabel"
  | symbol => "symbol"
  | path => "path"
  | pathLabel => "pathLabel"
  | block => "block"
  | inline => "inline"
  | dictionary => "dictionary"
  | function => "function"
  | bytecode => "bytecode"
  | newline => "newline"

namespace Value

def kind : Value → Kind
  | null => .null
  | logical _ => .logical
  | integer _ => .integer
  | floating _ => .floating
  | rational _ => .rational
  | string _ => .string
  | word _ => .word
  | literal _ => .literal
  | label _ => .label
  | attr _ => .attr
  | attrLabel _ => .attrLabel
  | symbol _ => .symbol
  | path _ => .path
  | pathLabel _ => .pathLabel
  | block .. => .block
  | inline _ => .inline
  | dictionary _ => .dictionary
  | function _ => .function
  | bytecode _ => .bytecode
  | newline _ => .newline

def isNull : Value → Bool
  | null => true
  | _ => false

def isNumeric : Value → Bool
  | integer _ | floating _ | rational _ => true
  | _ => false

def isNewline : Value → Bool
  | newline _ => true
  | _ => false

def integer? : Value → Option Int64
  | integer n => some n
  | _ => none

def logical? : Value → Option Bool
  | logical b => some b
  | _ => none

/-- The items of a block or an inline. -/
def items? : Value → Option (List Value)
  | block items _ | inline items => some items
  | _ => none

def isDynamic : Value → Bool
  | block _ dynamic => dynamic
  | _ => false

/-- The name that the value carries. -/
def name? : Value → Option String
  | word s | literal s | label s | attr s | attrLabel s => some s
  | _ => none

/-- The nearest floating point number to a number of any kind. -/
def toBinary64? : Value → Option Binary64
  | integer n => some (.ofInt n.toInt)
  | floating x => some x
  | rational q => some q.toBinary64
  | _ => none

end Value

end BlockLang
