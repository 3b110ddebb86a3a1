import BlockLang.Code.Opcode

/-!
# The operations of the language

The functions that every world starts with, under their names. Most of them have an opcode, which
stands for the function wherever the name still has its first binding; the others are always called
by name. The table of aliases says which symbols stand for which names.
-/

namespace BlockLang

/-- A function that every world starts with. -/
inductive Builtin where
  | add | sub | mul | div | fdiv | mod | pow | neg | band | bor | bxor | shl | shr | bnot
  | logicalNot | logicalAnd | logicalOr | eq | ne | gt | ge | lt | le | ifTrue | ifReport | ifElse
  | ifFalse | switchOn | whileTrue | returnFlow | breakFlow | continueFlow | run | attempt
  | attemptReport | ensure | raise | get | set | convert | string | integer | array | dictionary
  | function | range | loop | map | select | size | replace | split | join | reverse | append | inc
  | dec | print
deriving DecidableEq, Repr, Inhabited

namespace Builtin

/-- All operations, in the order in which a world binds them. -/
def all : List Builtin :=
  [add, sub, mul, div, fdiv, mod, pow, neg, band, bor, bxor, shl, shr, bnot, logicalNot,
    logicalAnd, logicalOr, eq, ne, gt, ge, lt, le, ifTrue, ifReport, ifElse, ifFalse, switchOn,
    whileTrue, returnFlow, breakFlow, continueFlow, run, attempt, attemptReport, ensure, raise,
    get, set, convert, string, integer, array, dictionary, function, range, loop, map, select,
    size, replace, split, join, reverse, append, inc, dec, print]

/-- The name an operation is bound to. -/
def name : Builtin → String
  | add => "add"
  | sub => "sub"
  | mul => "mul"
  | div => "div"
  | fdiv => "fdiv"
  | mod => "mod"
  | pow => "pow"
  | neg => "neg"
  | band => "band"
  | bor => "bor"
  | bxor => "bxor"
  | shl => "shl"
  | shr => "shr"
  | bnot => "bnot"
  | logicalNot => "not?"
  | logicalAnd => "and?"
  | logicalOr => "or?"
  | eq => "equal?"
  | ne => "notEqual?"
  | gt => "greater?"
  | ge => "greaterOrEqual?"
  | lt => "less?"
  | le => "lessOrEqual?"
  | ifTrue => "if"
  | ifReport => "if?"
  | ifElse => "else"
  | ifFalse => "unless"
  | switchOn => "switch"
  | whileTrue => "while"
  | returnFlow => "return"
  | breakFlow => "break"
  | continueFlow => "continue"
  | run => "do"
  | attempt => "try"
  | attemptReport => "try?"
  | ensure => "ensure"
  | raise => "panic"
  | get => "get"
  | set => "set"
  | convert => "to"
  | string => "string"
  | integer => "integer"
  | array => "array"
  | dictionary => "dictionary"
  | function => "function"
  | range => "range"
  | loop => "loop"
  | map => "map"
  | select => "select"
  | size => "size"
  | replace => "replace"
  | split => "split"
  | join => "join"
  | reverse => "reverse"
  | append => "append"
  | inc => "inc"
  | dec => "dec"
  | print => "print"

/-- The number of operands that a call of an operation waits for. -/
def arity : Builtin → Nat
  | breakFlow | continueFlow => 0
  | neg | bnot | logicalNot | ifElse | returnFlow | run | attempt | attemptReport | ensure | raise
  | string | integer | array | dictionary | size | split | join | reverse | inc | dec | print => 1
  | switchOn | set | loop | map | select | replace => 3
  | _ => 2

/-- The opcode that stands for an operation. -/
def opcode? : Builtin → Option Opcode
  | add => some .add
  | sub => some .sub
  | mul => some .mul
  | div => some .div
  | fdiv => some .fdiv
  | mod => some .mod
  | pow => some .pow
  | neg => some .neg
  | band => some .band
  | bor => some .bor
  | bxor => some .bxor
  | shl => some .shl
  | shr => some .shr
  | bnot => some .bnot
  | logicalNot => some .logicalNot
  | logicalAnd => some .logicalAnd
  | logicalOr => some .logicalOr
  | eq => some .eq
  | ne => some .ne
  | gt => some .gt
  | ge => some .ge
  | lt => some .lt
  | le => some .le
  | ifTrue => some .ifTrue
  | ifReport => some .ifReport
  | ifElse => some .ifElse
  | ifFalse => some .ifFalse
  | switchOn => some .switchOn
  | whileTrue => some .whileTrue
  | returnFlow => some .returnFlow
  | breakFlow => some .breakFlow
  | continueFlow => some .continueFlow
  | get => some .get
  | set => some .set
  | convert => some .convert
  | string => some .string
  | integer => some .integer
  | array => some .array
  | dictionary => some .dictionary
  | function => some .function
  | range => some .range
  | loop => some .loop
  | map => some .map
  | select => some .select
  | size => some .size
  | replace => some .replace
  | split => some .split
  | join => some .join
  | reverse => some .reverse
  | inc => some .inc
  | dec => some .dec
  | print => some .print
  | _ => none

/-- The operation with the given name. -/
def ofName? (s : String) : Option Builtin := all.find? fun b => b.name == s

/-- The operation that an opcode stands for. -/
def ofOpcode? (o : Opcode) : Option Builtin := all.find? fun b => b.opcode? == some o

/-- An operation in messages and listings: its name and arity. -/
def text (b : Builtin) : String := s!"{b.name}/{b.arity}"

theorem mem_all (b : Builtin) : b ∈ all := by
  cases b <;> decide

theorem ofName?_name (b : Builtin) : ofName? b.name = some b := by
  cases b <;> decide

theorem ofOpcode?_eq_some_iff {o : Opcode} {b : Builtin} :
    ofOpcode? o = some b ↔ b.opcode? = some o := by
  constructor
  · intro h
    simpa using List.find?_some h
  · cases b <;> simp [opcode?] <;> rintro rfl <;> decide

end Builtin

/-! ## Aliases -/

/-- Where a symbol may stand in a call. -/
inductive Fixity where
  /-- In front of the operands only. -/
  | before
  /-- Also between the first operand and the second. -/
  | between
deriving DecidableEq, Repr, Inhabited

/-- A name that a symbol stands for. -/
structure Alias where
  name : String
  fixity : Fixity
deriving DecidableEq, Repr

/-- The name that a symbol stands for, if it stands for one. -/
def Symbol.alias? : Symbol → Option Alias
  | plus => some ⟨"add", .between⟩
  | minus => some ⟨"sub", .between⟩
  | asterisk => some ⟨"mul", .between⟩
  | slash => some ⟨"div", .between⟩
  | doubleSlash => some ⟨"fdiv", .between⟩
  | percent => some ⟨"mod", .between⟩
  | caret => some ⟨"pow", .between⟩
  | equal => some ⟨"equal?", .between⟩
  | lessGreater => some ⟨"notEqual?", .between⟩
  | less => some ⟨"less?", .between⟩
  | greater => some ⟨"greater?", .between⟩
  | lessEqual => some ⟨"lessOrEqual?", .between⟩
  | greaterEqual => some ⟨"greaterOrEqual?", .between⟩
  | dotDot => some ⟨"range", .between⟩
  | doublePlus => some ⟨"append", .between⟩
  | atSign => some ⟨"array", .before⟩
  | sharp => some ⟨"dictionary", .before⟩
  | dollar => some ⟨"function", .before⟩
  | emptySet => some ⟨"null", .before⟩
  | _ => none

end BlockLang
