import BlockLang.Text.Quoted
import BlockLang.Token
import BlockLang.Value.Basic

/-!
# Errors

What can go wrong while source is read, while a call tree is built, while code is generated and while
it runs. An error records its cause; the wording is in the `message` functions.
-/

namespace BlockLang

/-- The two kinds of bracket. -/
inductive Bracket where
  | block
  | inline
deriving DecidableEq, Repr, Inhabited

/-- The character that closes a bracket. -/
def Bracket.closing : Bracket → String
  | block => "]"
  | inline => ")"

/-- Why source text is not a block. Positions are byte offsets. -/
inductive ReadError where
  /-- A piece of text is no token. -/
  | badToken (cause : LexError) (start stop : Nat) (text : String)
  /-- A bracket closes that was never opened. -/
  | unopened (bracket : Bracket) (pos : Nat)
  /-- A bracket closes another one than was opened last. -/
  | mismatched (opened : Bracket) (openedAt : Nat) (found : Bracket) (pos : Nat)
  /-- The text ends inside a bracket. -/
  | unclosed (bracket : Bracket) (openedAt : Nat)
deriving DecidableEq, Repr

def ReadError.message : ReadError → String
  | badToken cause start stop text =>
    s!"{cause.message} at {start}..{stop}: " ++ Text.quoted text
  | unopened bracket pos => "unexpected \x60" ++ bracket.closing ++ s!"\x60 at {pos}"
  | mismatched opened openedAt found pos =>
    "expected \x60" ++ opened.closing ++ s!"\x60 at {pos} to close the bracket at {openedAt}, found \x60"
      ++ found.closing ++ "\x60"
  | unclosed bracket openedAt =>
    s!"unclosed bracket at {openedAt}, expected \x60" ++ bracket.closing ++ "\x60"

/-- Why items are not a sequence of calls. -/
inductive BuildError where
  /-- The items end before a call has all its operands. -/
  | incompleteCall (name : String) (arity given : Nat)
  /-- A path is to be stored to, and has no segment. -/
  | emptyPath
deriving DecidableEq, Repr

def BuildError.message : BuildError → String
  | incompleteCall name arity given =>
    s!"incomplete call: {name} needs {arity} argument(s), got {given}"
  | emptyPath => "empty path label"

/-- Why no code can be generated for a call tree. -/
inductive CodeError where
  /-- More distinct constants than an instruction can address. -/
  | tooManyConstants
deriving DecidableEq, Repr

def CodeError.message : CodeError → String
  | tooManyConstants => "constant pool exceeds 65536 entries"

/-- Why a running program stops. -/
inductive RuntimeError where
  | undefinedSymbol (name : String) (suggestions : List String)
  | missingKey (key : String) (suggestions : List String)
  | wrongType (function expected : String) (found : Kind)
  | wrongArity (function : String) (expected found : Nat)
  | overflow (function : String)
  | divisionByZero
  | notCallable (target : String)
  | invalidBytecode (offset : Nat)
  | stackUnderflow
  | stackOverflow (limit : Nat)
  | indexOutOfRange (index : Int64) (size : Nat)
  /-- A text that does not spell a value of the type. -/
  | cannotConvert (text type : String)
  /-- A type that nothing can be converted to. -/
  | unknownType (type : String)
  /-- The output refused what was printed. -/
  | output (reason : String)
deriving DecidableEq, Repr

/-- The proposals behind a name that was not found. -/
def suggestionText : List String → String
  | [] => ""
  | names => " (did you mean: " ++ ", ".intercalate names ++ "?)"

def RuntimeError.message : RuntimeError → String
  | undefinedSymbol name suggestions => s!"symbol not found: {name}" ++ suggestionText suggestions
  | missingKey key suggestions => s!"key not found: {key}" ++ suggestionText suggestions
  | wrongType function expected found => s!"{function}: expected {expected}, found {found.name}"
  | wrongArity function expected found =>
    s!"{function}: needs {expected} argument(s), {found} available"
  | overflow function => s!"{function}: numeric overflow"
  | divisionByZero => "division by zero"
  | notCallable target => s!"value is not callable: {target}"
  | invalidBytecode offset => s!"invalid bytecode at offset {offset}"
  | stackUnderflow => "stack underflow"
  | stackOverflow limit => s!"maximum call depth ({limit}) exceeded"
  | indexOutOfRange index size => s!"index {index.toInt} out of range for size {size}"
  | cannotConvert text type => "cannot convert " ++ Text.quoted text ++ s!" to {type}"
  | unknownType type => s!"cannot convert to {type}"
  | output reason => reason

/-- An error of the language. -/
inductive Error where
  | reading (cause : ReadError)
  | building (cause : BuildError)
  | generating (cause : CodeError)
  /-- A condition that a program relied on does not hold. -/
  | assertion (shown : String)
  | runtime (cause : RuntimeError)
  /-- An error raised by the program itself. -/
  | program (shown : String)
deriving DecidableEq, Repr

def Error.message : Error → String
  | reading cause => s!"syntax error: {cause.message}"
  | building cause => s!"syntax error: {cause.message}"
  | generating cause => s!"compiler error: {cause.message}"
  | assertion shown => s!"assertion failed: {shown}"
  | runtime cause => s!"runtime error: {cause.message}"
  | program shown => s!"program error: {shown}"

end BlockLang
