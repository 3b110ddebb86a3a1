/-!
# Operator symbols

The symbols of the language that are written with punctuation. A symbol is only a spelling: what it
does, if anything, is decided by the alias table in `BlockLang.Builtin`.
-/

namespace BlockLang

/-- A symbol of the language. -/
inductive Symbol where
  | plus | minus | asterisk | slash | doubleSlash | percent | caret
  | equal | lessGreater | less | greater | lessEqual | greaterEqual
  | dotDot | doublePlus | arrow | thickArrow | doubleColon
  | pipe | ampersand | atSign | sharp | dollar | emptySet
deriving DecidableEq, Repr, Inhabited

namespace Symbol

/-- All symbols, in the order of the type. -/
def all : List Symbol :=
  [plus, minus, asterisk, slash, doubleSlash, percent, caret, equal, lessGreater, less, greater,
    lessEqual, greaterEqual, dotDot, doublePlus, arrow, thickArrow, doubleColon, pipe, ampersand,
    atSign, sharp, dollar, emptySet]

/-- The spelling of a symbol in source text. -/
def text : Symbol → String
  | plus => "+"
  | minus => "-"
  | asterisk => "*"
  | slash => "/"
  | doubleSlash => "//"
  | percent => "%"
  | caret => "^"
  | equal => "="
  | lessGreater => "<>"
  | less => "<"
  | greater => ">"
  | lessEqual => "<="
  | greaterEqual => ">="
  | dotDot => ".."
  | doublePlus => "++"
  | arrow => "->"
  | thickArrow => "=>"
  | doubleColon => "::"
  | pipe => "|"
  | ampersand => "&"
  | atSign => "@"
  | sharp => "#"
  | dollar => "$"
  | emptySet => "ø"

/-- The symbol with the given spelling. -/
def ofText? (s : String) : Option Symbol :=
  all.find? fun symbol => symbol.text == s

theorem mem_all (s : Symbol) : s ∈ all := by
  cases s <;> decide

end Symbol

end BlockLang
