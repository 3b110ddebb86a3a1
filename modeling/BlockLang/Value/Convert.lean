import BlockLang.Decimal.Numeral
import BlockLang.Text.Blank
import BlockLang.Value.Expect

/-!
# Conversions between kinds

A text is converted to the number that it spells, blanks at either end aside. A number is converted
to an integer by dropping what is behind the point; one too large for a word becomes the nearest
word.
-/

namespace BlockLang.Value

/-- What a text spells, without the blanks around it. -/
def spelled {α : Type} (read? : List Char → Option α) (type text : String) :
    Except RuntimeError α :=
  match read? (Text.trimBlanks text.toList) with
  | some a => .ok a
  | none => .error (.cannotConvert text type)

/-- The integer that a value is converted to. -/
def toInteger (v : Value) : Except RuntimeError Value :=
  let refused : Except RuntimeError Value :=
    .error (wrongType "integer" "a number, logical or string" v)
  match v with
  | integer n => .ok (integer n)
  | floating x => if x.isFinite then .ok (integer x.toInt64Clamped) else refused
  | rational q => .ok (integer (q.numer / q.denom))
  | logical b => .ok (integer (if b then 1 else 0))
  | string s => (spelled Numeral.word? "integer" s).map integer
  | _ => refused

/-- The floating point number that a value is converted to. -/
def toFloating (v : Value) : Except RuntimeError Value :=
  match v with
  | string s => (spelled Numeral.binary64? "floating" s).map floating
  | v =>
    match v.toBinary64? with
    | some x => .ok (floating x)
    | none => .error (wrongType "to" "a number or string" v)

/-- The truth value that a value is converted to. -/
def toLogical (v : Value) : Except RuntimeError Value :=
  match v with
  | logical b => .ok (logical b)
  | integer n => .ok (logical (n ≠ 0))
  | string "true" => .ok (logical true)
  | string "false" => .ok (logical false)
  | v => .error (wrongType "to" "a logical, integer or string" v)

/-- The name of the type that a value asks for. -/
def typeName (v : Value) : Except RuntimeError String :=
  match v with
  | string s => .ok s
  | v =>
    match v.name? with
    | some s => .ok s
    | none => .error (wrongType "to" "a type name" v)

end BlockLang.Value
