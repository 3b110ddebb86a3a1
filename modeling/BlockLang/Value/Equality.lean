import BlockLang.Value.Basic

/-!
# Identity of constants

`Value.same` decides whether two values can share a slot among the constants of compiled code. Kinds
never mix, numbers are told apart by their bits, and whatever has an identity is the same only as
itself. A dynamic block is the same as a static one with the same items.
-/

namespace BlockLang.Value

mutual

/-- The two values are interchangeable as constants. -/
def same : Value → Value → Bool
  | null, null => true
  | logical a, logical b => a == b
  | integer a, integer b => a == b
  | floating a, floating b => a == b
  | rational a, rational b => a == b
  | string a, string b => a == b
  | word a, word b => a == b
  | literal a, literal b => a == b
  | label a, label b => a == b
  | attr a, attr b => a == b
  | attrLabel a, attrLabel b => a == b
  | symbol a, symbol b => a == b
  | path a, path b => sameAll a b
  | pathLabel a, pathLabel b => sameAll a b
  | block a _, block b _ => sameAll a b
  | inline a, inline b => sameAll a b
  | dictionary a, dictionary b => a == b
  | function a, function b => a == b
  | bytecode a, bytecode b => a == b
  | newline a, newline b => a == b
  | _, _ => false

/-- Position by position the same, and equally many. -/
def sameAll : List Value → List Value → Bool
  | [], [] => true
  | a :: as, b :: bs => same a b && sameAll as bs
  | _, _ => false

end

end BlockLang.Value
