import BlockLang.Heap
import BlockLang.Value.Equality

/-!
# Order and equality in programs

`Value.compare?` orders numbers by value, whatever their kinds, and strings by code point. Integers
and fractions are compared exactly.

`Value.equalWithin` is the equality that programs see. Numbers are equal by value, blocks and
dictionaries by their contents, and everything else as constants are. Dictionaries are compared
through their references, so the depth of nesting is bounded by the caller as it is for display.
-/

namespace BlockLang.Value

/-- The order of two numbers or two strings. -/
def compare? : Value → Value → Option Ordering
  | integer x, integer y => some (compare x.toInt y.toInt)
  | string x, string y => some (compare x y)
  | rational x, rational y =>
    some (compare (x.numer.toInt * y.denom.toInt) (y.numer.toInt * x.denom.toInt))
  | rational x, integer y => some (compare x.numer.toInt (y.toInt * x.denom.toInt))
  | integer x, rational y => some (compare (x.toInt * y.denom.toInt) y.numer.toInt)
  | a, b =>
    match a.toBinary64?, b.toBinary64? with
    | some x, some y => x.compare? y
    | _, _ => none

/-- Whether two values are equal, if `depth` levels of nesting suffice to tell. The parts are
compared in order, up to the first that differ. -/
def equalWithin (heap : Heap) : (depth : Nat) → Value → Value → Option Bool
  | 0, _, _ => none
  | depth + 1, a, b =>
    if a.isNumeric && b.isNumeric then some (compare? a b == some .eq)
    else
      match a, b with
      | block xs _, block ys _ =>
        if xs.length = ys.length then
          (xs.zip ys).allM fun p => equalWithin heap depth p.1 p.2
        else some false
      | dictionary x, dictionary y =>
        let entries := heap.dictionary x
        let others := heap.dictionary y
        if entries.length = others.length then
          entries.allM fun e =>
            match others.get? e.1 with
            | some v => equalWithin heap depth e.2 v
            | none => some false
        else some false
      | a, b => some (same a b)

end BlockLang.Value
