import BlockLang.Heap
import BlockLang.Value.Equality

/-!
# Fingerprints

Two ways of telling values apart by a flat sequence of marks.

`Value.fingerprint` marks shared objects by their identity. It tells two lists of values apart
exactly when they differ as constants.

`Value.argumentFingerprint` marks a dictionary by its entries, so that a change of a dictionary
changes the fingerprint of whatever holds it; functions and code still count by identity. Below
`contentDepth` levels of nesting it falls back on identity, so a dictionary that holds itself has a
fingerprint too.
-/

namespace BlockLang

/-- One mark of a fingerprint. -/
inductive Mark where
  | kind (k : Kind)
  | logical (b : Bool)
  | number (n : Int64)
  | bits (b : UInt64)
  | text (s : String)
  | name (s : String)
  | symbol (s : Symbol)
  /-- How many parts follow. -/
  | size (n : Nat)
  /-- The identity of a shared object. -/
  | identity (index : Nat)
deriving DecidableEq, Repr

namespace Value

mutual

/-- The marks of a value that counts shared objects by identity. -/
def marks (v : Value) : List Mark :=
  match v with
  | null => [.kind .null]
  | logical b => [.kind .logical, .logical b]
  | integer n => [.kind .integer, .number n]
  | floating x => [.kind .floating, .bits x.bits]
  | rational q => [.kind .rational, .number q.numer, .number q.denom]
  | string s => [.kind .string, .text s]
  | word s => [.kind .word, .name s]
  | literal s => [.kind .literal, .name s]
  | label s => [.kind .label, .name s]
  | attr s => [.kind .attr, .name s]
  | attrLabel s => [.kind .attrLabel, .name s]
  | symbol s => [.kind .symbol, .symbol s]
  | path items => .kind .path :: .size items.length :: marksAll items
  | pathLabel items => .kind .pathLabel :: .size items.length :: marksAll items
  | block items _ => .kind .block :: .size items.length :: marksAll items
  | inline items => .kind .inline :: .size items.length :: marksAll items
  | dictionary ref => [.kind .dictionary, .identity ref.index]
  | function ref => [.kind .function, .identity ref.index]
  | bytecode ref => [.kind .bytecode, .identity ref.index]
  | newline line => [.kind .newline, .size line]

/-- The marks of the values, one after the other. -/
def marksAll : List Value → List Mark
  | [] => []
  | v :: l => marks v ++ marksAll l

end

/-- The fingerprint of a list of values, by identity. -/
def fingerprint (l : List Value) : List Mark := marksAll l ++ [.size l.length]

/-- How deep the contents of arguments count. -/
def contentDepth : Nat := 16

/-- The marks of a value whose contents count for `levels` more levels. -/
def contentMarks (heap : Heap) : (levels : Nat) → Value → List Mark
  | 0, v => v.marks
  | levels + 1, v =>
    let parts (items : List Value) : List Mark :=
      .kind v.kind :: .size items.length :: items.flatMap (contentMarks heap levels)
    match v with
    | dictionary ref =>
      let entries := heap.dictionary ref
      .kind .dictionary :: .size entries.length ::
        entries.flatMap fun e => .text e.1 :: contentMarks heap levels e.2
    | block items _ | inline items | path items | pathLabel items => parts items
    | v => v.marks

/-- The fingerprint of the arguments of a call, by contents. -/
def argumentFingerprint (heap : Heap) (args : List Value) : List Mark :=
  args.flatMap (contentMarks heap (contentDepth + 1)) ++ [.size args.length]

end Value

end BlockLang
