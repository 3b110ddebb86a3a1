import BlockLang.Heap
import BlockLang.Text.Distance
import BlockLang.Value.Expect

/-!
# Collections

Blocks, strings and dictionaries as collections. The items of a block are its values, line markers
among them, but loops pass over the markers. The items of a string are its characters, as strings.
-/

namespace BlockLang.Value

/-- A string of one character. -/
def ofChar (c : Char) : Value := string (String.singleton c)

/-- The characters of a text as strings. -/
def characters (s : String) : List Value := s.toList.map ofChar

/-- The key of a dictionary that a value names. -/
def keyName (operation : String) (v : Value) : Except RuntimeError String :=
  match v with
  | string s => .ok s
  | integer n => .ok (toString n.toInt)
  | v =>
    match v.name? with
    | some s => .ok s
    | none => .error (wrongType operation "a key" v)

/-- The item at a position counted from `0`. -/
def itemAt (items : List Value) (index : Int64) : Except RuntimeError Value :=
  let outside : Except RuntimeError Value := .error (.indexOutOfRange index items.length)
  if index < 0 then outside
  else
    match items[index.toInt.toNat]? with
    | some v => .ok v
    | none => outside

/-- The entry of a dictionary under a key. -/
def entry (entries : NameTable Value) (key : String) : Except RuntimeError Value :=
  match entries.get? key with
  | some v => .ok v
  | none => .error (.missingKey key (Text.nearest key entries.names))

/-- The part of a collection that a key leads to. -/
def part (heap : Heap) (collection key : Value) : Except RuntimeError Value :=
  match collection, key with
  | block items _, integer index => itemAt items index
  | string s, integer index => itemAt (characters s) index
  | dictionary ref, key => do entry (heap.dictionary ref) (← key.keyName "get")
  | collection, _ => .error (wrongType "get" "a block, dictionary or string" collection)

/-- The number of items of a collection. -/
def itemCount (heap : Heap) (v : Value) : Except RuntimeError Value :=
  match v with
  | block items _ => .ok (integer (.ofNat items.length))
  | string s => .ok (integer (.ofNat s.length))
  | dictionary ref => .ok (integer (.ofNat (heap.dictionary ref).length))
  | v => .error (wrongType "size" "a collection" v)

/-- A collection with its items in the opposite order. -/
def reversed (v : Value) : Except RuntimeError Value :=
  match v with
  | block items _ => .ok (block items.reverse true)
  | string s => .ok (string (String.ofList s.toList.reverse))
  | v => .error (wrongType "reverse" "a block or string" v)

/-- A string taken apart into its characters. -/
def splitUp (v : Value) : Except RuntimeError Value :=
  match v with
  | string s => .ok (block (characters s) true)
  | v => .error (wrongType "split" "a string" v)

/-- The integers from one to another, both included, in either direction. -/
def between (a b : Int64) : List Value :=
  let count := (b.toInt - a.toInt).natAbs + 1
  let value (k : Nat) : Value :=
    integer (if a ≤ b then a + .ofNat k else a - .ofNat k)
  (List.range count).map value

/-- A block of the integers from one to another. -/
def range (a b : Value) : Except RuntimeError Value := do
  let x ← a.expectInteger "range"
  let y ← b.expectInteger "range"
  return block (between x y) true

/-- What a loop goes through. An integer stands for the numbers up to it, and a dictionary for its
keys and values in turn. -/
def elements (heap : Heap) (operation : String) (v : Value) : Except RuntimeError (List Value) :=
  match v with
  | block items _ => .ok (items.filter (!·.isNewline))
  | integer n => .ok (if n < 1 then [] else between 1 n)
  | string s => .ok (characters s)
  | dictionary ref => .ok ((heap.dictionary ref).flatMap fun (key, v) => [string key, v])
  | v => .error (wrongType operation "an iterable" v)

/-- The name of a parameter. -/
def parameterName (operation : String) (v : Value) : Except RuntimeError String :=
  match v with
  | word s | literal s => .ok s
  | v => .error (wrongType operation "a word" v)

/-- The names that a block of words, or a single word, lists. -/
def parameterNames (operation : String) (v : Value) : Except RuntimeError (List String) :=
  match v with
  | block items _ => (items.filter (!·.isNewline)).mapM (parameterName operation)
  | word s | literal s => .ok [s]
  | null => .ok []
  | v => .error (wrongType operation "a block of words" v)

/-- The names of the labels among values, each once. -/
def labels (items : List Value) : List String :=
  items.foldl
    (fun names v =>
      match v with
      | label s => if names.contains s then names else names ++ [s]
      | _ => names)
    []

end BlockLang.Value
