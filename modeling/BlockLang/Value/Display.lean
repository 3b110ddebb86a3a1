import BlockLang.Decimal.Shortest
import BlockLang.Heap
import BlockLang.Text.Quoted

/-!
# Display of values

How values are printed. A string stands for itself at the top and is quoted inside another value;
line markers are left out. A dictionary shows its entries, so the display of a value that holds
itself has no end: `Value.display?` therefore takes the depth of nesting it may use, and answers
`none` beyond it.
-/

namespace BlockLang.Value

/-- The text of a value within `depth` levels of nesting; `nested` tells that it stands inside
another one. -/
def displayWithin (heap : Heap) : (depth : Nat) → (nested : Bool) → Value → Option String
  | 0, _, _ => none
  | depth + 1, nested, v =>
    let sequence (items : List Value) : Option String :=
      ((items.filter (!·.isNewline)).mapM (displayWithin heap depth true)).map (" ".intercalate ·)
    let segments (items : List Value) : Option String :=
      (items.mapM (displayWithin heap depth true)).map ("\\".intercalate ·)
    match v with
    | null => some "null"
    | logical b => some (if b then "true" else "false")
    | integer n => some (toString n.toInt)
    | floating x => some x.text
    | rational q => some q.text
    | string s => some (if nested then Text.quoted s else s)
    | word s => some s
    | literal s => some s!"'{s}"
    | label s => some s!"{s}:"
    | attr s => some s!".{s}"
    | attrLabel s => some s!".{s}:"
    | symbol s => some s.text
    | path items => segments items
    | pathLabel items => (segments items).map (· ++ ":")
    | block items _ => (sequence items).map fun s => s!"[{s}]"
    | inline items => (sequence items).map fun s => s!"({s})"
    | dictionary ref =>
      let entry (e : String × Value) : Option String :=
        (displayWithin heap depth true e.2).map fun s => s!"{e.1}: {s}"
      ((heap.dictionary ref).mapM entry).map fun l => "#[" ++ " ".intercalate l ++ "]"
    | function ref =>
      match heap.callable? ref with
      | some (.builtin b) => some s!"<builtin {b.name}>"
      | some c => some s!"<function/{c.arity}>"
      | none => some "<function>"
    | bytecode _ => some "<bytecode>"
    | newline _ => some ""

/-- The text of a value, if `depth` levels of nesting suffice. -/
def display? (heap : Heap) (depth : Nat) (v : Value) : Option String :=
  displayWithin heap depth false v

end BlockLang.Value
