import BlockLang.Error

/-!
# Reading blocks

Turns the lexemes of a source text into values. Brackets nest; everything else becomes one value,
except blanks and comments, which are dropped. A line break becomes a marker with the number of the
line that it begins. Reading stops at the first lexeme that is an error or a bracket that does not
fit; the names read up to that point have been seen nonetheless.
-/

namespace BlockLang

/-- A bracket not yet closed, with its byte offset and the items in front of it, latest first. -/
structure OpenBracket where
  bracket : Bracket
  pos : Nat
  before : List Value

/-- A text read up to some lexeme. -/
structure Reading where
  /-- The items of the innermost bracket, latest first. -/
  items : List Value := []
  /-- The open brackets, innermost first. -/
  opened : List OpenBracket := []
  /-- The number of the current line. -/
  line : Nat := 1
  /-- The names seen, latest first. -/
  names : List String := []

namespace Reading

/-- The texts between backslashes. -/
def splitPath : List Char → List (List Char)
  | [] => [[]]
  | c :: l =>
    if c = '\\' then [] :: splitPath l
    else
      match splitPath l with
      | segment :: rest => (c :: segment) :: rest
      | [] => [[c]]

/-- The value of a path segment: an index if it is a number that fits a word, otherwise a word. -/
def segmentValue (segment : List Char) : Value :=
  match Numeral.word? segment with
  | some n => .integer n
  | none => .word (String.ofList segment)

def segments (path : String) : List Value := (splitPath path.toList).map segmentValue

/-- The names among values. -/
def namesIn (l : List Value) : List String := l.filterMap Value.name?

/-- Adds an item, with the names that it brings along. -/
def push (r : Reading) (v : Value) (names : List String := []) : Reading :=
  { r with items := v :: r.items, names := names.reverse ++ r.names }

/-- Adds an item that carries a name. -/
def pushName (r : Reading) (v : Value) : Reading := r.push v v.name?.toList

def enter (r : Reading) (bracket : Bracket) (pos : Nat) : Reading :=
  { r with items := [], opened := ⟨bracket, pos, r.items⟩ :: r.opened }

/-- Closes the innermost bracket, which has to be of the given kind. -/
def close (r : Reading) (bracket : Bracket) (pos : Nat) : Except ReadError Reading :=
  match r.opened with
  | [] => .error (.unopened bracket pos)
  | top :: opened =>
    if top.bracket = bracket then
      let inner := r.items.reverse
      let v := match bracket with
        | .block => Value.block inner false
        | .inline => Value.inline inner
      .ok { r with items := v :: top.before, opened }
    else .error (.mismatched top.bracket top.pos bracket pos)

/-- Reads one lexeme. -/
def step (r : Reading) (l : Lexeme) : Except ReadError Reading :=
  match l.result with
  | .error cause => .error (.badToken cause l.start l.stop (String.ofList l.text))
  | .ok token =>
    match token with
    | .blank | .comment => .ok r
    | .lineEnd => .ok { r.push (.newline (r.line + 1)) with line := r.line + 1 }
    | .openBlock => .ok (r.enter .block l.start)
    | .openInline => .ok (r.enter .inline l.start)
    | .closeBlock => r.close .block l.start
    | .closeInline => r.close .inline l.start
    | .integer n => .ok (r.push (.integer n))
    | .floating x => .ok (r.push (.floating x))
    | .string s => .ok (r.push (.string s))
    | .word s => .ok (r.pushName (.word s))
    | .label s => .ok (r.pushName (.label s))
    | .literal s => .ok (r.pushName (.literal s))
    | .attr s => .ok (r.pushName (.attr s))
    | .attrLabel s => .ok (r.pushName (.attrLabel s))
    | .path s => .ok (r.push (.path (segments s)) (namesIn (segments s)))
    | .pathLabel s => .ok (r.push (.pathLabel (segments s)) (namesIn (segments s)))
    | .symbol s => .ok (r.push (.symbol s))

/-- Reads lexemes up to the first that does not fit. -/
def steps (r : Reading) : List Lexeme → Reading × Option ReadError
  | [] => (r, none)
  | l :: rest =>
    match r.step l with
    | .ok r => r.steps rest
    | .error e => (r, some e)

/-- The items of a finished reading. -/
def finish (r : Reading) : Except ReadError (List Value) :=
  match r.opened with
  | [] => .ok r.items.reverse
  | top :: _ => .error (.unclosed top.bracket top.pos)

end Reading

/-- The items of a source text. -/
def readSource (source : String) : Except ReadError (List Value) :=
  match ({} : Reading).steps (Token.lexemes source) with
  | (r, none) => r.finish
  | (_, some e) => .error e

/-- The names that reading a source text comes across, up to the first error. -/
def namesRead (source : String) : List String :=
  (({} : Reading).steps (Token.lexemes source)).1.names.reverse

end BlockLang
