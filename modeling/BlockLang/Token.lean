import BlockLang.Decimal.Numeral
import BlockLang.Symbol

/-!
# Tokens

The lexer takes the longest token at each place, and where none begins it reports an error that
covers one character. `lexemes` lists what it finds; every lexeme has at least one character, and the
texts of all of them put together are the source.

**Names** are letters, digits and underscores, do not begin with a digit, and may end in a question
mark. A colon behind a name makes it a label, a point in front makes it an attribute, and a quote in
front makes it a literal.

**Paths** are a name and one or more segments, each behind a backslash. A segment is a name or a row of
digits. Behind it further segments may be left empty: two in a row behind a name and one behind digits,
but none behind the first segment of the path. The first of two may also be a question mark alone. One
more backslash still belongs to the path and ends it: a colon behind that does not make it a label.

**Strings** end at the first quote that no backslash escapes. The error of a string without an end
covers its complete items: single characters, and a backslash with the character behind it on the
same line.
-/

namespace BlockLang

/-- A token of source text. -/
inductive Token where
  | blank
  | lineEnd
  | comment
  | openBlock
  | closeBlock
  | openInline
  | closeInline
  | integer (n : Int64)
  | floating (x : Binary64)
  | string (s : String)
  | word (name : String)
  | label (name : String)
  | literal (name : String)
  | attr (name : String)
  | attrLabel (name : String)
  | path (text : String)
  | pathLabel (text : String)
  | symbol (s : Symbol)
deriving DecidableEq, Repr, Inhabited

/-- Why a piece of source text is no token. -/
inductive LexError where
  | invalid
  | unknownEscape (c : Char)
  | numberTooBig
deriving DecidableEq, Repr, Inhabited

def LexError.message : LexError → String
  | invalid => "invalid token encountered"
  | unknownEscape c => "unknown escape sequence: \\" ++ c.toString
  | numberTooBig => "number literal too big"

/-- A token or an error with the source text that it covers, whose first byte stands at `start`. -/
structure Lexeme where
  start : Nat
  text : List Char
  result : Except LexError Token

/-- The number of bytes that characters take. -/
def byteLength (l : List Char) : Nat := l.foldr (fun c n => c.utf8Size + n) 0

/-- The offset behind the last byte. -/
def Lexeme.stop (l : Lexeme) : Nat := l.start + byteLength l.text

namespace Token

/-! ## Pieces of tokens

Each of these counts the characters at the front of a text that belong to the piece. -/

def isNameStart (c : Char) : Bool := c.isAlpha || c == '_'

def isNamePart (c : Char) : Bool := c.isAlphanum || c == '_'

/-- A name, or nothing. -/
def nameLength : List Char → Nat
  | c :: l =>
    if isNameStart c then
      let part := (l.takeWhile isNamePart).length
      1 + part + if l[part]? = some '?' then 1 else 0
    else 0
  | [] => 0

def digitsLength (l : List Char) : Nat := (l.takeWhile Char.isDigit).length

/-- The segment at the front of a text, given how many segments may be left empty: its length, and
how many may be left empty behind it. -/
def segment? (slack : Nat) (l : List Char) : Option (Nat × Nat) :=
  match nameLength l, digitsLength l, slack with
  | 0, 0, 0 => none
  | 0, 0, 1 => some (0, 0)
  | 0, 0, slack + 2 => some (if l.head? = some '?' then 1 else 0, slack + 1)
  | 0, digits, _ => some (digits, 1)
  | name, _, _ => some (name, 2)

/-- The rest of a path behind a complete segment: its length, and whether a colon behind it makes
the path a label. `slack` segments may be left empty; `pending` characters still belong to the segment
last found. -/
def restOfPath (slack : Nat) : (pending : Nat) → List Char → Nat × Bool
  | _, [] => (0, true)
  | pending + 1, _ :: l =>
    let (n, isOpen) := restOfPath slack pending l
    (n + 1, isOpen)
  | 0, c :: l =>
    if c = '\\' then
      match segment? slack l with
      | none => (1, false)
      | some (length, slack) =>
        let (n, isOpen) := restOfPath slack length l
        (n + 1, isOpen)
    else (0, true)

/-- The segments behind a name, the first of which is not left empty: their length, `0` if there are
none, and whether a colon behind them makes a label. -/
def segmentsLength : List Char → Nat × Bool
  | '\\' :: l =>
    match segment? 0 l with
    | none => (0, true)
    | some (length, _) =>
      let (n, isOpen) := restOfPath 0 length l
      (n + 1, isOpen)
  | _ => (0, true)

/-- The complete items of a string, up to its end or to the place where it breaks off; `escaped`
tells that the character in front is a backslash that takes the next one along. -/
def stringLength (escaped : Bool) : List Char → Nat
  | [] => 0
  | c :: l =>
    if escaped then 1 + stringLength false l
    else if c = '"' then 0
    else if c = '\\' then
      match l with
      | [] => 0
      | d :: _ => if d = '\n' then 0 else 1 + stringLength true l
    else 1 + stringLength false l

/-- The text that the body of a string stands for. -/
def unescape : List Char → Except LexError (List Char)
  | [] => .ok []
  | '\\' :: c :: l =>
    match c with
    | 'n' => (unescape l).map ('\n' :: ·)
    | 't' => (unescape l).map ('\t' :: ·)
    | 'r' => (unescape l).map ('\r' :: ·)
    | '"' => (unescape l).map ('"' :: ·)
    | '\\' => (unescape l).map ('\\' :: ·)
    | c => .error (.unknownEscape c)
  | c :: l => (unescape l).map (c :: ·)

/-! ## One token -/

/-- A token, or an error, and the number of its characters behind the first one. -/
abbrev Match := Except LexError Token × Nat

/-- A single character that begins no token. -/
def noToken : Match := (.error .invalid, 0)

/-- A digit and what follows: a number with a fraction if digits stand on both sides of a point,
otherwise a whole number. -/
def ofNumber (c : Char) (l : List Char) : Match :=
  let whole := digitsLength l
  let fraction := match l.drop whole with
    | '.' :: rest => digitsLength rest
    | _ => 0
  let digits := c :: l.take whole
  if fraction = 0 then
    match Numeral.word? digits with
    | some n => (.ok (.integer n), whole)
    | none => (.error .numberTooBig, whole)
  else
    let all := digits ++ (l.drop (whole + 1)).take fraction
    (.ok (.floating (Numeral.nearest all (-fraction))), whole + 1 + fraction)

/-- A quote and what follows. -/
def ofString (l : List Char) : Match :=
  let n := stringLength false l
  if l[n]? = some '"' then ((unescape (l.take n)).map fun s => .string (String.ofList s), n + 1)
  else (.error .invalid, n)

/-- A name and what follows: a word, a label, a path, or the label of a path. -/
def ofName (c : Char) (l : List Char) : Match :=
  let name := nameLength (c :: l) - 1
  let (segments, isOpen) := segmentsLength (l.drop name)
  let n := name + segments
  let text := String.ofList (c :: l.take n)
  let isLabel := isOpen && l[n]? == some ':'
  if segments = 0 then if isLabel then (.ok (.label text), n + 1) else (.ok (.word text), n)
  else if isLabel then (.ok (.pathLabel text), n + 1)
  else (.ok (.path text), n)

/-- A point and what follows: an attribute, the label of an attribute, or a range. -/
def ofPoint (l : List Char) : Match :=
  match nameLength l with
  | 0 => if l.head? = some '.' then (.ok (.symbol .dotDot), 1) else noToken
  | n =>
    let name := String.ofList (l.take n)
    if l[n]? = some ':' then (.ok (.attrLabel name), n + 1) else (.ok (.attr name), n)

/-- A quote mark and what follows. -/
def ofLiteral (l : List Char) : Match :=
  match nameLength l with
  | 0 => noToken
  | n => (.ok (.literal (String.ofList (l.take n))), n)

/-- A symbol of one character, or of two if the next one is among those listed. -/
def ofSymbol (single : Except LexError Token) (longer : List (Char × Symbol)) (l : List Char) :
    Match :=
  match l with
  | [] => (single, 0)
  | d :: _ =>
    match longer.lookup d with
    | some s => (.ok (.symbol s), 1)
    | none => (single, 0)

/-- The longest token at the front of a text, given by its first character and the rest. -/
def scan (c : Char) (l : List Char) : Match :=
  let one (s : Symbol) : Except LexError Token := .ok (.symbol s)
  match c with
  | ' ' | '\t' | '\r' =>
    (.ok .blank, (l.takeWhile fun c => c == ' ' || c == '\t' || c == '\r').length)
  | '\n' => (.ok .lineEnd, 0)
  | ';' => (.ok .comment, (l.takeWhile (· != '\n')).length)
  | '[' => (.ok .openBlock, 0)
  | ']' => (.ok .closeBlock, 0)
  | '(' => (.ok .openInline, 0)
  | ')' => (.ok .closeInline, 0)
  | '"' => ofString l
  | '\x27' => ofLiteral l
  | '.' => ofPoint l
  | ':' => ofSymbol (.error .invalid) [(':', .doubleColon)] l
  | '+' => ofSymbol (one .plus) [('+', .doublePlus)] l
  | '-' => ofSymbol (one .minus) [('>', .arrow)] l
  | '*' => (one .asterisk, 0)
  | '/' => ofSymbol (one .slash) [('/', .doubleSlash)] l
  | '%' => (one .percent, 0)
  | '^' => (one .caret, 0)
  | '=' => ofSymbol (one .equal) [('>', .thickArrow)] l
  | '<' => ofSymbol (one .less) [('>', .lessGreater), ('=', .lessEqual)] l
  | '>' => ofSymbol (one .greater) [('=', .greaterEqual)] l
  | '|' => (one .pipe, 0)
  | '&' => (one .ampersand, 0)
  | '@' => (one .atSign, 0)
  | '#' => (one .sharp, 0)
  | '$' => (one .dollar, 0)
  | 'ø' => (one .emptySet, 0)
  | c =>
    if c.isDigit then ofNumber c l
    else if isNameStart c then ofName c l
    else noToken

/-! ## All tokens -/

/-- The lexemes of a text that begins at offset `start`; its first `pending` characters belong to a
lexeme already listed. -/
def lexemesFrom (start : Nat) : (pending : Nat) → List Char → List Lexeme
  | _, [] => []
  | pending + 1, c :: l => lexemesFrom (start + c.utf8Size) pending l
  | 0, c :: l =>
    let (result, more) := scan c l
    ⟨start, c :: l.take more, result⟩ :: lexemesFrom (start + c.utf8Size) more l

/-- The lexemes of a source text, in order. -/
def lexemes (source : String) : List Lexeme := lexemesFrom 0 0 source.toList

end Token

end BlockLang
