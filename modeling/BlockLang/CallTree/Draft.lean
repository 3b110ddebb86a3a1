import BlockLang.CallTree.Simplify
import BlockLang.Error

/-!
# Drafts of call trees

A sequence of call trees under construction. A call that still waits for operands is an open
`Frame`; the open frames lie inside one another, and whatever comes next goes to the innermost one.

**Closing.** A frame is full once it has as many operands as its arity. It is closed at once, and
the call goes to the frame outside, which may become full in its turn. So an open frame always waits
for at least one more operand.
-/

namespace BlockLang.CallTree

/-- A call that waits for operands. -/
structure Frame where
  head : Head
  arity : Nat
  /-- The children so far, latest first. -/
  given : List CallTree := []

namespace Frame

def push (f : Frame) (t : CallTree) : Frame := { f with given := t :: f.given }

/-- The number of operands so far. -/
def operandCount (f : Frame) : Nat := (operands f.given).length

def isFull (f : Frame) : Bool := f.operandCount == f.arity

/-- The call with the children that it has. -/
def tree (f : Frame) : CallTree := call f.head f.arity f.given.reverse

/-- The finished call. -/
def close (simplifying : Bool) (f : Frame) : CallTree :=
  if simplifying then f.tree.simplify else f.tree

/-- What is wrong if no operand follows. -/
def missing (heap : Heap) (f : Frame) : BuildError :=
  .incompleteCall (f.head.text heap) f.arity f.operandCount

end Frame

/-- A sequence of call trees under construction. -/
structure Draft where
  /-- The open frames, innermost first. -/
  opened : List Frame := []
  /-- The finished trees, latest first. -/
  done : List CallTree := []

/-- Splits the latest operand off from the latest children. -/
def splitOperand : List CallTree → Option CallTree × List CallTree
  | [] => (none, [])
  | t :: l =>
    if t.isAttr then
      let (operand?, rest) := splitOperand l
      (operand?, t :: rest)
    else (some t, l)

namespace Draft

/-- The sequence built so far, without what is still open. -/
def trees (d : Draft) : List CallTree := d.done.reverse

/-- A whole expression has been built. -/
def isSettled (d : Draft) : Bool := d.opened.isEmpty && !d.done.isEmpty

/-- Opens a frame inside the innermost one. -/
def enter (d : Draft) (f : Frame) : Draft := { d with opened := f :: d.opened }

/-- Begins a call. -/
def begin (d : Draft) (head : Head) (arity : Nat) : Draft := d.enter { head, arity }

/-- Gives a tree to the innermost of some frames, and closes the frames that are full. -/
def putInto (simplifying : Bool) (t : CallTree) (done : List CallTree) : List Frame → Draft
  | [] => { opened := [], done := t :: done }
  | f :: opened =>
    let f := f.push t
    if f.isFull then putInto simplifying (f.close simplifying) done opened
    else { opened := f :: opened, done }

/-- Adds a tree; calls that it completes are simplified. -/
def put (d : Draft) (t : CallTree) : Draft := putInto true t d.done d.opened

/-- Adds a tree; calls that it completes are left as they are. -/
def putPlain (d : Draft) (t : CallTree) : Draft := putInto false t d.done d.opened

/-- Takes the latest operand out of the innermost frame. -/
def takeOperand? (d : Draft) : Option (CallTree × Draft) :=
  match d.opened with
  | [] =>
    match splitOperand d.done with
    | (some t, done) => some (t, { d with done })
    | (none, _) => none
  | f :: opened =>
    match splitOperand f.given with
    | (some t, given) => some (t, { d with opened := { f with given } :: opened })
    | (none, _) => none

/-- Begins a call whose first operand is the latest operand, or the value stored by it: the binding
then gets the result of the call. -/
def pipe? (d : Draft) (head : Head) (arity : Nat) : Option Draft :=
  d.takeOperand?.map fun (latest, d) =>
    match latest with
    | call (.store name) n children =>
      let (stored?, given) := splitOperand children.reverse
      let d := (d.enter { head := .store name, arity := n, given }).begin head arity
      (stored?.map d.put).getD d
    | t => (d.begin head arity).put t

/-- The items that end here have to leave no frame open. -/
def check (heap : Heap) (d : Draft) : Except BuildError Unit :=
  match d.opened with
  | [] => .ok ()
  | f :: _ => .error (f.missing heap)

end Draft

end BlockLang.CallTree
