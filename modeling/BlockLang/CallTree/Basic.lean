import BlockLang.Builtin
import BlockLang.Value.Display

/-!
# Call trees

What a block means before it is turned into code: a sequence of trees whose leaves are constants and
variables and whose inner nodes are calls. The children of a call are its operands, in order, and
among them its attributes, which do not count towards its arity.

**Order of evaluation** is `postorder`: the children of a call before the call, siblings from left to
right. `stackOrder` finds the same order with an explicit stack. Both list each node together with
its place, so a node that occurs twice is listed twice.
-/

namespace BlockLang

/-- What an inner node of a call tree does with its operands. -/
inductive Head where
  /-- Passes a side argument to the call whose child it is. -/
  | attr (name : String)
  /-- Binds a name. -/
  | store (name : String)
  /-- Calls a function, or whatever is bound to a word when the call is made. -/
  | other (target : Value)
  /-- An operation with an opcode. -/
  | operation (op : Opcode)

/-- A call tree. -/
inductive CallTree where
  | constant (v : Value)
  | load (name : String)
  /-- A call that waits for `arity` operands. -/
  | call (head : Head) (arity : Nat) (children : List CallTree)

namespace Head

/-- The value that a listing of the tree shows. -/
def value? : Head → Option Value
  | attr name | store name => some (.word name)
  | other target => some target
  | operation _ => none

def op? : Head → Option Opcode
  | operation op => some op
  | _ => none

/-- The name of the kind of node. -/
def kindName : Head → String
  | attr _ => "AttributeNode"
  | store _ => "VariableStore"
  | other _ => "OtherCall"
  | operation op => if op.isControl then "SpecialCall" else "BuiltinCall"

/-- The name of a call in messages. A target is a word or a function, whose display is flat. -/
def text (heap : Heap) : Head → String
  | attr name | store name => name
  | other target => (target.display? heap 1).getD ""
  | operation op =>
    match Builtin.ofOpcode? op with
    | some b => b.name
    | none => op.mnemonic

end Head

namespace CallTree

def isAttr : CallTree → Bool
  | call (.attr _) .. => true
  | _ => false

/-- The trees that count as operands. -/
def operands (l : List CallTree) : List CallTree := l.filter (!·.isAttr)

def children : CallTree → List CallTree
  | call _ _ children => children
  | _ => []

/-- The name of the kind of node. -/
def kindName : CallTree → String
  | constant _ => "ConstantValue"
  | load _ => "VariableLoad"
  | call head .. => head.kindName

/-- The name of the operation, or of the kind of node if it is none. -/
def label (t : CallTree) : String :=
  match t with
  | call (.operation op) .. => op.mnemonic
  | t => t.kindName

/-- The node has as many operands as it waits for. -/
def isComplete : CallTree → Bool
  | call _ arity children => (operands children).length == arity
  | _ => true

/-! ## Order of evaluation -/

/-- A node with its place in a sequence of trees: the positions that lead to it, the last one
first. -/
structure Located where
  place : List Nat
  node : CallTree

mutual

/-- The nodes of a tree at a given place, children before parents. -/
def postorderAt (place : List Nat) : CallTree → List Located
  | call head arity children =>
    postorderFrom place 0 children ++ [⟨place, call head arity children⟩]
  | constant v => [⟨place, constant v⟩]
  | load name => [⟨place, load name⟩]

/-- The nodes of siblings, the first of which stands at position `i`. -/
def postorderFrom (place : List Nat) (i : Nat) : List CallTree → List Located
  | [] => []
  | t :: l => postorderAt (i :: place) t ++ postorderFrom place (i + 1) l

end

/-- The nodes of a sequence of trees in the order in which they are evaluated. -/
def postorder (l : List CallTree) : List Located := postorderFrom [] 0 l

/-- Siblings with their places, from position `i` on. -/
def locate (place : List Nat) (i : Nat) : List CallTree → List Located
  | [] => []
  | t :: l => ⟨i :: place, t⟩ :: locate place (i + 1) l

/-- Visits what is on the stack, top first, the children of a node from right to left behind it.
What is visited is put in front of `visited`. -/
def unwind : (count : Nat) → (stack visited : List Located) → List Located
  | count + 1, top :: stack, visited =>
    unwind count ((locate top.place 0 top.node.children).reverse ++ stack) (top :: visited)
  | _, _, visited => visited

mutual

def size : CallTree → Nat
  | call _ _ children => 1 + sizeAll children
  | _ => 1

/-- The number of nodes in a sequence of trees. -/
def sizeAll : List CallTree → Nat
  | [] => 0
  | t :: l => t.size + sizeAll l

end

/-- The order of evaluation, found with a stack. -/
def stackOrder (l : List CallTree) : List Located := unwind (sizeAll l) (locate [] 0 l).reverse []

/-! ## Listing -/

/-- One line of a listing. -/
def lineText? (heap : Heap) (depth level : Nat) (t : CallTree) : Option String := do
  let shown (v : Value) : Option String := (v.display? heap depth).map (" " ++ ·)
  let detail ← match t with
    | constant v => shown v
    | load name => shown (.word name)
    | call head arity children =>
      let op := (head.op?.map (" " ++ ·.mnemonic)).getD ""
      let value ← (head.value?.map shown).getD (some "")
      some s!"{op}{value} ({(operands children).length}/{arity})"
  return String.ofList (List.replicate (2 * level) ' ') ++ t.kindName ++ detail ++ "\n"

mutual

/-- The lines of a tree, indented by its level. -/
def lines? (heap : Heap) (depth level : Nat) (t : CallTree) : Option String := do
  let line ← t.lineText? heap depth level
  match t with
  | call _ _ children => return line ++ (← linesAll? heap depth (level + 1) children)
  | _ => return line

/-- The lines of siblings. -/
def linesAll? (heap : Heap) (depth level : Nat) : List CallTree → Option String
  | [] => some ""
  | t :: l => do
    let first ← lines? heap depth level t
    return first ++ (← linesAll? heap depth level l)

end

/-- The listing of a sequence of trees, if `depth` levels of nesting suffice for its values. -/
def listing? (heap : Heap) (depth : Nat) (l : List CallTree) : Option String :=
  linesAll? heap depth 0 l

end CallTree

end BlockLang
