import BlockLang.Arith
import BlockLang.CallTree.Basic

/-!
# Simplifying calls

A call of an operation is simplified when it has got its last operand.

* Arithmetic on two constants becomes its result, unless it fails.
* `x + 1`, `1 + x` and `x - 1` become an increment or a decrement.
* `x + x * y`, with the product on either side and its factors in either order, becomes
  `x * (y + 1)`; `x` has to be a variable.
* `unless c` becomes `if` on the opposite of `c`. A comparison is turned round and a negation taken
  off; anything else is negated.

Attributes of a call that is replaced are dropped with it.
-/

namespace BlockLang.CallTree

/-- The call of an operation on the given operands. -/
def operation (op : Opcode) (operands : List CallTree) : CallTree :=
  call (.operation op) operands.length operands

def isOne : CallTree → Bool
  | constant (.integer n) => n = 1
  | _ => false

/-- The result of an operation on two constant numbers. -/
def fold? (op : Arith) : CallTree → CallTree → Option CallTree
  | constant a, constant b =>
    if a.isNumeric && b.isNumeric then
      match op.apply a b with
      | .ok v => some (constant v)
      | .error _ => none
    else none
  | _, _ => none

/-- Both trees load the same variable. -/
def sameVariable : CallTree → CallTree → Bool
  | load x, load y => x == y
  | _, _ => false

/-- The factors of a product. -/
def factors? : CallTree → Option (CallTree × CallTree)
  | call (.operation .mul) _ children =>
    match operands children with
    | [a, b] => some (a, b)
    | _ => none
  | _ => none

/-- The sum of a tree and one, in its simplest form. -/
def successor (t : CallTree) : CallTree :=
  (fold? .add t (constant (.integer 1))).getD (operation .inc [t])

/-- The factor that stands beside the variable `x` in a product. -/
def cofactor? (x : CallTree) (factors : CallTree × CallTree) : Option CallTree :=
  if sameVariable x factors.1 then some factors.2
  else if sameVariable x factors.2 then some factors.1
  else none

/-- The product that stands for the sum of a variable and a multiple of it. A product on the right
is looked at before one on the left. -/
def shareFactor? (left right : CallTree) : Option CallTree :=
  let share (x : CallTree) (factors : CallTree × CallTree) : Option CallTree :=
    (cofactor? x factors).map fun y => operation .mul [x, successor y]
  match factors? right, factors? left with
  | some factors, _ => share left factors
  | none, some factors => share right factors
  | none, none => none

/-- The simpler form of an operation on two operands, if it has one. -/
def simplifyBinary? (op : Opcode) (left right : CallTree) : Option CallTree :=
  let folded := (Arith.ofOpcode? op).bind fun arith => fold? arith left right
  folded <|>
    match op with
    | .add =>
      if right.isOne then some (operation .inc [left])
      else if left.isOne then some (operation .inc [right])
      else shareFactor? left right
    | .sub => if right.isOne then some (operation .dec [left]) else none
    | _ => none

/-- The opposite of a condition. -/
def opposite (condition : CallTree) : CallTree :=
  match condition with
  | call (.operation op) arity children =>
    match op.negatedComparison? with
    | some op => call (.operation op) arity children
    | none =>
      match op, operands children with
      | .logicalNot, [inner] => inner
      | _, _ => operation .logicalNot [condition]
  | _ => operation .logicalNot [condition]

/-- Changes the first operand among the children of a call. -/
def modifyFirst (f : CallTree → CallTree) : List CallTree → List CallTree
  | [] => []
  | t :: l => if t.isAttr then t :: modifyFirst f l else f t :: l

/-- The simplified form of a call that has all its operands. -/
def simplify (t : CallTree) : CallTree :=
  match t with
  | call (.operation op) arity children =>
    match op, operands children with
    | .ifFalse, [_, _] => call (.operation .ifTrue) arity (modifyFirst opposite children)
    | op, [left, right] => (simplifyBinary? op left right).getD t
    | _, _ => t
  | t => t

end BlockLang.CallTree
