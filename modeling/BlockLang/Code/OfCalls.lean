import BlockLang.CallTree.Basic
import BlockLang.Code.Instruction
import BlockLang.Error
import BlockLang.Value.Equality

/-!
# Code of call trees

Every node of a call tree becomes one instruction, in the order of evaluation, so the operands of a
call are on the stack when the call is made, the first one deepest. Constants that have an opcode of
their own become that opcode; every other constant, and every name, gets a slot, shared by all that
are the same. The last instruction ends the unit.
-/

namespace BlockLang

/-- What a node becomes before constants have slots. -/
inductive Emission where
  | op (opcode : Opcode)
  | indexed (family : Family) (constant : Value)

/-- What a node becomes. A binding that stands inside another tree leaves its value behind. -/
def CallTree.Located.emission (n : CallTree.Located) : Emission :=
  match n.node with
  | .constant v =>
    match Opcode.ofImmediate? v with
    | some opcode => .op opcode
    | none => .indexed .push v
  | .load name => .indexed .load (.word name)
  | .call head .. =>
    match head with
    | .attr name => .indexed .attr (.word name)
    | .store name => .indexed (if n.place.length = 1 then .store else .storeKeep) (.word name)
    | .other target => .indexed .call target
    | .operation opcode => .op opcode

/-- Constants with their slots, and instructions that address them. -/
structure Assembly where
  constants : Array Value := #[]
  instructions : Array Instruction := #[]

namespace Assembly

/-- The slot of a constant, if it has one. -/
def slot? (a : Assembly) (v : Value) : Option Nat := a.constants.findIdx? (Value.same v)

/-- Adds an instruction. A constant without a slot gets the next one. -/
def emit (a : Assembly) : Emission → Assembly
  | .op opcode => { a with instructions := a.instructions.push (.op opcode) }
  | .indexed family v =>
    match a.slot? v with
    | some i => { a with instructions := a.instructions.push (.indexed family i) }
    | none =>
      { constants := a.constants.push v,
        instructions := a.instructions.push (.indexed family a.constants.size) }

/-- The instructions of a sequence of call trees, with the one that ends them. -/
def ofCalls (l : List CallTree) : Assembly :=
  (((CallTree.postorder l).map CallTree.Located.emission).foldl emit {}).emit (.op .stop)

end Assembly

/-- The bytes of instructions, one after the other. -/
def encodeAll? (l : List Instruction) : Option (List UInt8) :=
  (l.mapM Instruction.encode?).map List.flatten

/-- The code of a sequence of call trees. -/
def CodeUnit.ofCalls (l : List CallTree) : Except CodeError CodeUnit :=
  let assembly := Assembly.ofCalls l
  match encodeAll? assembly.instructions.toList with
  | some bytes => .ok { constants := assembly.constants, code := bytes.toArray }
  | none => .error .tooManyConstants

end BlockLang
