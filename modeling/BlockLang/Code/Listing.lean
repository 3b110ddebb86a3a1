import BlockLang.Code.Instruction
import BlockLang.Value.Display

/-!
# Listings

A unit of code written out for people: its constants with their slots, and a line for every
instruction with its offset. A byte at which no instruction begins has a line of its own.
-/

namespace BlockLang.CodeUnit

/-- A number with zeros in front, four digits at least. -/
def offsetText (n : Nat) : String :=
  let digits := toString n
  String.ofList (List.replicate (4 - digits.length) '0') ++ digits

/-- A byte in base sixteen, with its mark and two digits. -/
def byteText (b : UInt8) : String :=
  let digits := Text.hexDigits b.toNat
  String.ofList ('0' :: 'x' :: List.replicate (2 - digits.length) '0' ++ digits)

/-- The name of an instruction with its operand. The forms that take the slot from one or two bytes
behind are marked. -/
def instructionText (byte : UInt8) : Instruction → String
  | .indexed family index =>
    let mark := match byte.toNat % Family.width with
      | 14 => "X "
      | 15 => "Y "
      | _ => ""
    s!"{family.mnemonic}{mark}{index}"
  | .jump _ target => s!"{((Opcode.ofByte? byte).getD .nop).mnemonic} {target.toNat}"
  | .op opcode => opcode.mnemonic

/-- The lines of the instructions from offset `pos` on; `constants` are the texts of the constants.
At most `count` lines are written. -/
def codeLines (code : Array UInt8) (constants : Array String) : (count pos : Nat) → List String
  | 0, _ => []
  | count + 1, pos =>
    match code[pos]? with
    | none => []
    | some byte =>
      let decoded := decode code pos
      let text := match decoded.instruction? with
        | none => s!"??? {byteText byte}"
        | some instruction =>
          let comment := match instruction with
            | .indexed _ index => (constants[index]?.map (" ; " ++ ·)).getD ""
            | _ => ""
          instructionText byte instruction ++ comment
      s!"{offsetText pos} {text}\n" :: codeLines code constants count decoded.next

/-- The listing of a unit, if `depth` levels of nesting suffice for its constants. -/
def listing? (heap : Heap) (depth : Nat) (u : CodeUnit) : Option String := do
  let constants ← u.constants.toList.mapM (Value.display? heap depth)
  let slots := constants.zipIdx.map fun (text, i) => s!"{i}: {text}\n"
  let lines := codeLines u.code constants.toArray u.code.size 0
  return "constants:\n" ++ String.join slots ++ "code:\n" ++ String.join lines

end BlockLang.CodeUnit
