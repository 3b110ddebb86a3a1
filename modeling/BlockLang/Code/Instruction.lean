import BlockLang.Code.Opcode

/-!
# Instructions and their bytes

An instruction addresses a constant, jumps, or is a single opcode. Six families address a constant;
each owns sixteen bytes. The first fourteen stand for the slots `0` to `13`, the next one takes the
slot from the byte that follows, and the last one from the two bytes that follow, high byte first.

`Instruction.encode?` writes an instruction, in the shortest of these forms, and `decode` reads the
one at an offset. Jumps name the offset of their target.
-/

namespace BlockLang

/-- What an instruction does with the constant that it addresses. -/
inductive Family where
  /-- Pushes the constant. -/
  | push
  /-- Takes a value from the stack and binds it to the name. -/
  | store
  /-- Pushes the value bound to the name. -/
  | load
  /-- Binds the top of the stack to the name and leaves it there. -/
  | storeKeep
  /-- Calls the function, or the one bound to the name. -/
  | call
  /-- Takes a value from the stack as an attribute of the next call. -/
  | attr
deriving DecidableEq, Repr, Inhabited

namespace Family

/-- The families in the order of their bytes. -/
def all : Array Family := #[push, store, load, storeKeep, call, attr]

/-- How many bytes a family owns. -/
def width : Nat := 16

/-- How many slots have a byte of their own in each family. -/
def shortSlots : Nat := 14

/-- The first byte of a family. -/
def base (f : Family) : Nat := f.ctorIdx * width

/-- The name of a family in listings. -/
def mnemonic : Family → String
  | push => "Push"
  | store => "Store"
  | load => "Load"
  | storeKeep => "Storl"
  | call => "Call"
  | attr => "Attr"

/-- The family with the given name. -/
def ofMnemonic? (s : String) : Option Family := all.find? fun f => f.mnemonic == s

end Family

/-- When a jump is taken. -/
inductive Condition where
  | always
  | ifTrue
  | ifFalse
deriving DecidableEq, Repr, Inhabited

/-- An instruction of compiled code. -/
inductive Instruction where
  | indexed (family : Family) (index : Nat)
  | jump (condition : Condition) (target : UInt16)
  | op (opcode : Opcode)
deriving DecidableEq, Repr, Inhabited

/-- The bytes of a number below `2 ^ 16`, high byte first. -/
def wideBytes (n : Nat) : List UInt8 := [(n / 256).toUInt8, n.toUInt8]

/-- The number with the given high and low byte. -/
def ofWideBytes (high low : UInt8) : Nat := high.toNat * 256 + low.toNat

/-- The opcodes of a jump with a one-byte and with a two-byte target. -/
def Condition.opcodes : Condition → Opcode × Opcode
  | always => (.jump, .jumpWide)
  | ifTrue => (.jumpIf, .jumpIfWide)
  | ifFalse => (.jumpUnless, .jumpUnlessWide)

/-- The bytes of an instruction in its shortest form; `none` for a slot beyond the last that two
bytes can address. -/
def Instruction.encode? : Instruction → Option (List UInt8)
  | indexed family index =>
    if index < Family.shortSlots then some [(family.base + index).toUInt8]
    else if index < 0x100 then some [(family.base + 14).toUInt8, index.toUInt8]
    else if index < 0x10000 then some ((family.base + 15).toUInt8 :: wideBytes index)
    else none
  | jump condition target =>
    let (short, wide) := condition.opcodes
    if target.toNat < 0x100 then some [short.byte, target.toNat.toUInt8]
    else some (wide.byte :: wideBytes target.toNat)
  | op opcode => some [opcode.byte]

/-- What was found at an offset: the instruction, unless the bytes are none, and the offset at which
reading ended. -/
structure Decoded where
  instruction? : Option Instruction
  next : Nat
deriving DecidableEq, Repr

/-- The operand behind the byte at offset `pos`, of one or two bytes. -/
def operand? (code : Array UInt8) (pos : Nat) (wide : Bool) : Option Nat :=
  if wide then
    match code[pos + 1]?, code[pos + 2]? with
    | some high, some low => some (ofWideBytes high low)
    | _, _ => none
  else code[pos + 1]?.map (·.toNat)

/-- Reads an instruction with an operand, once its kind is known. -/
def decodeOperand (code : Array UInt8) (pos : Nat) (wide : Bool) (make : Nat → Instruction) :
    Decoded :=
  match operand? code pos wide with
  | some n => ⟨some (make n), pos + if wide then 3 else 2⟩
  | none => ⟨none, pos + 1⟩

/-- The jump that an opcode stands for, and whether its target takes two bytes. -/
def Opcode.jump? : Opcode → Option (Condition × Bool)
  | jump => some (.always, false)
  | jumpWide => some (.always, true)
  | jumpIf => some (.ifTrue, false)
  | jumpIfWide => some (.ifTrue, true)
  | jumpUnless => some (.ifFalse, false)
  | jumpUnlessWide => some (.ifFalse, true)
  | _ => none

/-- Reads the instruction at offset `pos`. A failure ends behind the first byte. -/
def decode (code : Array UInt8) (pos : Nat) : Decoded :=
  match code[pos]? with
  | none => ⟨none, pos⟩
  | some byte =>
    match Family.all[byte.toNat / Family.width]? with
    | some family =>
      let slot := byte.toNat % Family.width
      if slot = 14 then decodeOperand code pos false (.indexed family)
      else if slot = 15 then decodeOperand code pos true (.indexed family)
      else ⟨some (.indexed family slot), pos + 1⟩
    | none =>
      match Opcode.ofByte? byte with
      | none => ⟨none, pos + 1⟩
      | some opcode =>
        match opcode.jump? with
        | some (condition, wide) =>
          decodeOperand code pos wide fun n => .jump condition n.toUInt16
        | none => ⟨some (.op opcode), pos + 1⟩

end BlockLang
