import BlockLang.Value.Basic

/-!
# Opcodes

The operations that fit in one byte. Their bytes are dense: the first is `Opcode.firstByte`, and the
others follow in the order of the type. The bytes below belong to the instruction families that
address a constant, which are in `BlockLang.Code.Instruction`.
-/

namespace BlockLang

/-- A single-byte operation: an immediate constant, an operation of the language, an operation on
the operand stack, a jump, or the end of a unit. -/
inductive Opcode where
  | int0 | int1 | int2 | int3 | int4 | int5 | int6 | int7 | int8 | int9 | int10 | int11 | int12
  | int13 | int14 | int15 | float0 | float1 | float2 | emptyString | logicalTrue | logicalFalse
  | nullValue | emptyBlock
  | add | sub | mul | div | fdiv | mod | pow | neg | bnot | band | bor | bxor | shl | shr
  | logicalNot | logicalAnd | logicalOr | eq | ne | gt | ge | lt | le
  | ifTrue | ifReport | ifElse | ifFalse | switchOn | whileTrue | returnFlow | breakFlow
  | continueFlow
  | get | set | convert | string | integer | array | dictionary | function
  | range | loop | map | select | size | replace | split | join | reverse | inc | dec | print
  | pop | dup | dupSecond | swap
  | jump | jumpWide | jumpIf | jumpIfWide | jumpUnless | jumpUnlessWide | nop | stop
deriving DecidableEq, Repr, Inhabited

namespace Opcode

/-- All opcodes in the order of their bytes. -/
def all : Array Opcode :=
  #[int0, int1, int2, int3, int4, int5, int6, int7, int8, int9, int10, int11, int12, int13, int14,
    int15, float0, float1, float2, emptyString, logicalTrue, logicalFalse, nullValue, emptyBlock,
    add, sub, mul, div, fdiv, mod, pow, neg, bnot, band, bor, bxor, shl, shr, logicalNot,
    logicalAnd, logicalOr, eq, ne, gt, ge, lt, le, ifTrue, ifReport, ifElse, ifFalse, switchOn,
    whileTrue, returnFlow, breakFlow, continueFlow, get, set, convert, string, integer, array,
    dictionary, function, range, loop, map, select, size, replace, split, join, reverse, inc, dec,
    print, pop, dup, dupSecond, swap, jump, jumpWide, jumpIf, jumpIfWide, jumpUnless, jumpUnlessWide,
    nop, stop]

/-- The byte of the first opcode. -/
def firstByte : Nat := 0x60

/-- The byte of an opcode. -/
def byte (o : Opcode) : UInt8 := (firstByte + o.ctorIdx).toUInt8

/-- The opcode with the given byte. -/
def ofByte? (b : UInt8) : Option Opcode :=
  if firstByte ≤ b.toNat then all[b.toNat - firstByte]? else none

/-- The name of an opcode in listings. -/
def mnemonic : Opcode → String
  | int0 => "ConstI0"
  | int1 => "ConstI1"
  | int2 => "ConstI2"
  | int3 => "ConstI3"
  | int4 => "ConstI4"
  | int5 => "ConstI5"
  | int6 => "ConstI6"
  | int7 => "ConstI7"
  | int8 => "ConstI8"
  | int9 => "ConstI9"
  | int10 => "ConstI10"
  | int11 => "ConstI11"
  | int12 => "ConstI12"
  | int13 => "ConstI13"
  | int14 => "ConstI14"
  | int15 => "ConstI15"
  | float0 => "ConstF0"
  | float1 => "ConstF1"
  | float2 => "ConstF2"
  | emptyString => "ConstS"
  | logicalTrue => "ConstBT"
  | logicalFalse => "ConstBF"
  | nullValue => "ConstN"
  | emptyBlock => "ConstBl"
  | add => "Add"
  | sub => "Sub"
  | mul => "Mul"
  | div => "Div"
  | fdiv => "FDiv"
  | mod => "Mod"
  | pow => "Pow"
  | neg => "Neg"
  | bnot => "BNot"
  | band => "BAnd"
  | bor => "BOr"
  | bxor => "BXor"
  | shl => "Shl"
  | shr => "Shr"
  | logicalNot => "Not"
  | logicalAnd => "And"
  | logicalOr => "Or"
  | eq => "Eq"
  | ne => "Ne"
  | gt => "Gt"
  | ge => "Ge"
  | lt => "Lt"
  | le => "Le"
  | ifTrue => "If"
  | ifReport => "IfE"
  | ifElse => "Else"
  | ifFalse => "Unless"
  | switchOn => "Switch"
  | whileTrue => "While"
  | returnFlow => "Return"
  | breakFlow => "Break"
  | continueFlow => "Continue"
  | get => "Get"
  | set => "Set"
  | convert => "To"
  | string => "ToS"
  | integer => "ToI"
  | array => "Array"
  | dictionary => "Dict"
  | function => "Func"
  | range => "Range"
  | loop => "Loop"
  | map => "Map"
  | select => "Select"
  | size => "Size"
  | replace => "Replace"
  | split => "Split"
  | join => "Join"
  | reverse => "Reverse"
  | inc => "Inc"
  | dec => "Dec"
  | print => "Print"
  | pop => "Pop"
  | dup => "Dup"
  | dupSecond => "Over"
  | swap => "Swap"
  | jump => "Jmp"
  | jumpWide => "JmpX"
  | jumpIf => "JmpIf"
  | jumpIfWide => "JmpIfX"
  | jumpUnless => "JmpIfN"
  | jumpUnlessWide => "JmpIfNX"
  | nop => "Nop"
  | stop => "End"

/-! ## Immediate constants -/

/-- The value that an immediate constant pushes. -/
def immediate? (o : Opcode) : Option Value :=
  match o with
  | float0 => some (.floating (.ofInt 0))
  | float1 => some (.floating (.ofInt 1))
  | float2 => some (.floating (.ofInt 2))
  | emptyString => some (.string "")
  | logicalTrue => some (.logical true)
  | logicalFalse => some (.logical false)
  | nullValue => some .null
  | emptyBlock => some (.block [] false)
  | o => if o.ctorIdx < 16 then some (.integer (.ofNat o.ctorIdx)) else none

/-- The opcode that pushes an integer from `0` to `15`. -/
def ofSmall? (n : Int64) : Option Opcode :=
  if 0 ≤ n ∧ n < 16 then all[n.toInt.toNat]? else none

/-- The immediate constant for a value that needs no slot among the constants. -/
def ofImmediate? : Value → Option Opcode
  | .integer n => ofSmall? n
  | .floating x =>
    if x = .ofInt 0 then some float0
    else if x = .ofInt 1 then some float1
    else if x = .ofInt 2 then some float2
    else none
  | .string s => if s.isEmpty then some emptyString else none
  | .block items _ => if items.isEmpty then some emptyBlock else none
  | .logical b => some (if b then logicalTrue else logicalFalse)
  | .null => some nullValue
  | _ => none

/-! ## Classes -/

/-- A control form: a branch, a loop on a condition, or a way out. -/
def isControl : Opcode → Bool
  | ifTrue | ifReport | ifElse | ifFalse | switchOn | whileTrue | returnFlow | breakFlow
  | continueFlow => true
  | _ => false

def isComparison : Opcode → Bool
  | eq | ne | gt | ge | lt | le => true
  | _ => false

/-- The comparison that holds exactly when the given one does not. -/
def negatedComparison? : Opcode → Option Opcode
  | eq => some ne
  | ne => some eq
  | lt => some ge
  | le => some gt
  | gt => some le
  | ge => some lt
  | _ => none

/-! ## Bytes and opcodes -/

theorem ofByte?_byte (o : Opcode) : ofByte? o.byte = some o := by
  cases o <;> decide

theorem byte_of_ofByte? {b : UInt8} {o : Opcode} (h : ofByte? b = some o) : o.byte = b := by
  revert h
  revert o
  have (n : Fin 256) (o : Opcode) (h : ofByte? (.ofNat n) = some o) : o.byte = .ofNat n := by
    revert o
    decide +revert +kernel
  intro o h
  have hb : b = .ofNat (b.toFin : Fin 256) := by simp
  rw [hb] at h ⊢
  exact this _ o h

end Opcode

end BlockLang
