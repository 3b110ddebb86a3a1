import BlockLang.Code.OfCalls

/-!
# Reading back what was written

**Theorem (`decode_encode`).** The bytes of an instruction are read as that instruction, whatever
follows them, and reading ends where they end.

**Theorem (`decodes_encodeAll`).** So the bytes of a sequence of instructions are read as that
sequence.

One exception stands in the statements: an opcode that jumps has an operand, so it is no instruction
by itself (`Instruction.IsProper`).
-/

namespace BlockLang

variable {code : Array UInt8} {pos next : Nat} {i : Instruction} {bytes rest : List UInt8}
  {l m : List Instruction}

/-- The instruction is no bare opcode of a jump. -/
def Instruction.IsProper : Instruction → Prop
  | .op opcode => opcode.jump? = none
  | _ => True

/-! ## Bytes at an offset -/

theorem getElem?_of_drop {b : UInt8} (h : code.toList.drop pos = b :: rest) :
    code[pos]? = some b ∧ code.toList.drop (pos + 1) = rest := by
  constructor
  · rw [← Array.getElem?_toList, ← List.head?_drop, h]
    rfl
  · rw [← List.tail_drop, h]
    rfl

theorem ofWideBytes_wideBytes {n : Nat} (h : n < 0x10000) :
    ofWideBytes (n / 256).toUInt8 n.toUInt8 = n := by
  simp only [ofWideBytes, Nat.toUInt8, UInt8.toNat_ofNat']
  omega

theorem decodeOperand_short {first b : UInt8} {make : Nat → Instruction}
    (h : code.toList.drop pos = first :: b :: rest) :
    decodeOperand code pos false make = ⟨some (make b.toNat), pos + 2⟩ := by
  obtain ⟨hb, -⟩ := getElem?_of_drop (getElem?_of_drop h).2
  simp [decodeOperand, operand?, hb]

theorem decodeOperand_wide {first : UInt8} {n : Nat} {make : Nat → Instruction}
    (h : code.toList.drop pos = first :: wideBytes n ++ rest) (hn : n < 0x10000) :
    decodeOperand code pos true make = ⟨some (make n), pos + 3⟩ := by
  obtain ⟨hb, h⟩ := getElem?_of_drop (getElem?_of_drop h).2
  obtain ⟨hb', -⟩ := getElem?_of_drop h
  simp [decodeOperand, operand?, hb, hb', ofWideBytes_wideBytes hn]

/-! ## First bytes -/

/-- The first byte of an indexed instruction tells its family and its form. -/
theorem familyByte (family : Family) (slot : Nat) (h : slot < Family.width) :
    Family.all[(family.base + slot).toUInt8.toNat / Family.width]? = some family ∧
      (family.base + slot).toUInt8.toNat % Family.width = slot := by
  have hw : Family.width = 16 := rfl
  have hb : family.base = family.ctorIdx * 16 := rfl
  have hc : family.ctorIdx < 6 := by cases family <;> decide
  have hn : (family.base + slot).toUInt8.toNat = family.ctorIdx * 16 + slot := by
    simp only [Nat.toUInt8, UInt8.toNat_ofNat']
    omega
  rw [hn, hw]
  refine ⟨?_, by omega⟩
  rw [show (family.ctorIdx * 16 + slot) / 16 = family.ctorIdx by omega]
  cases family <;> rfl

/-- The byte of an opcode belongs to no family. -/
theorem opcodeByte (o : Opcode) : Family.all[o.byte.toNat / Family.width]? = none := by
  have h := Opcode.ofByte?_byte o
  unfold Opcode.ofByte? at h
  split at h
  · next hb =>
    have hf : Opcode.firstByte = 96 := rfl
    have hw : Family.width = 16 := rfl
    rw [Array.getElem?_eq_none_iff, show Family.all.size = 6 from rfl, hw]
    omega
  · cases h

/-! ## Instructions -/

theorem decode_indexed {family : Family} {index : Nat}
    (h : (Instruction.indexed family index).encode? = some bytes)
    (hc : code.toList.drop pos = bytes ++ rest) :
    decode code pos = ⟨some (.indexed family index), pos + bytes.length⟩ := by
  have hs : Family.shortSlots = 14 := rfl
  have hw : Family.width = 16 := rfl
  simp only [Instruction.encode?] at h
  split at h
  · cases h
    obtain ⟨hf, hm⟩ := familyByte family index (by omega)
    simp only [decode, (getElem?_of_drop hc).1, hf, hm]
    rw [if_neg (by omega), if_neg (by omega)]
    rfl
  · split at h
    · cases h
      obtain ⟨hf, hm⟩ := familyByte family 14 (by decide)
      simp only [decode, (getElem?_of_drop hc).1, hf, hm, if_true, decodeOperand_short hc]
      have : index.toUInt8.toNat = index := by
        simp only [Nat.toUInt8, UInt8.toNat_ofNat']
        omega
      rw [this]
      rfl
    · split at h
      · cases h
        obtain ⟨hf, hm⟩ := familyByte family 15 (by decide)
        simp only [decode, (getElem?_of_drop hc).1, hf, hm]
        rw [if_neg (by decide), if_pos trivial, decodeOperand_wide hc ‹_›]
        rfl
      · cases h

theorem decode_opcode {o : Opcode} (hj : o.jump? = none)
    (hc : code.toList.drop pos = o.byte :: rest) : decode code pos = ⟨some (.op o), pos + 1⟩ := by
  simp only [decode, (getElem?_of_drop hc).1, opcodeByte, Opcode.ofByte?_byte, hj]

theorem decode_jump {condition : Condition} {target : UInt16}
    (h : (Instruction.jump condition target).encode? = some bytes)
    (hc : code.toList.drop pos = bytes ++ rest) :
    decode code pos = ⟨some (.jump condition target), pos + bytes.length⟩ := by
  have short : condition.opcodes.1.jump? = some (condition, false) := by cases condition <;> rfl
  have wide : condition.opcodes.2.jump? = some (condition, true) := by cases condition <;> rfl
  have htarget : target.toNat.toUInt16 = target := by simp
  simp only [Instruction.encode?] at h
  split at h
  · cases h
    have hn : target.toNat.toUInt8.toNat = target.toNat := by
      simp only [Nat.toUInt8, UInt8.toNat_ofNat']
      omega
    simp only [decode, (getElem?_of_drop hc).1, opcodeByte, Opcode.ofByte?_byte, short,
      decodeOperand_short hc, hn, htarget]
    rfl
  · cases h
    simp only [decode, (getElem?_of_drop hc).1, opcodeByte, Opcode.ofByte?_byte, wide,
      decodeOperand_wide hc target.toNat_lt, htarget]
    rfl

/-- **The bytes of an instruction are read as that instruction.** -/
theorem decode_encode (hi : i.IsProper) (h : i.encode? = some bytes)
    (hc : code.toList.drop pos = bytes ++ rest) :
    decode code pos = ⟨some i, pos + bytes.length⟩ := by
  cases i with
  | indexed family index => exact decode_indexed h hc
  | jump condition target => exact decode_jump h hc
  | op o =>
    cases h
    exact decode_opcode hi hc

/-! ## Sequences -/

/-- Reading the code from one offset to another gives the instructions, one after the other. -/
inductive Decodes (code : Array UInt8) : (pos : Nat) → List Instruction → (stop : Nat) → Prop
  | nil (pos : Nat) : Decodes code pos [] pos
  | cons {pos next stop : Nat} {i : Instruction} {l : List Instruction}
      (hi : decode code pos = ⟨some i, next⟩) (hl : Decodes code next l stop) :
      Decodes code pos (i :: l) stop

theorem encodeAll_cons (i : Instruction) (l : List Instruction) :
    encodeAll? (i :: l) = i.encode?.bind fun b => (encodeAll? l).map (b ++ ·) := by
  unfold encodeAll?
  rw [List.mapM_cons]
  cases i.encode? with
  | none => rfl
  | some b => cases l.mapM Instruction.encode? <;> rfl

theorem encodeAll_append (l m : List Instruction) :
    encodeAll? (l ++ m) = (encodeAll? l).bind fun b => (encodeAll? m).map (b ++ ·) := by
  induction l with
  | nil => cases h : encodeAll? m <;> simp [h, show encodeAll? [] = some [] from rfl]
  | cons i l ih =>
    rw [List.cons_append, encodeAll_cons, encodeAll_cons, ih]
    cases i.encode? with
    | none => rfl
    | some b => cases encodeAll? l <;> cases encodeAll? m <;> simp

/-- **The bytes of a sequence are read as that sequence.** -/
theorem decodes_encodeAll (hl : ∀ i ∈ l, i.IsProper) (h : encodeAll? l = some bytes)
    (hc : code.toList.drop pos = bytes ++ rest) : Decodes code pos l (pos + bytes.length) := by
  induction l generalizing pos bytes with
  | nil =>
    cases h
    exact .nil pos
  | cons i l ih =>
    obtain ⟨hi, hl⟩ := List.forall_mem_cons.1 hl
    rw [encodeAll_cons] at h
    obtain ⟨first, hfirst, h⟩ := Option.bind_eq_some_iff.1 h
    obtain ⟨more, hmore, rfl⟩ := Option.map_eq_some_iff.1 h
    rw [List.append_assoc] at hc
    refine .cons (decode_encode hi hfirst hc) ?_
    have hc' : code.toList.drop (pos + first.length) = more ++ rest := by
      rw [← List.drop_drop, hc, List.drop_left]
    rw [List.length_append, ← Nat.add_assoc]
    exact ih hl hmore hc'

end BlockLang
