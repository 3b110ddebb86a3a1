import BlockLang.Proofs.Code.Faithful
import BlockLang.Proofs.Simulation

/-!
# Code appended to code

Code is written by appending one instruction after the other to what is there already, and read by
going from the end of one instruction to the next.

**Theorem (`decodes_appendAll`).** Instructions that fit are appended to any code, and reading from
the old end gives exactly these instructions and ends at the new end, whatever follows. An instruction
whose slot does not fit into two bytes is not appended, and leaves the code as it was.

The bytes of one instruction are never a part of another's: each is read as it was written whatever
stands behind (`decode_encode`), so the reader is at the beginning of an instruction at each turn.
Nothing else can be read up to the same end, since the instruction at an offset is determined and
reading it moves on (`Decodes.unique`).
-/

namespace BlockLang

variable {code old : Array UInt8} {pos stop : Nat} {i : Instruction} {l m : List Instruction}
  {bytes : List UInt8}

/-! ## Writing -/

namespace Instruction

/-- Instructions that can be written and are read back: an index has two bytes at most, and an opcode
that stands by itself has no operand. -/
def IsWritable : Instruction → Prop
  | indexed _ index => index ≤ 0xFFFF
  | jump .. => True
  | op opcode => opcode.jump? = none

instance : DecidablePred IsWritable
  | indexed _ index => inferInstanceAs (Decidable (index ≤ 0xFFFF))
  | jump .. => inferInstanceAs (Decidable True)
  | op opcode => inferInstanceAs (Decidable (opcode.jump? = none))

theorem IsWritable.isProper (h : i.IsWritable) : i.IsProper := by
  cases i with
  | op => exact h
  | indexed | jump => exact trivial

/-- Appends the instruction to the code, or leaves the code as it is. -/
def append (i : Instruction) : ExceptT CodeError (StateM (Array UInt8)) Unit :=
  match i.encode? with
  | some bytes => modify (· ++ bytes.toArray)
  | none => throw .tooManyConstants

theorem run_append_some (h : i.encode? = some bytes) (code : Array UInt8) :
    i.append.run.run code = (.ok (), code ++ bytes.toArray) := by
  rw [append, h]
  rfl

theorem run_append_none (h : i.encode? = none) (code : Array UInt8) :
    i.append.run.run code = (.error .tooManyConstants, code) := by
  rw [append, h]
  rfl

end Instruction

/-- Appends instructions, one after the other, up to the first that cannot be. -/
def appendAll (l : List Instruction) : ExceptT CodeError (StateM (Array UInt8)) Unit :=
  forM l Instruction.append

theorem run_appendAll_cons (i : Instruction) (l : List Instruction) (code : Array UInt8) :
    (appendAll (i :: l)).run.run code =
      match i.append.run.run code with
      | (.ok _, after) => (appendAll l).run.run after
      | (.error e, after) => (.error e, after) := by
  rw [appendAll, List.forM_cons, run_bind]
  obtain ⟨_ | _, _⟩ := i.append.run.run code <;> rfl

theorem run_appendAll_some (h : encodeAll? l = some bytes) (code : Array UInt8) :
    (appendAll l).run.run code = (.ok (), code ++ bytes.toArray) := by
  induction l generalizing bytes code with
  | nil =>
    cases h
    exact congrArg (Prod.mk _) code.append_empty.symm
  | cons i l ih =>
    rw [encodeAll_cons] at h
    obtain ⟨first, hfirst, h⟩ := Option.bind_eq_some_iff.1 h
    obtain ⟨more, hmore, rfl⟩ := Option.map_eq_some_iff.1 h
    rw [run_appendAll_cons, i.run_append_some hfirst]
    simp only [ih hmore, Array.append_assoc, List.append_toArray]

theorem run_appendAll_none (h : encodeAll? l = none) (code : Array UInt8) :
    ((appendAll l).run.run code).1 = .error .tooManyConstants := by
  induction l generalizing code with
  | nil => cases h
  | cons i l ih =>
    rw [run_appendAll_cons]
    cases hi : i.encode? with
    | none => rw [i.run_append_none hi]
    | some first =>
      rw [i.run_append_some hi]
      rw [encodeAll_cons, hi] at h
      exact ih (Option.map_eq_none_iff.1 h) _

/-- The code of call trees is what their instructions append to empty code. -/
theorem ofCalls_eq_appendAll (trees : List CallTree) :
    CodeUnit.ofCalls trees =
      let assembly := Assembly.ofCalls trees
      let (written, code) := (appendAll assembly.instructions.toList).run.run #[]
      written.map fun _ => { constants := assembly.constants, code } := by
  simp only [CodeUnit.ofCalls]
  cases h : encodeAll? (Assembly.ofCalls trees).instructions.toList with
  | some bytes => simp [run_appendAll_some h, Except.map]
  | none =>
    have hwritten := run_appendAll_none h #[]
    generalize (appendAll (Assembly.ofCalls trees).instructions.toList).run.run #[] = r at hwritten ⊢
    obtain ⟨written, code⟩ := r
    cases hwritten
    rfl

/-! ## Reading -/

/-- Reads the given number of instructions, and tells at which offset reading ended. -/
def decodeMany (code : Array UInt8) : (count pos : Nat) → Option (List Instruction × Nat)
  | 0, pos => some ([], pos)
  | count + 1, pos =>
    match decode code pos with
    | ⟨some i, next⟩ => (decodeMany code count next).map fun (l, stop) => (i :: l, stop)
    | ⟨none, _⟩ => none

theorem Decodes.decodeMany_eq (h : Decodes code pos l stop) :
    decodeMany code l.length pos = some (l, stop) := by
  induction h with
  | nil pos => rfl
  | cons hi _ ih => simp only [List.length_cons, decodeMany, hi, ih, Option.map_some]

theorem lt_of_decode {next : Nat} (h : decode code pos = ⟨some i, next⟩) : pos < next := by
  have operand {wide : Bool} {make : Nat → Instruction}
      (h : decodeOperand code pos wide make = ⟨some i, next⟩) : pos < next := by
    unfold decodeOperand at h
    split at h
    · cases h
      cases wide <;> simp
    · cases h
  unfold decode at h
  grind

theorem Decodes.le (h : Decodes code pos l stop) : pos ≤ stop := by
  induction h with
  | nil => exact Nat.le_refl _
  | cons hi _ ih => exact Nat.le_trans (Nat.le_of_lt (lt_of_decode hi)) ih

/-- At most one sequence of instructions is read between two offsets. -/
theorem Decodes.unique (hl : Decodes code pos l stop) (hm : Decodes code pos m stop) : m = l := by
  induction hl generalizing m with
  | nil pos =>
    cases hm with
    | nil => rfl
    | cons hi hm => exact absurd hm.le (Nat.not_le.2 (lt_of_decode hi))
  | cons hi hl ih =>
    cases hm with
    | nil => exact absurd hl.le (Nat.not_le.2 (lt_of_decode hi))
    | cons hi' hm =>
      cases hi.symm.trans hi'
      rw [ih hm]

/-! ## Written and read back -/

theorem encodeAll_of_writable (hl : ∀ i ∈ l, i.IsWritable) : ∃ bytes, encodeAll? l = some bytes := by
  rw [← Option.isSome_iff_exists, Option.isSome_iff_ne_none]
  intro h
  obtain ⟨family, index, hi, hlarge⟩ := encodeAll_eq_none_iff.1 h
  have : index ≤ 0xFFFF := hl _ hi
  omega

/-- **What is appended to code is read back from its old end.** -/
theorem decodes_appendAll (l : List Instruction) (hl : ∀ i ∈ l, i.IsWritable) (old : Array UInt8) :
    (∃ bytes, encodeAll? l = some bytes ∧
      (appendAll l).run.run old = (.ok (), old ++ bytes.toArray) ∧
      ∀ rest : Array UInt8,
        let code := old ++ bytes.toArray ++ rest
        let stop := (old ++ bytes.toArray).size
        decodeMany code l.length old.size = some (l, stop) ∧
          ∀ m, Decodes code old.size m stop ↔ m = l) ∧
    ∀ (family : Family) (index : Nat), 0xFFFF < index →
      (Instruction.indexed family index).append.run.run old = (.error .tooManyConstants, old) := by
  constructor
  · obtain ⟨bytes, hbytes⟩ := encodeAll_of_writable hl
    refine ⟨bytes, hbytes, run_appendAll_some hbytes old, fun rest => ?_⟩
    intro code stop
    have hc : code.toList.drop old.size = bytes ++ rest.toList := by
      simp [code, ← Array.length_toList]
    have hstop : old.size + bytes.length = stop := by simp [stop]
    have hread : Decodes code old.size l stop :=
      hstop ▸ decodes_encodeAll (fun i hi => (hl i hi).isProper) hbytes hc
    refine ⟨hread.decodeMany_eq, fun m => ⟨hread.unique, ?_⟩⟩
    rintro rfl
    exact hread
  · intro family index hlarge
    exact Instruction.run_append_none
      (Instruction.encode_eq_none_iff.2 ⟨family, index, rfl, hlarge⟩) old

/-- Slots in all three forms and targets in both, behind a byte that promises an operand and before
one that does. -/
theorem decodes_appendAll_mixed :
    let l : List Instruction := [.indexed .push 13, .indexed .attr 14, .indexed .call 0xFFFF,
      .jump .ifFalse 0xFF, .jump .always 0x100, .op .stop]
    let new : Array UInt8 := #[0x5F, 0x0D, 0x5E, 0x0E, 0x4F, 0xFF, 0xFF, Opcode.jumpUnless.byte, 0xFF,
      Opcode.jumpWide.byte, 0x01, 0x00, Opcode.stop.byte]
    (∀ i ∈ l, i.IsWritable) ∧ (appendAll l).run.run #[0x5F] = (.ok (), new) ∧
      decodeMany (new ++ #[0x5F]) 6 1 = some (l, 13) ∧
      (Instruction.indexed .load 0x10000).append.run.run #[0x5F] =
        (.error .tooManyConstants, #[0x5F]) := by
  intro l new
  have hl : ∀ i ∈ l, i.IsWritable := by decide
  obtain ⟨⟨bytes, hbytes, hwritten, hread⟩, hfails⟩ := decodes_appendAll l hl #[0x5F]
  have hnew : some bytes = some (new.toList.drop 1) := hbytes.symm.trans (by decide)
  cases hnew
  exact ⟨hl, hwritten, (hread #[0x5F]).1, hfails .load 0x10000 (by decide)⟩

end BlockLang
