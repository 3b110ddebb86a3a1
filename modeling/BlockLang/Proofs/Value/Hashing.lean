import BlockLang.Proofs.Value.Contents
import BlockLang.Proofs.Value.Identity
import Mathlib.Data.Set.Function
import Mathlib.Logic.Embedding.Basic
import Mathlib.Logic.Equiv.List

/-!
# Hashing of constants

What a value writes to a hasher is the position of its kind, and then what it holds (`Value.writes`).
Names and shared objects are written as numbers (`Numbering`), a string as its bytes with one more behind
them, and what has items says first how many.

**Theorem (`same_hashed`).** Sameness is an equivalence, and two values make the same writes exactly if
they are the same. So a hasher that tells apart what two lists of values write gives them the same hash
exactly if the lists are the same, position by position.

**Streams.** A hasher may forget how wide a number was and where some bytes ended. The values can be told
apart even then: in the stream of all numbers written (`stream`), what belongs to a value ends on its
own, whatever comes next (`stream_append_iff`). The position of the kind says how to read on; a length
says how many values to read; and a string ends at the byte that no text contains (`ne_of_mem_utf8`).
-/

namespace BlockLang

/-- The numbers under which a hasher sees names and shared objects. Each name has one of its own, and so
has each dictionary, each function and each unit of code. -/
structure Numbering where
  name : String ↪ Nat
  dictionary : DictionaryRef ↪ Nat
  function : FunctionRef ↪ Nat
  code : CodeRef ↪ Nat

/-- The number of a name where names are numbered in the order in which they were first seen. All names
not seen yet come behind them. -/
def nameNumber (names : List String) (s : String) : Nat :=
  if s ∈ names then names.idxOf s else names.length + Encodable.encode (s.toList.map Char.toNat)

theorem nameNumber_injective (names : List String) : Function.Injective (nameNumber names) := by
  intro s t h
  unfold nameNumber at h
  by_cases hs : s ∈ names
  · have hbefore : names.idxOf s < names.length := List.idxOf_lt_length_iff.2 hs
    rw [if_pos hs] at h
    split_ifs at h with ht
    · exact (List.idxOf_inj hs).1 h
    · omega
  · rw [if_neg hs] at h
    split_ifs at h with ht
    · have hbefore : names.idxOf t < names.length := List.idxOf_lt_length_iff.2 ht
      omega
    · have hcodes : s.toList.map Char.toNat = t.toList.map Char.toNat :=
        Encodable.encode_injective (Nat.add_left_cancel h)
      exact String.toList_inj.1 (List.map_injective_iff.2 (fun _ _ => Char.toNat_inj.1) hcodes)

/-- Names are numbered as they are first seen, shared objects as they are made. -/
def Numbering.ofNames (names : List String) : Numbering where
  name := ⟨nameNumber names, nameNumber_injective names⟩
  dictionary := ⟨DictionaryRef.index, fun ⟨_⟩ ⟨_⟩ h => congrArg _ h⟩
  function := ⟨FunctionRef.index, fun ⟨_⟩ ⟨_⟩ h => congrArg _ h⟩
  code := ⟨CodeRef.index, fun ⟨_⟩ ⟨_⟩ h => congrArg _ h⟩

/-- One write to a hasher. -/
inductive Write where
  /-- Where a constructor stands in its type. -/
  | position (i : Nat)
  /-- A length, or the number of a shared object. -/
  | size (n : Nat)
  /-- The number of a name or of a line, which has half the width. -/
  | number (n : Nat)
  | integer (n : Int64)
  /-- The pattern of a floating point number. -/
  | bits (b : UInt64)
  | byte (b : UInt8)
  | bytes (l : List UInt8)
deriving DecidableEq, Repr

/-- The numbers in a write, without their width. -/
def Write.numbers : Write → List Int
  | position n | size n | number n => [n]
  | integer n => [n.toInt]
  | bits b => [b.toNat]
  | byte b => [b.toNat]
  | bytes l => l.map fun b => b.toNat

/-- The numbers in a sequence of writes, one after the other. -/
def stream (l : List Write) : List Int := l.flatMap Write.numbers

namespace Value

/-- The bytes of a text. -/
def utf8 (s : String) : List UInt8 := s.toUTF8.data.toList

mutual

/-- What a value writes behind the position of its kind. -/
def content (numbering : Numbering) : Value → List Write
  | null => []
  | logical b => [.byte b.toUInt8]
  | integer n => [.integer n]
  | floating x => [.bits x.bits]
  | rational q => [.integer q.numer, .integer q.denom]
  | string s => [.bytes (utf8 s), .byte 0xFF]
  | word s | literal s | label s | attr s | attrLabel s => [.number (numbering.name s)]
  | symbol s => [.position s.ctorIdx]
  | path items | pathLabel items | block items _ | inline items =>
    .size items.length :: writesAll numbering items
  | dictionary ref => [.size (numbering.dictionary ref)]
  | function ref => [.size (numbering.function ref)]
  | bytecode ref => [.size (numbering.code ref)]
  | newline line => [.number line]

/-- What values write, one after the other. -/
def writesAll (numbering : Numbering) : List Value → List Write
  | [] => []
  | v :: l => .position v.kind.ctorIdx :: (content numbering v ++ writesAll numbering l)

end

/-- What a value writes. -/
def writes (numbering : Numbering) (v : Value) : List Write :=
  .position v.kind.ctorIdx :: content numbering v

/-- What a list of values writes when its fingerprint is taken: the values, and then how many there
are. -/
def listWrites (numbering : Numbering) (l : List Value) : List Write :=
  writesAll numbering l ++ [.size l.length]

end Value

/-! ## Streams -/

@[simp] theorem stream_nil : stream [] = [] := rfl

@[simp] theorem stream_cons (x : Write) (l : List Write) : stream (x :: l) = x.numbers ++ stream l := rfl

@[simp] theorem stream_append (l m : List Write) : stream (l ++ m) = stream l ++ stream m :=
  List.flatMap_append

namespace Value

variable {numbering : Numbering} {v w : Value} {l m : List Value}

theorem ctorIdx_kind_inj {k k' : Kind} : k.ctorIdx = k'.ctorIdx ↔ k = k' := by
  refine ⟨fun h => ?_, congrArg _⟩
  rw [← Kind.ofNat_ctorIdx k, h, Kind.ofNat_ctorIdx]

theorem ctorIdx_symbol_inj {s s' : Symbol} : s.ctorIdx = s'.ctorIdx ↔ s = s' := by
  refine ⟨fun h => ?_, congrArg _⟩
  rw [← Symbol.ofNat_ctorIdx s, h, Symbol.ofNat_ctorIdx]

theorem utf8_inj {s t : String} : utf8 s = utf8 t ↔ s = t := by
  refine ⟨fun h => ?_, congrArg _⟩
  exact String.toByteArray_inj.1 (ByteArray.ext (Array.toList_inj.1 h))

theorem ofNat_ne_last {n : Nat} (hn : n < 0xFF) : UInt8.ofNat n ≠ 0xFF := by
  intro h
  have h := congrArg UInt8.toNat h
  rw [UInt8.toNat_ofNat'] at h
  have : n % 2 ^ 8 = 0xFF := h
  omega

/-- **No text contains the byte that ends it.** -/
theorem ne_of_mem_utf8 {s : String} {b : UInt8} (hb : b ∈ utf8 s) : b ≠ 0xFF := by
  have hs : utf8 s = s.toList.flatMap String.utf8EncodeChar := by
    rw [utf8, String.toUTF8, ← String.utf8Encode_toList, List.utf8Encode, List.toList_data_toByteArray]
  rw [hs, List.mem_flatMap] at hb
  obtain ⟨c, -, hc⟩ := hb
  simp only [String.utf8EncodeChar] at hc
  split_ifs at hc <;> simp only [List.mem_cons, List.not_mem_nil, or_false] at hc
  · subst hc
    exact ofNat_ne_last (by omega)
  · rcases hc with rfl | rfl <;> exact ofNat_ne_last (by omega)
  · rcases hc with rfl | rfl | rfl <;> exact ofNat_ne_last (by omega)
  · rcases hc with rfl | rfl | rfl | rfl <;> exact ofNat_ne_last (by omega)

/-- Two lists without an element that ends both. -/
theorem append_ending_iff {α : Type} {x : α} {l m a b : List α} (hl : x ∉ l) (hm : x ∉ m) :
    l ++ x :: a = m ++ x :: b ↔ l = m ∧ a = b := by
  induction l generalizing m with
  | nil => cases m <;> simp_all [eq_comm]
  | cons y l ih =>
    cases m with
    | nil => simp_all [eq_comm]
    | cons z m =>
      simp only [List.mem_cons, not_or] at hl hm
      simp [ih hl.2 hm.2, and_assoc]

/-- In a stream, a text ends at its last byte. -/
theorem utf8_append_iff {s t : String} {a b : List Int} :
    stream [.bytes (utf8 s), .byte 0xFF] ++ a = stream [.bytes (utf8 t), .byte 0xFF] ++ b ↔
      s = t ∧ a = b := by
  have hinj : Function.Injective fun b : UInt8 => (b.toNat : Int) :=
    fun _ _ h => UInt8.toNat_inj.1 (Int.natCast_inj.1 h)
  have hnew (s : String) : ((0xFF : UInt8).toNat : Int) ∉ (utf8 s).map fun b => (b.toNat : Int) := by
    intro h
    obtain ⟨b, hb, hlast⟩ := List.mem_map.1 h
    exact ne_of_mem_utf8 hb (hinj hlast)
  simp only [stream_cons, stream_nil, Write.numbers, List.append_nil, List.append_assoc,
    List.singleton_append]
  rw [append_ending_iff (hnew s) (hnew t), List.map_inj_right fun _ _ h => hinj h, utf8_inj]

theorem writesAll_cons (numbering : Numbering) (v : Value) (l : List Value) :
    writesAll numbering (v :: l) = writes numbering v ++ writesAll numbering l := rfl

theorem stream_writes (numbering : Numbering) (v : Value) :
    stream (writes numbering v) = (v.kind.ctorIdx : Int) :: stream (content numbering v) := rfl

/-- Values of different kinds already differ in the first number. -/
theorem stream_writes_append_iff {a b : List Int}
    (h : v.kind = w.kind →
      (stream (content numbering v) ++ a = stream (content numbering w) ++ b ↔ same v w ∧ a = b)) :
    stream (writes numbering v) ++ a = stream (writes numbering w) ++ b ↔ same v w ∧ a = b := by
  rw [stream_writes, stream_writes, List.cons_append, List.cons_append, List.cons.injEq,
    Int.natCast_inj, ctorIdx_kind_inj]
  by_cases hk : v.kind = w.kind
  · simp only [hk, true_and, h hk]
  · simp only [hk, false_and, false_iff]
    exact fun hs => hk (same_kind_eq hs.1)

mutual

/-- What a value writes behind the position of its kind ends on its own. -/
theorem content_append_iff : (v w : Value) → v.kind = w.kind → ∀ a b,
    stream (content numbering v) ++ a = stream (content numbering w) ++ b ↔ same v w ∧ a = b
  | path l, w | pathLabel l, w | block l _, w | inline l, w => fun hk a b => by
    all_goals
      cases w <;> cases hk
      simp only [content, stream_cons, Write.numbers, same, List.cons_append, List.nil_append,
        List.cons.injEq, Int.natCast_inj]
      -- The length comes first, so what follows is read as equally many values.
      exact ⟨fun ⟨hl, h⟩ => (writesAll_append_iff l _ hl a b).1 h, fun h =>
        ⟨sameAll_length l _ h.1, (writesAll_append_iff l _ (sameAll_length l _ h.1) a b).2 h⟩⟩
  | string s, w => fun hk a b => by
    cases w <;> cases hk
    rw [content, content, utf8_append_iff]
    simp [same]
  | logical x, w => fun hk a b => by
    cases w <;> cases hk
    case logical y => cases x <;> cases y <;> simp [content, same, Write.numbers, Bool.toUInt8]
  | floating x, w => fun hk a b => by
    obtain ⟨x⟩ := x
    cases w <;> cases hk
    case floating y =>
      obtain ⟨y⟩ := y
      simp [content, same, Write.numbers, Int.natCast_inj, UInt64.toNat_inj]
  | rational q, w => fun hk a b => by
    obtain ⟨n, d, _, _⟩ := q
    cases w <;> cases hk
    case rational r =>
      obtain ⟨n', d', _, _⟩ := r
      simp [content, same, Write.numbers, and_assoc, Int64.toInt_inj]
  | integer x, w => fun hk a b => by
    cases w <;> cases hk
    simp [content, same, Write.numbers, Int64.toInt_inj]
  | null, w | word _, w | literal _, w | label _, w | attr _, w | attrLabel _, w | symbol _, w
  | newline _, w | dictionary _, w | function _, w | bytecode _, w => fun hk a b => by
    all_goals
      cases w <;> cases hk
      simp [content, same, Write.numbers, Int.natCast_inj, ctorIdx_symbol_inj]

/-- Equally many values end on their own. -/
theorem writesAll_append_iff : (l m : List Value) → l.length = m.length → ∀ a b,
    stream (writesAll numbering l) ++ a = stream (writesAll numbering m) ++ b ↔ sameAll l m ∧ a = b
  | [], [], _, a, b => by simp [writesAll, sameAll]
  | v :: l, w :: m, hl, a, b => by
    rw [writesAll_cons, writesAll_cons, stream_append, stream_append, List.append_assoc,
      List.append_assoc, stream_writes_append_iff fun hk => content_append_iff v w hk _ _,
      writesAll_append_iff l m (Nat.succ.inj hl)]
    simp [sameAll, and_assoc]

end

/-- **In a stream, the writes of a value end on their own**, and tell it from all that are not the
same. -/
theorem stream_append_iff {a b : List Int} :
    stream (writes numbering v) ++ a = stream (writes numbering w) ++ b ↔ same v w ∧ a = b :=
  stream_writes_append_iff fun hk => content_append_iff v w hk a b

/-! ## Same values, same writes -/

theorem kind_static (v : Value) : v.static.kind = v.kind := by
  cases v <;> rfl

theorem length_staticAll (l : List Value) : (staticAll l).length = l.length := by
  induction l with
  | nil => rfl
  | cons v l ih => simp [staticAll, ih]

mutual

/-- Whether blocks are dynamic is not written. -/
theorem content_static (numbering : Numbering) : (v : Value) →
    content numbering v.static = content numbering v
  | path l | pathLabel l | block l _ | inline l => by
    all_goals rw [static, content, content, length_staticAll, writesAll_static numbering l]
  | null | logical _ | integer _ | floating _ | rational _ | string _ | word _ | literal _ | label _
  | attr _ | attrLabel _ | symbol _ | dictionary _ | function _ | bytecode _ | newline _ => rfl

theorem writesAll_static (numbering : Numbering) : (l : List Value) →
    writesAll numbering (staticAll l) = writesAll numbering l
  | [] => rfl
  | v :: l => by
    rw [staticAll, writesAll, writesAll, kind_static, content_static numbering v,
      writesAll_static numbering l]

end

theorem writes_static (numbering : Numbering) (v : Value) :
    writes numbering v.static = writes numbering v := by
  rw [writes, writes, kind_static, content_static]

/-- **Two values make the same writes exactly if they are the same.** -/
theorem writes_eq_iff : writes numbering v = writes numbering w ↔ same v w := by
  constructor
  · intro h
    have hstream : stream (writes numbering v) ++ [] = stream (writes numbering w) ++ [] := by rw [h]
    exact (stream_append_iff.1 hstream).1
  · intro hs
    have hstatic : v.static = w.static := (same_iff v w).1 hs
    rw [← writes_static numbering v, ← writes_static numbering w, hstatic]

/-- **Two lists make the same writes exactly if they are the same.** -/
theorem listWrites_eq_iff : listWrites numbering l = listWrites numbering m ↔ sameAll l m := by
  constructor
  · intro h
    -- The last write is the length, which says how many values the rest is to be read as.
    obtain ⟨hwrites, hsize⟩ := List.append_inj' h rfl
    have hlength : l.length = m.length := by simpa using hsize
    have hstream : stream (writesAll numbering l) ++ [] = stream (writesAll numbering m) ++ [] := by
      rw [hwrites]
    exact ((writesAll_append_iff l m hlength [] []).1 hstream).1
  · intro hs
    have hstatic : staticAll l = staticAll m := (sameAll_iff l m).1 hs
    rw [listWrites, listWrites, ← writesAll_static numbering l, ← writesAll_static numbering m, hstatic,
      sameAll_length l m hs]

/-- The marks of a fingerprint say no more and no less than the writes. -/
theorem fingerprint_eq_iff : fingerprint l = fingerprint m ↔ sameAll l m := by
  constructor
  · intro h
    obtain ⟨hmarks, hsize⟩ := List.append_inj' h rfl
    have hlength : l.length = m.length := by simpa using hsize
    have hmarks : marksAll l ++ [] = marksAll m ++ [] := by rw [hmarks]
    exact ((marksAll_append_iff l m hlength [] []).1 hmarks).1
  · intro hs
    have hlength := sameAll_length l m hs
    rw [fingerprint, fingerprint, hlength]
    exact (marksAll_append_iff l m hlength _ _).2 ⟨hs, rfl⟩

/-- **Sameness and hashing agree.** Sameness is an equivalence, two values make the same writes exactly if
they are the same, and a hasher that tells apart the sequences of writes that it is given gives two lists
of values the same hash exactly if the lists are the same. -/
theorem same_hashed (numbering : Numbering) :
    Equivalence (fun v w : Value => same v w) ∧
      (∀ v w : Value, writes numbering v = writes numbering w ↔ same v w) ∧
      (∀ l m : List Value, fingerprint l = fingerprint m ↔ sameAll l m) ∧
      ∀ {α : Type} (hash : List Write → α) (told : Set (List Write)), Set.InjOn hash told →
        ∀ l m : List Value, listWrites numbering l ∈ told → listWrites numbering m ∈ told →
          (hash (listWrites numbering l) = hash (listWrites numbering m) ↔ sameAll l m) := by
  have hequivalence : Equivalence fun v w : Value => same v w := ⟨same_refl, same_symm, same_trans⟩
  refine ⟨hequivalence, fun v w => writes_eq_iff, fun l m => fingerprint_eq_iff, ?_⟩
  intro α hash told hinj l m hl hm
  rw [hinj.eq_iff hl hm, listWrites_eq_iff]

/-- A hash into which each number is added and multiplied, of a block, of the same block built by a
program, and of a shorter block with the last item behind it. -/
theorem same_hashed_block :
    let numbering := Numbering.ofNames ["x"]
    let hash (l : List Write) : UInt64 :=
      (stream l).foldl (fun h n => (h + UInt64.ofInt n) * 0xF1357AEA2E62A9C5) 0
    let written := [block [word "x", integer 1] false, dictionary ⟨0⟩]
    let built := [block [word "x", integer 1] true, dictionary ⟨0⟩]
    let apart := [block [word "x"] false, integer 1, dictionary ⟨0⟩]
    let told : Set (List Write) := {listWrites numbering written, listWrites numbering apart}
    Set.InjOn hash told ∧ listWrites numbering built ∈ told ∧
      hash (listWrites numbering written) = hash (listWrites numbering built) ∧
      hash (listWrites numbering written) ≠ hash (listWrites numbering apart) := by
  intro numbering hash written built apart told
  have hne : hash (listWrites numbering written) ≠ hash (listWrites numbering apart) := by
    decide +kernel
  have hinj : Set.InjOn hash told := Set.injOn_pair.2 fun h => absurd h hne
  have hwritten : listWrites numbering written ∈ told := .inl rfl
  have hbuilt : listWrites numbering built ∈ told := .inl rfl
  obtain ⟨-, -, -, hashed⟩ := same_hashed numbering
  exact ⟨hinj, hbuilt, (hashed hash told hinj written built hwritten hbuilt).2 rfl, hne⟩

end Value

end BlockLang
