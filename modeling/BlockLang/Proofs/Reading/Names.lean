import BlockLang.Proofs.Reading.Paths

/-!
# The grammar of names and paths

What the lexer finds where a name begins: a name, or a name and the segments behind it. The lexer counts
characters; here the pieces are described by what they are made of, and the two descriptions are shown to be
the same.

- What is found is of that form (`isName_take`, `isSegment_take`, `exists_isTail`).
- A text of that form is found in front of whatever cannot continue it
  (`nameLength_append`, `segment?_append`, `restOfPath_append`).

So a name or a path can be cut out of a source text and is found again elsewhere; and a path is still one
when its indices are written without leading zeros (`IsTail.plain`).
-/

namespace BlockLang

namespace Token

/-! ## Names and digits -/

/-- What comes next does not belong to a name. -/
def Stops (l : List Char) : Prop := ∀ c ∈ l.head?, isNamePart c = false ∧ c ≠ '?'

/-- A name, which may end in a question mark. -/
inductive IsName : List Char → Prop
  | intro {c : Char} {part mark : List Char} : isNameStart c → (∀ d ∈ part, isNamePart d) →
      mark = [] ∨ mark = ['?'] → IsName (c :: (part ++ mark))

/-- A row of digits. -/
structure IsDigits (l : List Char) : Prop where
  ne_nil : l ≠ []
  digits : ∀ c ∈ l, c.isDigit

variable {l s tail : List Char} {c : Char} {slack next n : Nat} {isOpen : Bool}

theorem isNamePart_of_isNameStart (h : isNameStart c) : isNamePart c := by
  simp only [isNameStart, isNamePart, Bool.or_eq_true] at *
  exact h.imp_left fun h => by simp [Char.isAlphanum, h]

theorem isNamePart_of_isDigit (h : c.isDigit) : isNamePart c := by
  simp [isNamePart, Char.isAlphanum, h]

theorem isNameStart_eq_false_of_isDigit (h : c.isDigit) : isNameStart c = false := by
  have hne : c ≠ '_' := by
    rintro rfl
    revert h
    decide
  unfold isNameStart Char.isAlpha Char.isUpper Char.isLower Char.isDigit at *
  simp only [Bool.and_eq_true, decide_eq_true_eq, UInt32.le_iff_toNat_le, Bool.or_eq_false_iff,
    Bool.and_eq_false_iff, decide_eq_false_iff_not, beq_eq_false_iff_ne] at *
  have h57 : '9'.val.toNat = 57 := rfl
  have h65 : 'A'.val.toNat = 65 := rfl
  have h97 : 'a'.val.toNat = 97 := rfl
  exact ⟨⟨by omega, by omega⟩, hne⟩

theorem takeWhile_append_eq {p : Char → Bool} (hl : ∀ d ∈ l, p d) (htail : ∀ d ∈ tail.head?, p d = false) :
    (l ++ tail).takeWhile p = l := by
  rw [List.takeWhile_append_of_pos hl]
  cases tail with
  | nil => simp
  | cons d tail => simp [htail d rfl]

theorem nameLength_eq_zero (h : ∀ d ∈ l.head?, isNameStart d = false) : nameLength l = 0 := by
  cases l with
  | nil => rfl
  | cons d l => simp [nameLength, h d rfl]

theorem Stops.nameLength (h : Stops tail) : nameLength tail = 0 :=
  nameLength_eq_zero fun d hd => by
    have := mt (isNamePart_of_isNameStart (c := d)) (by simp [(h d hd).1])
    simpa using this

theorem Stops.digitsLength (h : Stops tail) : digitsLength tail = 0 := by
  cases tail with
  | nil => rfl
  | cons d tail =>
    have hd := mt (isNamePart_of_isDigit (c := d)) (by simp [(h d rfl).1])
    simp [Token.digitsLength, hd]

theorem IsName.ne_nil (h : IsName l) : l ≠ [] := by
  cases h
  exact List.cons_ne_nil _ _

/-- A name does not begin with a digit. -/
theorem IsName.not_isDigits (h : IsName l) : ¬ IsDigits l := by
  intro hd
  obtain @⟨c, part, mark, hc, -, -⟩ := h
  rw [isNameStart_eq_false_of_isDigit (hd.digits c List.mem_cons_self)] at hc
  cases hc

/-- A name is found whole in front of what does not belong to it. -/
theorem nameLength_append (h : IsName l) (ht : Stops tail) : nameLength (l ++ tail) = l.length := by
  obtain @⟨c, part, mark, hc, hpart, hmark⟩ := h
  have hwhile : (part ++ mark ++ tail).takeWhile isNamePart = part := by
    rw [List.append_assoc]
    refine takeWhile_append_eq hpart fun d hd => ?_
    rcases hmark with rfl | rfl
    · exact (ht d hd).1
    · obtain rfl : '?' = d := by simpa using hd
      decide
  have hnext : (part ++ mark ++ tail)[part.length]? = (mark ++ tail).head? := by
    rw [List.append_assoc, List.getElem?_append_right (Nat.le_refl _), Nat.sub_self,
      List.head?_eq_getElem?]
  rw [List.cons_append, Token.nameLength, if_pos hc]
  dsimp only
  rw [hwhile, hnext]
  rcases hmark with rfl | rfl
  · have : tail.head? ≠ some '?' := fun he => (ht '?' he).2 rfl
    simp [this]
    omega
  · simp
    omega

/-- What is found as a name is one. -/
theorem isName_take (h : nameLength l ≠ 0) :
    IsName (l.take (nameLength l)) ∧ nameLength l ≤ l.length := by
  cases l with
  | nil => exact absurd rfl h
  | cons c l =>
    have hc : isNameStart c := by
      by_contra hc
      exact h (nameLength_eq_zero fun d hd => by
        obtain rfl : c = d := by simpa using hd
        simpa using hc)
    have hpart : l.take (l.takeWhile isNamePart).length = l.takeWhile isNamePart :=
      (List.prefix_iff_eq_take.1 (List.takeWhile_prefix isNamePart)).symm
    have hle : (l.takeWhile isNamePart).length ≤ l.length :=
      (List.takeWhile_prefix isNamePart).length_le
    have hall : ∀ d ∈ l.takeWhile isNamePart, isNamePart d := fun d => List.mem_takeWhile_imp
    rw [nameLength, if_pos hc]
    dsimp only
    by_cases hmark : l[(l.takeWhile isNamePart).length]? = some '?'
    · have hlt : (l.takeWhile isNamePart).length < l.length := (List.getElem?_eq_some_iff.1 hmark).1
      rw [if_pos hmark, Nat.add_comm 1, Nat.add_right_comm, List.take_succ_cons, List.take_add_one,
        hpart, hmark]
      exact ⟨.intro hc hall (.inr rfl), Nat.succ_le_succ hlt⟩
    · have hname : IsName (c :: (l.takeWhile isNamePart ++ [])) := .intro hc hall (.inl rfl)
      rw [if_neg hmark, Nat.add_zero, Nat.add_comm, List.take_succ_cons, hpart]
      exact ⟨by simpa using hname, by simpa using hle⟩

theorem IsDigits.nameLength_append (h : IsDigits l) : nameLength (l ++ tail) = 0 := by
  refine nameLength_eq_zero fun d hd => ?_
  obtain ⟨c, l, rfl⟩ := List.exists_cons_of_ne_nil h.ne_nil
  obtain rfl : c = d := by simpa using hd
  exact isNameStart_eq_false_of_isDigit (h.digits c List.mem_cons_self)

theorem digitsLength_append (h : ∀ c ∈ l, c.isDigit) (ht : ∀ d ∈ tail.head?, d.isDigit = false) :
    digitsLength (l ++ tail) = l.length := by
  rw [Token.digitsLength, takeWhile_append_eq h ht]

theorem isDigits_take (h : digitsLength l ≠ 0) :
    IsDigits (l.take (digitsLength l)) ∧ digitsLength l ≤ l.length := by
  have htake : l.take (digitsLength l) = l.takeWhile Char.isDigit :=
    (List.prefix_iff_eq_take.1 (List.takeWhile_prefix Char.isDigit)).symm
  refine ⟨?_, (List.takeWhile_prefix Char.isDigit).length_le⟩
  rw [htake]
  exact ⟨fun hnil => h (by rw [digitsLength, hnil]; rfl), fun c => List.mem_takeWhile_imp⟩

theorem Stops.not_isDigit (h : Stops tail) : ∀ d ∈ tail.head?, d.isDigit = false := fun d hd => by
  have := mt (isNamePart_of_isDigit (c := d)) (by simp [(h d hd).1])
  simpa using this

/-! ## Segments -/

/-- A segment, when `slack` segments may be left empty; how many may be behind it. -/
inductive IsSegment : (slack : Nat) → List Char → (next : Nat) → Prop
  | name {slack : Nat} {s : List Char} : IsName s → IsSegment slack s 2
  | digits {slack : Nat} {s : List Char} : IsDigits s → IsSegment slack s 1
  | lastEmpty : IsSegment 1 [] 0
  | empty {slack : Nat} : IsSegment (slack + 2) [] (slack + 1)
  | mark {slack : Nat} : IsSegment (slack + 2) ['?'] (slack + 1)

theorem segment?_of_name (h : nameLength l ≠ 0) : segment? slack l = some (nameLength l, 2) := by
  unfold segment?
  split <;> simp_all

theorem segment?_of_digits (h : nameLength l = 0) (hd : digitsLength l ≠ 0) :
    segment? slack l = some (digitsLength l, 1) := by
  unfold segment?
  split <;> simp_all

/-- A segment is found whole in front of what does not belong to it. -/
theorem segment?_append (h : IsSegment slack s next) (ht : Stops tail) :
    segment? slack (s ++ tail) = some (s.length, next) := by
  cases h with
  | name hs =>
    have hlength := nameLength_append hs ht
    rw [segment?_of_name (hlength ▸ mt List.length_eq_zero_iff.1 hs.ne_nil), hlength]
  | digits hs =>
    have hlength := digitsLength_append hs.digits ht.not_isDigit
    rw [segment?_of_digits hs.nameLength_append
      (hlength ▸ mt List.length_eq_zero_iff.1 hs.ne_nil), hlength]
  | lastEmpty => simp [segment?, ht.nameLength, ht.digitsLength]
  | empty =>
    have : tail.head? ≠ some '?' := fun he => (ht '?' he).2 rfl
    simp [segment?, ht.nameLength, ht.digitsLength, this]
  | mark =>
    have hname : nameLength ('?' :: tail) = 0 := rfl
    have hdigits : digitsLength ('?' :: tail) = 0 := rfl
    simp [segment?, hname, hdigits]

theorem segment?_zero_of_stops (ht : Stops tail) : segment? 0 tail = none := by
  simp [segment?, ht.nameLength, ht.digitsLength]

/-- What is found as a segment is one. -/
theorem isSegment_take (h : segment? slack l = some (n, next)) :
    IsSegment slack (l.take n) next ∧ n ≤ l.length := by
  by_cases hname : nameLength l = 0
  · by_cases hdigits : digitsLength l = 0
    · unfold segment? at h
      rw [hname, hdigits] at h
      match slack, h with
      | 1, h =>
        cases h
        exact ⟨.lastEmpty, Nat.zero_le _⟩
      | slack + 2, h =>
        cases h
        split
        · next hmark =>
          obtain ⟨tail, rfl⟩ := List.head?_eq_some_iff.1 hmark
          exact ⟨.mark, by simp⟩
        · exact ⟨.empty, Nat.zero_le _⟩
    · cases (segment?_of_digits hname hdigits).symm.trans h
      exact (isDigits_take hdigits).imp_left .digits
  · cases (segment?_of_name hname).symm.trans h
    exact (isName_take hname).imp_left .name

/-! ## Paths -/

/-- Segments, each behind its backslash. -/
def joined (segments : List (List Char)) : List Char := segments.flatMap ('\\' :: ·)

/-- Segments that end on their own: behind a backslash that nothing follows, the path is closed. -/
inductive IsTail : (slack : Nat) → List (List Char) → (isOpen : Bool) → Prop
  | nil {slack : Nat} : IsTail slack [] true
  | cons {slack next : Nat} {s : List Char} {rest : List (List Char)} {isOpen : Bool} :
      IsSegment slack s next → IsTail next rest isOpen → IsTail slack (s :: rest) isOpen
  | closed : IsTail 0 [[]] false

/-- What comes next belongs neither to a name nor to a path. -/
structure Ends (l : List Char) : Prop where
  stops : Stops l
  ne_backslash : l.head? ≠ some '\\'

variable {segments : List (List Char)}

theorem joined_cons_append (s : List Char) (segments : List (List Char)) (tail : List Char) :
    joined (s :: segments) ++ tail = '\\' :: (s ++ (joined segments ++ tail)) := by
  simp [joined]

theorem length_joined_cons (s : List Char) (segments : List (List Char)) :
    (joined (s :: segments)).length = s.length + (joined segments).length + 1 := by
  simp [joined]

/-- A backslash stops a name, whatever comes behind. -/
theorem stops_joined_cons (s : List Char) (segments : List (List Char)) (tail : List Char) :
    Stops (joined (s :: segments) ++ tail) := by
  rw [joined_cons_append]
  rintro c ⟨⟩
  decide

theorem stops_joined (ht : Stops tail) (segments : List (List Char)) :
    Stops (joined segments ++ tail) := by
  cases segments with
  | nil => exact ht
  | cons s segments => exact stops_joined_cons s segments tail

/-- Characters that are still to come belong to the path. -/
theorem restOfPath_pending (h : n ≤ l.length) : restOfPath slack n l =
    (n + (restOfPath slack 0 (l.drop n)).1, (restOfPath slack 0 (l.drop n)).2) := by
  induction n generalizing l with
  | zero => simp
  | succ n ih =>
    cases l with
    | nil => cases h
    | cons c l =>
      rw [restOfPath, ih (Nat.le_of_succ_le_succ h), List.drop_succ_cons]
      simp only [Prod.mk.injEq, and_true]
      omega

/-- Segments are found whole in front of what does not belong to a path. -/
theorem restOfPath_append (h : IsTail slack segments isOpen) (ht : Ends tail) :
    restOfPath slack 0 (joined segments ++ tail) = ((joined segments).length, isOpen) := by
  induction h with
  | nil =>
    cases tail with
    | nil => rfl
    | cons c tail =>
      have hc : c ≠ '\\' := fun hc => ht.ne_backslash (congrArg some hc)
      simp [joined, restOfPath, hc]
  | @cons slack next s rest isOpen hs _ ih =>
    have hfound := segment?_append hs (stops_joined ht.stops rest)
    rw [joined_cons_append, restOfPath, if_pos rfl, hfound]
    dsimp only
    rw [restOfPath_pending (by simp), List.drop_left, ih, length_joined_cons]
  | closed =>
    have hnone := segment?_zero_of_stops ht.stops
    rw [show joined [[]] ++ tail = '\\' :: tail from rfl, restOfPath, if_pos rfl, hnone]
    rfl

theorem eq_zero_of_segment?_none (h : segment? slack l = none) : slack = 0 := by
  unfold segment? at h
  split at h <;> first | rfl | cases h

/-- What is found behind a segment are segments. -/
theorem exists_isTail (slack : Nat) (l : List Char) :
    ∃ segments, l.take (restOfPath slack 0 l).1 = joined segments ∧
      IsTail slack segments (restOfPath slack 0 l).2 := by
  match l with
  | [] => exact ⟨[], rfl, .nil⟩
  | c :: l =>
    by_cases hc : c = '\\'
    · subst hc
      rw [restOfPath, if_pos rfl]
      cases hs : segment? slack l with
      | none =>
        obtain rfl := eq_zero_of_segment?_none hs
        exact ⟨[[]], rfl, .closed⟩
      | some found =>
        obtain ⟨n, next⟩ := found
        obtain ⟨hsegment, hn⟩ := isSegment_take hs
        obtain ⟨segments, htake, htail⟩ := exists_isTail next (l.drop n)
        dsimp only
        rw [restOfPath_pending hn]
        refine ⟨l.take n :: segments, ?_, .cons hsegment htail⟩
        rw [List.take_succ_cons, List.take_add, htake]
        rfl
    · rw [restOfPath, if_neg hc]
      exact ⟨[], rfl, .nil⟩
termination_by l.length
decreasing_by
  rw [List.length_drop, List.length_cons]
  omega

/-- The segments behind a name: one that is not left empty, and more. -/
def IsSegments (segments : List (List Char)) (isOpen : Bool) : Prop :=
  ∃ first rest next, segments = first :: rest ∧ IsSegment 0 first next ∧ IsTail 0 rest isOpen

/-- A name with segments behind it. -/
inductive IsPath : List Char → (isOpen : Bool) → Prop
  | intro {name : List Char} {segs : List (List Char)} {isOpen : Bool} :
      IsName name → IsSegments segs isOpen → IsPath (name ++ joined segs) isOpen

theorem segmentsLength_append (h : IsSegments segments isOpen) (ht : Ends tail) :
    segmentsLength (joined segments ++ tail) = ((joined segments).length, isOpen) := by
  obtain ⟨first, rest, next, rfl, hfirst, hrest⟩ := h
  have hfound := segment?_append hfirst (stops_joined ht.stops rest)
  rw [joined_cons_append, segmentsLength, hfound]
  dsimp only
  rw [restOfPath_pending (by simp), List.drop_left, restOfPath_append hrest ht, length_joined_cons]

theorem segmentsLength_of_ends (ht : Ends tail) : segmentsLength tail = (0, true) := by
  unfold segmentsLength
  split
  · exact absurd rfl ht.ne_backslash
  · rfl

/-- What is found behind a name is nothing, or segments. -/
theorem exists_isSegments (h : (segmentsLength l).1 ≠ 0) :
    ∃ segments, l.take (segmentsLength l).1 = joined segments ∧
      IsSegments segments (segmentsLength l).2 := by
  unfold segmentsLength at h ⊢
  split at h
  · next l =>
    cases hs : segment? 0 l with
    | none => simp [hs] at h
    | some found =>
      obtain ⟨n, next⟩ := found
      obtain ⟨hsegment, hn⟩ := isSegment_take hs
      obtain ⟨segments, htake, htail⟩ := exists_isTail 0 (l.drop n)
      dsimp only
      rw [restOfPath_pending hn]
      refine ⟨l.take n :: segments, ?_, _, _, _, rfl, hsegment, htail⟩
      rw [List.take_succ_cons, List.take_add, htake]
      rfl
  · exact absurd rfl h

/-! ## Indices without leading zeros -/

open Reading (plainSegment splitPath)

theorem isDigits_eq (l : List Char) : Numeral.isDigits l ↔ IsDigits l := by
  simp only [Numeral.isDigits, Bool.and_eq_true, List.all_eq_true]
  exact ⟨fun h => ⟨by simpa using h.1, h.2⟩, fun h => ⟨by simpa using h.ne_nil, h.digits⟩⟩

theorem isDigits_shortDigits (h : ∀ c ∈ l, c.isDigit) : IsDigits (Numeral.shortDigits l) := by
  unfold Numeral.shortDigits
  split
  · exact ⟨by simp, by simp⟩
  · next heq =>
    refine ⟨heq, fun c hc => h c ((List.dropWhile_suffix _).subset hc)⟩

theorem plainSegment_of_not_isDigits (h : ¬ IsDigits l) : plainSegment l = l :=
  if_neg fun both => h ((isDigits_eq l).1 both.1)

theorem IsName.plainSegment (h : IsName l) : plainSegment l = l :=
  plainSegment_of_not_isDigits h.not_isDigits

theorem IsSegment.plain (h : IsSegment slack s next) : IsSegment slack (plainSegment s) next := by
  cases h with
  | name hs => exact hs.plainSegment.symm ▸ .name hs
  | digits hs =>
    refine .digits ?_
    unfold Reading.plainSegment
    split
    · exact isDigits_shortDigits hs.digits
    · exact hs
  | lastEmpty => exact .lastEmpty
  | empty => exact .empty
  | mark => exact .mark

theorem IsTail.plain (h : IsTail slack segments isOpen) :
    IsTail slack (segments.map plainSegment) isOpen := by
  induction h with
  | nil => exact .nil
  | cons hs _ ih => exact .cons hs.plain ih
  | closed => exact .closed

theorem IsSegments.plain (h : IsSegments segments isOpen) :
    IsSegments (segments.map plainSegment) isOpen := by
  obtain ⟨first, rest, next, rfl, hfirst, hrest⟩ := h
  exact ⟨_, _, next, rfl, hfirst.plain, hrest.plain⟩

/-- A segment holds no backslash. -/
theorem IsName.backslash_not_mem (h : IsName l) : '\\' ∉ l := by
  obtain @⟨c, part, mark, hc, hpart, hmark⟩ := h
  intro hmem
  rcases List.mem_cons.1 hmem with rfl | hmem
  · cases hc
  rcases List.mem_append.1 hmem with hmem | hmem
  · cases hpart _ hmem
  · rcases hmark with rfl | rfl <;> simp at hmem

theorem IsSegment.backslash_not_mem (h : IsSegment slack s next) : '\\' ∉ s := by
  cases h with
  | name hs => exact hs.backslash_not_mem
  | digits hs => exact fun hmem => Bool.noConfusion (hs.digits _ hmem)
  | _ => simp

theorem IsTail.backslash_not_mem (h : IsTail slack segments isOpen) : ∀ s ∈ segments, '\\' ∉ s := by
  induction h with
  | nil => simp
  | cons hs _ ih => exact List.forall_mem_cons.2 ⟨hs.backslash_not_mem, ih⟩
  | closed => simp

theorem IsSegments.backslash_not_mem (h : IsSegments segments isOpen) :
    ∀ s ∈ segments, '\\' ∉ s := by
  obtain ⟨first, rest, next, rfl, hfirst, hrest⟩ := h
  exact List.forall_mem_cons.2 ⟨hfirst.backslash_not_mem, hrest.backslash_not_mem⟩

/-- Names and segments keep to the characters of paths. -/
theorem IsName.isPathChar (h : IsName l) : ∀ c ∈ l, IsPathChar c := by
  obtain @⟨c, part, mark, hc, hpart, hmark⟩ := h
  refine List.forall_mem_cons.2 ⟨.inl (isNamePart_of_isNameStart hc), fun d hd => ?_⟩
  rcases List.mem_append.1 hd with hd | hd
  · exact .inl (hpart d hd)
  · rcases hmark with rfl | rfl
    · cases hd
    · exact .inr (.inl (List.mem_singleton.1 hd))

theorem IsSegment.isPathChar (h : IsSegment slack s next) : ∀ c ∈ s, IsPathChar c := by
  cases h with
  | name hs => exact hs.isPathChar
  | digits hs => exact fun c hc => isPathChar_of_isDigit (hs.digits c hc)
  | lastEmpty | empty => exact nofun
  | mark => exact fun c hc => .inr (.inl (List.mem_singleton.1 hc))

theorem IsTail.isPathChar (h : IsTail slack segments isOpen) : ∀ s ∈ segments, ∀ c ∈ s, IsPathChar c := by
  induction h with
  | nil => exact nofun
  | cons hs _ ih => exact List.forall_mem_cons.2 ⟨hs.isPathChar, ih⟩
  | closed => exact List.forall_mem_singleton.2 nofun

theorem IsSegments.isPathChar (h : IsSegments segments isOpen) : ∀ s ∈ segments, ∀ c ∈ s, IsPathChar c := by
  obtain ⟨first, rest, next, rfl, hfirst, hrest⟩ := h
  exact List.forall_mem_cons.2 ⟨hfirst.isPathChar, hrest.isPathChar⟩

theorem IsPath.isPathChar (h : IsPath l isOpen) : ∀ c ∈ l, IsPathChar c := by
  obtain ⟨hname, hsegs⟩ := h
  intro c hc
  rcases List.mem_append.1 hc with hc | hc
  · exact hname.isPathChar c hc
  · obtain ⟨s, hs, hc⟩ := List.mem_flatMap.1 hc
    rcases List.mem_cons.1 hc with rfl | hc
    · exact .inr (.inr rfl)
    · exact hsegs.isPathChar s hs c hc

theorem splitPath_of_not_mem (h : '\\' ∉ l) : splitPath l = [l] := by
  induction l with
  | nil => rfl
  | cons c l ih =>
    obtain ⟨hc, hl⟩ := not_or.1 (mt List.mem_cons.2 h)
    rw [splitPath, if_neg (Ne.symm hc), ih hl]

theorem splitPath_append (h : '\\' ∉ s) (l : List Char) :
    splitPath (s ++ '\\' :: l) = s :: splitPath l := by
  induction s with
  | nil => rfl
  | cons c s ih =>
    obtain ⟨hc, hs⟩ := not_or.1 (mt List.mem_cons.2 h)
    rw [List.cons_append, splitPath, if_neg (Ne.symm hc), ih hs]

/-- What has been joined is split again. -/
theorem splitPath_joined (h : '\\' ∉ s) (hall : ∀ t ∈ segments, '\\' ∉ t) :
    splitPath (s ++ joined segments) = s :: segments := by
  induction segments generalizing s with
  | nil => simpa [joined] using splitPath_of_not_mem h
  | cons t segments ih =>
    obtain ⟨ht, hall⟩ := List.forall_mem_cons.1 hall
    rw [show joined (t :: segments) = '\\' :: (t ++ joined segments) by simp [joined],
      splitPath_append h, ih ht hall]

end Token

end BlockLang
