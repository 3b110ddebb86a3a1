import BlockLang.Proofs.Value.Nesting
import BlockLang.Value.Fingerprint
import Mathlib.Data.List.Forall2

/-!
# Fingerprints by contents

The results of a memoized function are kept under the fingerprint of its arguments, so two calls share
a result exactly if their arguments have one fingerprint.

**Theorem (`argumentFingerprint_eq_iff`).** As long as no dictionary sits deeper in the arguments
than the contents count, two lists of arguments have the same fingerprint exactly if they are equally
long and their values have, position by position, the same contents.

A fingerprint is a stream without brackets, so that it tells the arguments apart comes from how it is
read back: the mark of a kind says what follows, and what has parts says first how many. Hence the
marks of a value end where the next value's begin, whatever comes after (`contentMarks_append_iff`).
The two lists may belong to different moments, before and after a dictionary has been changed.
-/

namespace BlockLang

namespace Value

/-- The two values have the same contents, the one in `h` and the other in `h'`. Functions and code
are the same only as themselves; whether a block is dynamic does not count. -/
inductive SameContents (h h' : Heap) : Value → Value → Prop
  | atom {v : Value} : v.isCompound = false → SameContents h h' v v
  | path {l m : List Value} : List.Forall₂ (SameContents h h') l m →
    SameContents h h' (path l) (path m)
  | pathLabel {l m : List Value} : List.Forall₂ (SameContents h h') l m →
    SameContents h h' (pathLabel l) (pathLabel m)
  | block {l m : List Value} {k k' : Bool} : List.Forall₂ (SameContents h h') l m →
    SameContents h h' (block l k) (block m k')
  | inline {l m : List Value} : List.Forall₂ (SameContents h h') l m →
    SameContents h h' (inline l) (inline m)
  | dictionary {r r' : DictionaryRef} : (h.dictionary r).names = (h'.dictionary r').names →
    List.Forall₂ (SameContents h h') (parts h (dictionary r)) (parts h' (dictionary r')) →
    SameContents h h' (dictionary r) (dictionary r')

/-- Every dictionary in the value sits at a depth below `levels`. -/
def DictionariesBelow (h : Heap) (levels : Nat) (v : Value) : Prop :=
  ∀ depth ref, SitsAt (parts h) depth v (dictionary ref) → depth < levels

variable {h h' : Heap}

theorem DictionariesBelow.part {levels : Nat} {v p : Value}
    (hv : DictionariesBelow h (levels + 1) v) (hp : p ∈ parts h v) : DictionariesBelow h levels p :=
  fun depth ref hs => Nat.lt_of_succ_lt_succ (hv (depth + 1) ref (.part hp hs))

theorem DictionariesBelow.part_zero {v p : Value} (hv : DictionariesBelow h 0 v)
    (hp : p ∈ parts h v) : DictionariesBelow h 0 p :=
  fun depth ref hs => absurd (hv (depth + 1) ref (.part hp hs)) (Nat.not_lt_zero _)

theorem DictionariesBelow.of_parts {levels : Nat} {v : Value}
    (hp : ∀ p ∈ parts h v, DictionariesBelow h levels p) : DictionariesBelow h (levels + 1) v := by
  intro depth ref hs
  cases hs with
  | self => exact Nat.succ_pos levels
  | part hmem hs => exact Nat.succ_lt_succ (hp _ hmem _ ref hs)

theorem not_dictionariesBelow_zero {ref : DictionaryRef} :
    ¬ DictionariesBelow h 0 (dictionary ref) :=
  fun hv => absurd (hv 0 ref (.self _)) (Nat.lt_irrefl 0)

theorem SameContents.kind_eq {v w : Value} (hs : SameContents h h' v w) : v.kind = w.kind := by
  cases hs <;> rfl

/-! ## Marks that end on their own -/

/-- Streams of equally many pieces agree exactly if the pieces do and so does what follows, as soon
as that holds of any two pieces. -/
theorem flatMap_append_iff {α β γ : Type} {f : α → List γ} {g : β → List γ} {R : α → β → Prop} :
    {l : List α} → {m : List β} →
    (∀ a ∈ l, ∀ b ∈ m, ∀ s t, f a ++ s = g b ++ t ↔ R a b ∧ s = t) → l.length = m.length →
    ∀ s t, l.flatMap f ++ s = m.flatMap g ++ t ↔ List.Forall₂ R l m ∧ s = t
  | [], [], _, _, s, t => by simp
  | a :: l, b :: m, hp, hl, s, t => by
    have ha := hp a List.mem_cons_self b List.mem_cons_self
    have ih := flatMap_append_iff (fun a ha b hb => hp a (List.mem_cons_of_mem _ ha) b
      (List.mem_cons_of_mem _ hb)) (Nat.succ.inj hl) s t
    rw [List.flatMap_cons, List.flatMap_cons, List.append_assoc, List.append_assoc, ha, ih,
      List.forall₂_cons, and_assoc]

mutual

/-- **By identity, a value's marks end on their own** and tell it from all that are not the same. -/
theorem marks_append_iff : (v w : Value) → ∀ s t, v.marks ++ s = w.marks ++ t ↔ same v w ∧ s = t
  | path l, w | pathLabel l, w | block l _, w | inline l, w => fun s t => by
    all_goals
      cases w <;> simp only [marks, same, List.cons_append, List.cons.injEq, reduceCtorEq,
        Mark.kind.injEq, Mark.size.injEq, true_and, false_and, Bool.false_eq_true]
      exact ⟨fun ⟨hl, h⟩ => (marksAll_append_iff l _ hl s t).1 h, fun h =>
        ⟨sameAll_length l _ h.1, (marksAll_append_iff l _ (sameAll_length l _ h.1) s t).2 h⟩⟩
  | floating x, w => fun s t => by
    obtain ⟨b⟩ := x
    cases w <;> simp [marks, same]
    case floating y => obtain ⟨b'⟩ := y; simp
  | rational q, w => fun s t => by
    obtain ⟨n, d, _, _⟩ := q
    cases w <;> simp [marks, same]
    case rational r => obtain ⟨n', d', _, _⟩ := r; simp [and_assoc]
  | dictionary ref, w | function ref, w | bytecode ref, w => fun s t => by
    all_goals
      obtain ⟨i⟩ := ref
      cases w <;> simp [marks, same]
      case _ ref' => obtain ⟨i'⟩ := ref'; simp
  | null, w | logical _, w | integer _, w | string _, w | word _, w | literal _, w | label _, w
  | attr _, w | attrLabel _, w | symbol _, w | newline _, w => fun s t => by
    all_goals cases w <;> simp [marks, same]

theorem marksAll_append_iff : (l m : List Value) → l.length = m.length →
    ∀ s t, marksAll l ++ s = marksAll m ++ t ↔ sameAll l m ∧ s = t
  | [], [], _, s, t => by simp [marksAll, sameAll]
  | v :: l, w :: m, hl, s, t => by
    simp [marksAll, sameAll, marks_append_iff v w, marksAll_append_iff l m (Nat.succ.inj hl),
      and_assoc]

theorem sameAll_length : (l m : List Value) → sameAll l m → l.length = m.length
  | [], [], _ => rfl
  | v :: l, w :: m, h => by
    simp only [sameAll, Bool.and_eq_true] at h
    simp [sameAll_length l m h.2]

end

/-! ## Contents -/

theorem sameContents_path {l m : List Value} :
    SameContents h h' (path l) (path m) ↔ List.Forall₂ (SameContents h h') l m :=
  ⟨fun hs => by cases hs with | atom hc => cases hc | path hs => exact hs, .path⟩

theorem sameContents_pathLabel {l m : List Value} :
    SameContents h h' (pathLabel l) (pathLabel m) ↔ List.Forall₂ (SameContents h h') l m :=
  ⟨fun hs => by cases hs with | atom hc => cases hc | pathLabel hs => exact hs, .pathLabel⟩

theorem sameContents_block {l m : List Value} {k k' : Bool} :
    SameContents h h' (block l k) (block m k') ↔ List.Forall₂ (SameContents h h') l m :=
  ⟨fun hs => by cases hs with | atom hc => cases hc | block hs => exact hs, .block⟩

theorem sameContents_inline {l m : List Value} :
    SameContents h h' (inline l) (inline m) ↔ List.Forall₂ (SameContents h h') l m :=
  ⟨fun hs => by cases hs with | atom hc => cases hc | inline hs => exact hs, .inline⟩

/-- Tables agree entry by entry exactly if they list the same keys and their values agree. -/
theorem forall₂_entries_iff {R : Value → Value → Prop} : {t t' : NameTable Value} →
    (List.Forall₂ (fun e e' => e.1 = e'.1 ∧ R e.2 e'.2) t t' ↔
      t.names = t'.names ∧ List.Forall₂ R (t.map (·.2)) (t'.map (·.2)))
  | [], t' => by cases t' <;> simp [NameTable.names]
  | e :: t, [] => by simp
  | e :: t, e' :: t' => by
    rw [List.forall₂_cons, forall₂_entries_iff]
    simp [NameTable.names, and_assoc, and_left_comm]

theorem sameContents_dictionary {r r' : DictionaryRef} :
    SameContents h h' (dictionary r) (dictionary r') ↔
      List.Forall₂ (fun e e' => e.1 = e'.1 ∧ SameContents h h' e.2 e'.2)
        (h.dictionary r) (h'.dictionary r') := by
  rw [forall₂_entries_iff]
  exact ⟨fun hs => by cases hs with | atom hc => cases hc | dictionary hn hs => exact ⟨hn, hs⟩,
    fun hs => .dictionary hs.1 hs.2⟩

theorem same_kind_eq {v w : Value} (hs : same v w) : v.kind = w.kind := by
  cases v <;> cases w <;> first | rfl | cases hs

/-- Neither by contents nor by identity are values of two kinds the same. -/
theorem sameContents_iff_same_of_kind_ne {v w : Value} (hk : v.kind ≠ w.kind) :
    SameContents h h' v w ↔ same v w :=
  iff_of_false (fun hs => hk hs.kind_eq) fun hs => hk (same_kind_eq hs)

mutual

/-- Without dictionaries to look into, the contents are what counts by identity too. -/
theorem sameContents_iff_same : (v w : Value) → DictionariesBelow h 0 v →
    (SameContents h h' v w ↔ same v w)
  | path l, w => fun hv => by
    cases w with
    | path m => simp [sameContents_path, same, sameContents_iff_sameAll l m fun v => hv.part_zero]
    | _ => exact sameContents_iff_same_of_kind_ne nofun
  | pathLabel l, w => fun hv => by
    cases w with
    | pathLabel m =>
      simp [sameContents_pathLabel, same, sameContents_iff_sameAll l m fun v => hv.part_zero]
    | _ => exact sameContents_iff_same_of_kind_ne nofun
  | block l _, w => fun hv => by
    cases w with
    | block m => simp [sameContents_block, same, sameContents_iff_sameAll l m fun v => hv.part_zero]
    | _ => exact sameContents_iff_same_of_kind_ne nofun
  | inline l, w => fun hv => by
    cases w with
    | inline m => simp [sameContents_inline, same, sameContents_iff_sameAll l m fun v => hv.part_zero]
    | _ => exact sameContents_iff_same_of_kind_ne nofun
  | dictionary _, w => fun hv => absurd hv not_dictionariesBelow_zero
  | null, w | logical _, w | integer _, w | floating _, w | rational _, w | string _, w
  | word _, w | literal _, w | label _, w | attr _, w | attrLabel _, w | symbol _, w
  | function _, w | bytecode _, w | newline _, w => fun _ => by
    all_goals
      refine ⟨fun hs => ?_, fun hs => ?_⟩
      · cases hs with | atom => simp [same]
      · cases w <;> simp only [same, Bool.false_eq_true, beq_iff_eq] at hs
        all_goals first | (subst hs; exact .atom rfl) | exact .atom rfl

theorem sameContents_iff_sameAll : (l m : List Value) → (∀ v ∈ l, DictionariesBelow h 0 v) →
    (List.Forall₂ (SameContents h h') l m ↔ sameAll l m)
  | [], m => fun _ => by cases m <;> simp [sameAll]
  | v :: l, [] => fun _ => by simp [sameAll]
  | v :: l, w :: m => fun hl => by
    obtain ⟨hv, hl⟩ := List.forall_mem_cons.1 hl
    simp [sameAll, sameContents_iff_same v w hv, sameContents_iff_sameAll l m hl]

end

theorem dictionariesBelow_of_atom {v : Value} (hv : v.isCompound = false) (levels : Nat) :
    DictionariesBelow h levels v := by
  intro depth ref hs
  cases hs with
  | self => cases hv
  | part hp => exact absurd (parts_of_atom hv ▸ hp) List.not_mem_nil

theorem contentMarks_atom {v : Value} (hv : v.isCompound = false) (levels : Nat) :
    contentMarks h levels v = v.marks := by
  cases levels with
  | zero => rfl
  | succ n => cases v <;> first | rfl | cases hv

theorem exists_contentMarks (v : Value) (levels : Nat) :
    ∃ rest, contentMarks h levels v = .kind v.kind :: rest := by
  cases levels <;> cases v <;> exact ⟨_, rfl⟩

theorem isCompound_of_kind_eq {v w : Value} (hk : v.kind = w.kind) :
    v.isCompound = w.isCompound := by
  cases v <;> cases w <;> first | rfl | cases hk

theorem contentMarks_append_iff_of_atom {v w : Value} (hv : v.isCompound = false)
    (hk : v.kind = w.kind) (levels : Nat) (s t : List Mark) :
    contentMarks h levels v ++ s = contentMarks h' levels w ++ t ↔
      SameContents h h' v w ∧ s = t := by
  rw [contentMarks_atom hv, contentMarks_atom ((isCompound_of_kind_eq hk).symm.trans hv),
    marks_append_iff, sameContents_iff_same v w (dictionariesBelow_of_atom hv 0)]

/-- A size and then the pieces: streams that agree have equally many, and the pieces agree. -/
theorem sized_append_iff {α β : Type} {f : α → List Mark} {g : β → List Mark} {R : α → β → Prop}
    {l : List α} {m : List β}
    (hp : ∀ a ∈ l, ∀ b ∈ m, ∀ s t, f a ++ s = g b ++ t ↔ R a b ∧ s = t) (s t : List Mark) :
    Mark.size l.length = .size m.length ∧ l.flatMap f ++ s = m.flatMap g ++ t ↔
      List.Forall₂ R l m ∧ s = t := by
  rw [Mark.size.injEq]
  exact ⟨fun ⟨hl, he⟩ => (flatMap_append_iff hp hl s t).1 he,
    fun hs => ⟨hs.1.length_eq, (flatMap_append_iff hp hs.1.length_eq s t).2 hs⟩⟩

/-- **By contents too, a value's marks end on their own**, and tell it from all values whose contents
differ: for values with no dictionaries beyond the levels that count. -/
theorem contentMarks_append_iff (levels : Nat) (v w : Value) (hv : DictionariesBelow h levels v)
    (hw : DictionariesBelow h' levels w) (s t : List Mark) :
    contentMarks h levels v ++ s = contentMarks h' levels w ++ t ↔ SameContents h h' v w ∧ s = t := by
  induction levels generalizing v w s t with
  | zero => rw [contentMarks, contentMarks, marks_append_iff, sameContents_iff_same v w hv]
  | succ n ih =>
    by_cases hk : v.kind = w.kind
    swap
    · -- The first mark already differs.
      obtain ⟨rest, hr⟩ := exists_contentMarks (h := h) v (n + 1)
      obtain ⟨rest', hr'⟩ := exists_contentMarks (h := h') w (n + 1)
      refine ⟨fun he => absurd ?_ hk, fun hs => absurd hs.1.kind_eq hk⟩
      rw [hr, hr', List.cons_append, List.cons_append] at he
      exact Mark.kind.inj (List.cons.inj he).1
    have parts_iff : ∀ p ∈ parts h v, ∀ q ∈ parts h' w, ∀ s t,
        contentMarks h n p ++ s = contentMarks h' n q ++ t ↔ SameContents h h' p q ∧ s = t :=
      fun p hp q hq => ih p q (hv.part hp) (hw.part hq)
    cases v
    case path l =>
      cases w <;> cases hk
      simp only [contentMarks, List.cons_append, List.cons.injEq, kind, true_and, sameContents_path]
      exact sized_append_iff parts_iff s t
    case pathLabel l =>
      cases w <;> cases hk
      simp only [contentMarks, List.cons_append, List.cons.injEq, kind, true_and,
        sameContents_pathLabel]
      exact sized_append_iff parts_iff s t
    case block l _ =>
      cases w <;> cases hk
      simp only [contentMarks, List.cons_append, List.cons.injEq, kind, true_and, sameContents_block]
      exact sized_append_iff parts_iff s t
    case inline l =>
      cases w <;> cases hk
      simp only [contentMarks, List.cons_append, List.cons.injEq, kind, true_and,
        sameContents_inline]
      exact sized_append_iff parts_iff s t
    case dictionary ref =>
      cases w <;> cases hk
      simp only [contentMarks, List.cons_append, List.cons.injEq, true_and, sameContents_dictionary]
      refine sized_append_iff (fun e he e' he' s t => ?_) s t
      rw [List.cons_append, List.cons_append, List.cons.injEq, Mark.text.injEq, and_assoc,
        parts_iff e.2 (List.mem_map_of_mem he) e'.2 (List.mem_map_of_mem he')]
    all_goals exact contentMarks_append_iff_of_atom rfl hk (n + 1) s t

/-- **Equal fingerprints are equal contents.** Two lists of arguments whose dictionaries all sit at a
depth of at most `contentDepth` have the same fingerprint exactly if they are equally long and the
values have the same contents, position by position. -/
theorem argumentFingerprint_eq_iff (args args' : List Value)
    (hargs : ∀ v ∈ args, ∀ depth ref, SitsAt (parts h) depth v (dictionary ref) → depth ≤ contentDepth)
    (hargs' : ∀ v ∈ args', ∀ depth ref, SitsAt (parts h') depth v (dictionary ref) → depth ≤ contentDepth) :
    argumentFingerprint h args = argumentFingerprint h' args' ↔
      List.Forall₂ (SameContents h h') args args' := by
  have hp : ∀ v ∈ args, ∀ w ∈ args', ∀ s t,
      contentMarks h (contentDepth + 1) v ++ s = contentMarks h' (contentDepth + 1) w ++ t ↔
        SameContents h h' v w ∧ s = t := fun v hv w hw =>
    contentMarks_append_iff (contentDepth + 1) v w
      (fun depth ref hs => Nat.lt_succ_of_le (hargs v hv depth ref hs))
      (fun depth ref hs => Nat.lt_succ_of_le (hargs' w hw depth ref hs))
  refine ⟨fun he => ?_, fun hs => ?_⟩
  · -- The number of arguments is the last mark, so it is read first.
    have hlast := congrArg List.getLast? he
    simp only [argumentFingerprint, List.getLast?_concat, Option.some.injEq, Mark.size.injEq] at hlast
    exact ((flatMap_append_iff hp hlast _ _).1 he).1
  · rw [argumentFingerprint, argumentFingerprint, hs.length_eq]
    exact (flatMap_append_iff hp hs.length_eq _ _).2 ⟨hs, rfl⟩

/-- A dictionary passed twice, before and after its entry was changed: the two fingerprints are equal
exactly if the contents are. -/
theorem argumentFingerprint_eq_iff_changed_entry :
    let h : Heap := { dictionaries := #[[("size", integer 1)]] }
    let h' := h.insertEntry ⟨0⟩ "size" (integer 2)
    let args := [block [dictionary ⟨0⟩] false, string "size"]
    (∀ v ∈ args, ∀ depth ref, SitsAt (parts h) depth v (dictionary ref) → depth ≤ contentDepth) ∧
      (∀ v ∈ args, ∀ depth ref, SitsAt (parts h') depth v (dictionary ref) → depth ≤ contentDepth) ∧
      (argumentFingerprint h args = argumentFingerprint h' args ↔
        List.Forall₂ (SameContents h h') args args) := by
  intro h h' args
  have shallow : ∀ g : Heap, (∀ p ∈ parts g (dictionary ⟨0⟩), p.isCompound = false) →
      ∀ v ∈ args, ∀ depth ref, SitsAt (parts g) depth v (dictionary ref) → depth ≤ contentDepth := by
    intro g hg v hv depth ref hs
    have ref_below : DictionariesBelow g 1 (dictionary ⟨0⟩) :=
      .of_parts fun p hp => dictionariesBelow_of_atom (hg p hp) 0
    have below : DictionariesBelow g 2 v := by
      obtain rfl | rfl := List.mem_pair.1 hv
      · exact .of_parts fun p hp => List.mem_singleton.1 hp ▸ ref_below
      · exact dictionariesBelow_of_atom rfl 2
    exact Nat.le_trans (Nat.le_of_lt (below depth ref hs)) (by decide)
  have hargs := shallow h (by decide)
  have hargs' := shallow h' (by decide)
  exact ⟨hargs, hargs', argumentFingerprint_eq_iff args args hargs hargs'⟩

end Value
end BlockLang
