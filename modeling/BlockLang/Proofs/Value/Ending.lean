import BlockLang.Proofs.Machine.Fuel
import BlockLang.Proofs.Value.Nesting

/-!
# When printing and comparing come to an end

Values are printed and compared by going into them, and nothing in either keeps track of the dictionaries
that have been entered already.

**Theorem (`display_and_equality_end`).** In every heap, the text of a value exists exactly if no
dictionary in the value holds itself. Comparing a value with any other one, itself included, comes to an
end if no dictionary holds itself as far as comparing goes into the value; and an answer that the two are
equal exists in no other case.

A comparison that finds a difference may stop before it goes round, so of values that loop only the
equal ones must fail to compare.

**Theorem (`loops_insertEntry_iff`).** Where nothing loops yet, a new entry makes a loop exactly if its value
leads back to the dictionary that gets it. Programs are free to make such entries (`dictionary_in_itself`).
-/

namespace BlockLang.Value

open Exec

/-! ## Lists whose values are found with enough depth -/

/-- Where more depth finds what less depth has found, one depth does for a whole list. -/
theorem exists_mapM {α β : Type} {f : Nat → α → Option β}
    (hf : ∀ m n a b, m ≤ n → f m a = some b → f n a = some b) :
    {l : List α} → (∀ a ∈ l, ∃ n b, f n a = some b) → ∃ n l', l.mapM (f n) = some l'
  | [], _ => ⟨0, [], rfl⟩
  | a :: l, hl => by
    obtain ⟨⟨m, b, hb⟩, hl⟩ := List.forall_mem_cons.1 hl
    obtain ⟨n, l', hl'⟩ := exists_mapM hf hl
    refine ⟨max m n, b :: l', ?_⟩
    rw [List.mapM_cons, hf m _ a b (Nat.le_max_left m n) hb,
      mapM_of_le (fun a b => hf n _ a b (Nat.le_max_right m n)) hl']
    rfl

theorem exists_allM {α : Type} {f : Nat → α → Option Bool}
    (hf : ∀ m n a b, m ≤ n → f m a = some b → f n a = some b) :
    {l : List α} → (∀ a ∈ l, ∃ n b, f n a = some b) → ∃ n b, l.allM (f n) = some b
  | [], _ => ⟨0, true, rfl⟩
  | a :: l, hl => by
    obtain ⟨⟨m, b, hb⟩, hl⟩ := List.forall_mem_cons.1 hl
    obtain ⟨n, b', hl'⟩ := exists_allM hf hl
    refine ⟨max m n, b && b', ?_⟩
    rw [List.allM, hf m _ a b (Nat.le_max_left m n) hb]
    cases b with
    | false => rfl
    | true => exact allM_of_le (fun a b => hf n _ a b (Nat.le_max_right m n)) hl'

theorem exists_of_mapM {α β : Type} {f : α → Option β} :
    {l : List α} → {l' : List β} → l.mapM f = some l' → ∀ a ∈ l, ∃ b, f a = some b
  | [], _, _ => fun _ ha => absurd ha List.not_mem_nil
  | a :: l, l', h => by
    rw [List.mapM_cons] at h
    obtain ⟨b, hb, h⟩ := Option.bind_eq_some_iff.1 h
    obtain ⟨bs, hbs, -⟩ := Option.bind_eq_some_iff.1 h
    exact List.forall_mem_cons.2 ⟨⟨b, hb⟩, exists_of_mapM hbs⟩

theorem forall_of_allM {α : Type} {f : α → Option Bool} :
    {l : List α} → l.allM f = some true → ∀ a ∈ l, f a = some true
  | [], _ => fun _ ha => absurd ha List.not_mem_nil
  | a :: l, h => by
    rw [List.allM] at h
    obtain ⟨b, hb, h⟩ := Option.bind_eq_some_iff.1 h
    cases b with
    | false => cases h
    | true => exact List.forall_mem_cons.2 ⟨hb, forall_of_allM h⟩

variable {h : Heap} {v w : Value}

/-! ## Display -/

theorem Bottoms.exists_display (hb : Bottoms (parts h) v) (nested : Bool) :
    ∃ depth text, v.displayWithin h depth nested = some text := by
  induction hb generalizing nested with
  | intro v _ ih =>
    have items {l : List Value} (hl : ∀ p ∈ l, p ∈ parts h v) :
        ∃ depth texts, l.mapM (displayWithin h depth true) = some texts :=
      exists_mapM (f := fun depth => displayWithin h depth true)
        (fun _ _ _ _ hle => displayWithin_of_le hle) fun p hp => ih p (hl p hp) true
    cases v with
    | path l =>
      obtain ⟨depth, texts, ht⟩ := items (l := l) fun _ hp => hp
      exact ⟨depth + 1, _, by simp only [displayWithin, ht]; rfl⟩
    | pathLabel l =>
      obtain ⟨depth, texts, ht⟩ := items (l := l) fun _ hp => hp
      exact ⟨depth + 1, _, by simp only [displayWithin, ht]; rfl⟩
    | block l _ =>
      obtain ⟨depth, texts, ht⟩ := items (l := l.filter (!·.isNewline)) fun _ => List.mem_of_mem_filter
      exact ⟨depth + 1, _, by simp only [displayWithin, ht]; rfl⟩
    | inline l =>
      obtain ⟨depth, texts, ht⟩ := items (l := l.filter (!·.isNewline)) fun _ => List.mem_of_mem_filter
      exact ⟨depth + 1, _, by simp only [displayWithin, ht]; rfl⟩
    | dictionary ref =>
      obtain ⟨depth, texts, ht⟩ := exists_mapM (l := h.dictionary ref)
        (f := fun depth (e : String × Value) =>
          (displayWithin h depth true e.2).map fun s => s!"{e.1}: {s}")
        (fun _ _ _ _ hle he => by
          obtain ⟨t, ht, rfl⟩ := Option.map_eq_some_iff.1 he
          rw [displayWithin_of_le hle ht]; rfl)
        (fun e he => by
          obtain ⟨depth, t, ht⟩ := ih e.2 (List.mem_map_of_mem he) true
          exact ⟨depth, _, by rw [ht]; rfl⟩)
      exact ⟨depth + 1, _, by simp only [displayWithin, ht]; rfl⟩
    | function ref =>
      refine ⟨1, ?_⟩
      simp only [displayWithin]
      split <;> exact ⟨_, rfl⟩
    | _ => exact ⟨1, _, rfl⟩

/-- What a displayed value holds is displayed with it, but for line markers. -/
theorem exists_display_part {depth : Nat} {nested : Bool} {text : String} {p : Value}
    (hd : v.displayWithin h (depth + 1) nested = some text) (hp : p ∈ parts h v)
    (hline : p.isNewline = false) : ∃ text, p.displayWithin h depth true = some text := by
  cases v with
  | path l =>
    obtain ⟨texts, ht, -⟩ := Option.map_eq_some_iff.1 hd
    exact exists_of_mapM ht p hp
  | pathLabel l =>
    obtain ⟨_, hd, -⟩ := Option.map_eq_some_iff.1 hd
    obtain ⟨texts, ht, -⟩ := Option.map_eq_some_iff.1 hd
    exact exists_of_mapM ht p hp
  | block l _ | inline l =>
    obtain ⟨_, hd, -⟩ := Option.map_eq_some_iff.1 hd
    obtain ⟨texts, ht, -⟩ := Option.map_eq_some_iff.1 hd
    exact exists_of_mapM ht p (List.mem_filter.2 ⟨hp, by simp [hline]⟩)
  | dictionary ref =>
    obtain ⟨texts, ht, -⟩ := Option.map_eq_some_iff.1 hd
    obtain ⟨e, he, rfl⟩ := List.mem_map.1 hp
    obtain ⟨s, hs⟩ := exists_of_mapM ht e he
    obtain ⟨t, ht, -⟩ := Option.map_eq_some_iff.1 hs
    exact ⟨t, ht⟩
  | _ => cases hp

theorem not_loops_newline {line : Nat} : ¬ Loops (parts h) (newline line) := fun hl =>
  let ⟨_, hp, _⟩ := hl.exists_part; List.not_mem_nil hp

theorem not_loops_of_display {depth : Nat} {nested : Bool} {text : String}
    (hd : v.displayWithin h depth nested = some text) : ¬ Loops (parts h) v := by
  induction depth generalizing v nested text with
  | zero => cases hd
  | succ depth ih =>
    intro hl
    obtain ⟨p, hp, hl⟩ := hl.exists_part
    have hline : p.isNewline = false := by
      cases p <;> first | rfl | exact absurd hl not_loops_newline
    obtain ⟨text, ht⟩ := exists_display_part hd hp hline
    exact ih ht hl

/-! ## Comparison -/

theorem equalWithin_block {xs ys : List Value} {k k' : Bool} (depth : Nat) :
    equalWithin h (depth + 1) (block xs k) (block ys k') =
      if xs.length = ys.length then (xs.zip ys).allM fun p => equalWithin h depth p.1 p.2
      else some false := rfl

/-- How an entry of a dictionary is compared with what another dictionary holds under its key. -/
def equalEntry (h : Heap) (depth : Nat) (others : NameTable Value) (e : String × Value) :
    Option Bool :=
  match others.get? e.1 with
  | some v => equalWithin h depth e.2 v
  | none => some false

theorem equalWithin_dictionary {x y : DictionaryRef} (depth : Nat) :
    equalWithin h (depth + 1) (dictionary x) (dictionary y) =
      if (h.dictionary x).length = (h.dictionary y).length then
        (h.dictionary x).allM (equalEntry h depth (h.dictionary y))
      else some false := rfl

theorem equalEntry_of_le {others : NameTable Value} {m n : Nat} {e : String × Value} {equal : Bool}
    (hle : m ≤ n) (he : equalEntry h m others e = some equal) :
    equalEntry h n others e = some equal := by
  unfold equalEntry at he ⊢
  split at he
  · exact equalWithin_of_le hle he
  · exact he

theorem Bottoms.exists_equal (hb : Bottoms (comparedParts h) v) (w : Value) :
    ∃ depth equal, equalWithin h depth v w = some equal := by
  induction hb generalizing w with
  | intro v _ ih =>
    cases v with
    | block xs k =>
      cases w with
      | block ys k' =>
        obtain ⟨depth, equal, he⟩ := exists_allM (l := xs.zip ys)
          (f := fun depth p => equalWithin h depth p.1 p.2)
          (fun _ _ _ _ hle => equalWithin_of_le hle)
          fun p hp => ih p.1 (List.of_mem_zip hp).1 p.2
        refine ⟨depth + 1, if xs.length = ys.length then equal else false, ?_⟩
        rw [equalWithin_block, he]
        split <;> rfl
      | _ => exact ⟨1, _, rfl⟩
    | dictionary x =>
      cases w with
      | dictionary y =>
        obtain ⟨depth, equal, he⟩ := exists_allM (l := h.dictionary x)
          (f := fun depth => equalEntry h depth (h.dictionary y)) (fun _ _ _ _ => equalEntry_of_le)
          fun e he => by
            unfold equalEntry
            split
            · exact ih e.2 (List.mem_map_of_mem he) _
            · exact ⟨0, false, rfl⟩
        refine ⟨depth + 1,
          if (h.dictionary x).length = (h.dictionary y).length then equal else false, ?_⟩
        rw [equalWithin_dictionary, he]
        split <;> rfl
      | _ => exact ⟨1, _, rfl⟩
    | _ => cases w <;> exact ⟨1, _, rfl⟩

/-- Of two values found equal, the parts have been found equal to others. -/
theorem exists_equal_part {depth : Nat} (he : equalWithin h (depth + 1) v w = some true) {p : Value}
    (hp : p ∈ comparedParts h v) : ∃ q, equalWithin h depth p q = some true := by
  cases v with
  | block xs k =>
    cases w with
    | block ys k' =>
      rw [equalWithin_block] at he
      split at he
      · next hlen =>
        have hfst : (xs.zip ys).map Prod.fst = xs := List.map_fst_zip (Nat.le_of_eq hlen)
        obtain ⟨pq, hmem, rfl⟩ := List.mem_map.1 (hfst.symm ▸ hp)
        exact ⟨pq.2, forall_of_allM he pq hmem⟩
      · cases he
    | _ => cases he
  | dictionary x =>
    cases w with
    | dictionary y =>
      rw [equalWithin_dictionary] at he
      split at he
      · obtain ⟨e, hmem, rfl⟩ := List.mem_map.1 hp
        have hentry := forall_of_allM he e hmem
        unfold equalEntry at hentry
        split at hentry
        · exact ⟨_, hentry⟩
        · cases hentry
      · cases he
    | _ => cases he
  | _ => cases hp

theorem not_loops_of_equal {depth : Nat} (he : equalWithin h depth v w = some true) :
    ¬ Loops (comparedParts h) v := by
  induction depth generalizing v w with
  | zero => cases he
  | succ depth ih =>
    intro hl
    obtain ⟨p, hp, hl⟩ := hl.exists_part
    obtain ⟨q, hq⟩ := exists_equal_part he hp
    exact ih hq hl

/-! ## Which entries make loops -/

section

variable {ref : DictionaryRef} {key : String} {p : Value}

/-- Going into the value comes to the other one. -/
def LeadsTo (held : Value → List Value) (v u : Value) : Prop := ∃ depth, SitsAt held depth v u

theorem LeadsTo.of_part {held : Value → List Value} (hp : p ∈ held v) (hl : LeadsTo held p w) :
    LeadsTo held v w := hl.elim fun depth hs => ⟨depth + 1, .part hp hs⟩

theorem LeadsTo.trans {held : Value → List Value} {u : Value} (hu : LeadsTo held v u)
    (hw : LeadsTo held u w) : LeadsTo held v w := by
  obtain ⟨m, hu⟩ := hu
  obtain ⟨n, hw⟩ := hw
  exact ⟨m + n, hu.trans hw⟩

theorem mem_parts_insertEntry {u : Value} (hp : p ∈ parts (h.insertEntry ref key v) u) :
    p ∈ parts h u ∨ u = dictionary ref ∧ p = v := by
  cases u with
  | dictionary other =>
    obtain ⟨e, he, rfl⟩ := List.mem_map.1 hp
    rw [Heap.dictionary_insertEntry] at he
    split at he
    · next ho =>
      obtain ⟨rfl, -⟩ := ho
      refine NameTable.forall_insert (P := fun q => q ∈ parts h (dictionary other) ∨
        dictionary other = dictionary other ∧ q = v) (fun e he => ?_) (.inr ⟨rfl, rfl⟩) e he
      exact .inl (List.mem_map_of_mem he)
    · exact .inl (List.mem_map_of_mem he)
  | _ => exact .inl hp

/-- A way through a heap with a new entry goes through the old heap, or through the new entry. The value of
that entry is taken not to lead back to its dictionary. -/
theorem leadsTo_of_insertEntry {u : Value} (hv : ¬ LeadsTo (parts h) v (dictionary ref))
    (hl : LeadsTo (parts (h.insertEntry ref key v)) u w) :
    LeadsTo (parts h) u w ∨ LeadsTo (parts h) u (dictionary ref) ∧ LeadsTo (parts h) v w := by
  obtain ⟨depth, hs⟩ := hl
  induction hs with
  | self u => exact .inl ⟨0, .self u⟩
  | part hp _ ih =>
    rcases mem_parts_insertEntry hp with hp | ⟨rfl, rfl⟩
    · exact ih.imp (.of_part hp) (And.imp_left (.of_part hp))
    · rcases ih with hw | ⟨hback, -⟩
      · exact .inr ⟨⟨0, .self _⟩, hw⟩
      · exact absurd hback hv

theorem parts_insertEntry_of_ne {u : Value} (hu : u ≠ dictionary ref) :
    parts (h.insertEntry ref key v) u = parts h u := by
  cases u with
  | dictionary other =>
    have ho : other ≠ ref := fun heq => hu (congrArg dictionary heq)
    rw [parts, parts, Heap.dictionary_insertEntry, if_neg fun hc => ho hc.1]
  | _ => rfl

/-- The ways to a dictionary do not go through its entries. -/
theorem leadsTo_insertEntry (hl : LeadsTo (parts h) v (dictionary ref)) (key : String) (u : Value) :
    LeadsTo (parts (h.insertEntry ref key u)) v (dictionary ref) := by
  obtain ⟨depth, hs⟩ := hl
  generalize hw : dictionary ref = w at hs
  induction hs with
  | self => exact ⟨0, .self _⟩
  | @part _ v p _ hp _ ih =>
    by_cases heq : v = dictionary ref
    · exact ⟨0, heq ▸ hw ▸ .self _⟩
    · exact .of_part (by rwa [parts_insertEntry_of_ne heq]) (ih hw)

/-- **A new entry makes a loop exactly if its value leads back to the dictionary.** -/
theorem loops_insertEntry_iff (hr : ref.index < h.dictionaries.size) (hl : ∀ u, ¬ Loops (parts h) u) :
    (∃ u, Loops (parts (h.insertEntry ref key v)) u) ↔ LeadsTo (parts h) v (dictionary ref) := by
  constructor
  · rintro ⟨u, _, other, _, _, hself⟩
    by_contra hv
    cases hself with
    | part hp hs =>
      rcases mem_parts_insertEntry hp with hp | ⟨heq, rfl⟩
      · rcases leadsTo_of_insertEntry hv ⟨_, hs⟩ with ⟨n, hs⟩ | ⟨hback, hvo⟩
        · exact hl _ ⟨0, other, .self _, n, .part hp hs⟩
        · exact hv (hvo.trans (hback.of_part hp))
      · rcases leadsTo_of_insertEntry hv ⟨_, hs⟩ with hvo | ⟨hback, -⟩
        · exact hv (heq ▸ hvo)
        · exact hv hback
  · intro hback
    obtain ⟨n, hs⟩ := leadsTo_insertEntry hback key v
    have hentry : (key, v) ∈ (h.insertEntry ref key v).dictionary ref := by
      rw [Heap.dictionary_insertEntry, if_pos ⟨rfl, hr⟩]
      exact NameTable.mem_of_get? NameTable.get?_insert_self
    exact ⟨_, 0, ref, .self _, n, .part (List.mem_map_of_mem (f := Prod.snd) hentry) hs⟩

end

/-! ## Which values have a text -/

/-- **What it takes to print and to compare a value.** A value can be printed exactly if no dictionary in
it holds itself. If none does as far as comparing goes, the value can be compared with every value and so
with itself; and unless that is so, no value is found equal to it. -/
theorem display_and_equality_end (h : Heap) (v : Value) :
    ((∃ depth text, display? h depth v = some text) ↔ ¬ Loops (parts h) v) ∧
      (¬ Loops (comparedParts h) v → ∀ w, ∃ depth equal, equalWithin h depth v w = some equal) ∧
        ∀ depth w, equalWithin h depth v w = some true → ¬ Loops (comparedParts h) v := by
  refine ⟨⟨fun ⟨_, _, hd⟩ => not_loops_of_display hd, fun hl => ?_⟩, fun hl => ?_,
    fun _ _ => not_loops_of_equal⟩
  · exact (bottoms_of_not_loops (fun _ => List.Subset.refl _) hl).exists_display false
  · exact (bottoms_of_not_loops (comparedParts_subset h) hl).exists_equal

/-- Two entries that share a dictionary make no loop: the outer dictionary is printed and is equal to
itself. -/
theorem display_and_equality_end_shared :
    let h : Heap := { dictionaries := #[[], [("a", dictionary ⟨0⟩), ("b", dictionary ⟨0⟩)]] }
    (∃ depth text, display? h depth (dictionary ⟨1⟩) = some text) ∧
      (∃ depth, equalWithin h depth (dictionary ⟨1⟩) (dictionary ⟨1⟩) = some true) ∧
        ¬ Loops (parts h) (dictionary ⟨1⟩) ∧ ¬ Loops (comparedParts h) (dictionary ⟨1⟩) := by
  intro h
  have hd : display? h 3 (dictionary ⟨1⟩) = some "#[a: #[] b: #[]]" := by decide +kernel
  have he : equalWithin h 3 (dictionary ⟨1⟩) (dictionary ⟨1⟩) = some true := by decide +kernel
  obtain ⟨hdisplay, -, hequal⟩ := display_and_equality_end h (dictionary ⟨1⟩)
  exact ⟨⟨3, _, hd⟩, ⟨3, he⟩, hdisplay.1 ⟨3, _, hd⟩, hequal 3 _ he⟩

theorem eq_of_same_dictionary {ref : DictionaryRef} (hs : same (dictionary ref) v) :
    v = dictionary ref := by
  cases v <;> simp_all [same]

theorem equalWithin_holding_itself {ref : DictionaryRef} {key : String}
    (hr : h.dictionary ref = [(key, dictionary ref)]) (depth : Nat) :
    equalWithin h depth (dictionary ref) (dictionary ref) = none := by
  induction depth with
  | zero => rfl
  | succ depth ih =>
    rw [equalWithin_dictionary, if_pos rfl, hr, List.allM]
    simp [equalEntry, NameTable.get?, ih]

theorem display_holding_itself {ref : DictionaryRef} {key : String}
    (hr : h.dictionary ref = [(key, dictionary ref)]) (depth : Nat) :
    display? h depth (dictionary ref) = none := by
  rw [Option.eq_none_iff_forall_ne_some]
  have hp : dictionary ref ∈ parts h (dictionary ref) := by simp [parts, hr]
  exact fun text hd => not_loops_of_display hd ⟨0, ref, .self _, 0, .part hp (.self _)⟩

/-- A program may make a dictionary an entry of itself. No depth then suffices to print it, or to compare
it with itself. -/
theorem dictionary_in_itself :
    let r := (runSource 100 "d: #[] set d \"me\" d").run.run (Machine.initial {})
    r.1.isOk = true ∧ ∃ v, r.2.world.get? "d" = some v ∧
      (∀ depth, display? r.2.world.heap depth v = none) ∧
        ∀ depth, equalWithin r.2.world.heap depth v v = none := by
  intro r
  have hd : (r.2.world.get? "d").map (same (dictionary ⟨0⟩)) = some true := by decide +kernel
  have hentry : (r.2.world.heap.dictionary ⟨0⟩).map (fun e => (e.1, same (dictionary ⟨0⟩) e.2)) =
      [("me", true)] := by decide +kernel
  obtain ⟨v, hv, hs⟩ := Option.map_eq_some_iff.1 hd
  obtain rfl := eq_of_same_dictionary hs
  obtain ⟨⟨key, u⟩, entries, hr, he, hnil⟩ := List.map_eq_cons_iff.1 hentry
  obtain rfl := List.map_eq_nil_iff.1 hnil
  obtain rfl := eq_of_same_dictionary (Prod.mk.inj he).2
  exact ⟨by decide +kernel, _, hv, display_holding_itself hr, equalWithin_holding_itself hr⟩

end BlockLang.Value
