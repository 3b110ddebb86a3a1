import BlockLang.Machine.Control
import BlockLang.Proofs.Value.Comparing
import BlockLang.Proofs.Value.Contents
import BlockLang.Proofs.Value.Ending
import BlockLang.Proofs.Value.Identity
import Mathlib.Data.List.Forall2
import Mathlib.Data.List.Perm.Subperm

/-!
# Equality of programs is an equivalence

Programs compare numbers by value across the kinds, blocks item by item, dictionaries entry by entry, and
everything else as constants are compared.

**Theorem (`equal_equivalence`).** Among values without floating point numbers and without dictionaries that
hold themselves, comparing comes to an end and equality is an equivalence. Equal constants are equal.

Each of the three ways to compare is first told by what it finds (`equalIn_atom`, `equalIn_number`,
`equalIn_block`, `equalIn_dictionary`); the laws are then inductions into the value, which end for the reason
that comparing does.

Dictionaries are compared one way: as many entries, and the keys of the first one looked up in the second.
That it holds the other way is a matter of counting (`NameTable.names_subset`), and needs that no dictionary
lists a key twice (`Heap.KeysOnce`). Programs keep it so (`session_keysOnce`): setting an entry replaces the
one that has its key, and the bindings that a new dictionary is made of have different names.
-/

namespace BlockLang

/-! ## Tables whose keys are different -/

namespace NameTable

variable {α : Type} {t u : NameTable α} {name : String} {value : α}

theorem get?_of_mem (ht : t.names.Nodup) (h : (name, value) ∈ t) : t.get? name = some value := by
  induction t with
  | nil => cases h
  | cons e t ih =>
    obtain ⟨key, other⟩ := e
    obtain ⟨hnew, ht⟩ := List.nodup_cons.1 ht
    rw [get?_cons]
    rcases List.mem_cons.1 h with heq | h
    · cases heq
      rw [if_pos rfl]
    · have hne : key ≠ name := by
        rintro rfl
        exact hnew (List.mem_map.2 ⟨_, h, rfl⟩)
      rw [if_neg hne, ih ht h]

/-- **Counting**: a table that has the keys of another one and no more entries has no other keys. -/
theorem names_subset (ht : t.names.Nodup) (hlen : t.length = u.length) (h : t.names ⊆ u.names) :
    u.names ⊆ t.names := by
  have hperm : t.names.Perm u.names :=
    (List.subperm_of_subset ht h).perm_of_length_le (by simp [names, hlen])
  exact hperm.symm.subset

theorem names_cons (key : String) (value : α) (t : NameTable α) :
    names ((key, value) :: t) = key :: t.names := rfl

theorem mem_names_insert {other : String} :
    other ∈ (t.insert name value).names ↔ other = name ∨ other ∈ t.names := by
  induction t with
  | nil => simp [insert, names]
  | cons e t ih =>
    obtain ⟨key, old⟩ := e
    by_cases hkey : key = name
    · rw [insert, if_pos hkey, names_cons, names_cons, List.mem_cons, hkey]
      tauto
    · rw [insert, if_neg hkey, names_cons, names_cons, List.mem_cons, List.mem_cons, ih]
      tauto

theorem nodup_insert (ht : t.names.Nodup) : (t.insert name value).names.Nodup := by
  induction t with
  | nil => exact List.nodup_singleton name
  | cons e t ih =>
    obtain ⟨key, old⟩ := e
    obtain ⟨hnew, ht⟩ := List.nodup_cons.1 ht
    by_cases hkey : key = name
    · rw [insert, if_pos hkey]
      exact List.nodup_cons.2 ⟨hnew, ht⟩
    · rw [insert, if_neg hkey]
      refine List.nodup_cons.2 ⟨fun hmem => ?_, ih ht⟩
      exact (mem_names_insert.1 hmem).elim hkey hnew

theorem nodup_put (ht : t.names.Nodup) {value? : Option α} : (t.put name value?).names.Nodup := by
  cases value? with
  | some value => exact nodup_insert ht
  | none => exact ht.sublist (List.filter_sublist.map _)

end NameTable

namespace Heap

/-- The keys of each dictionary are different. -/
def KeysOnce (h : Heap) : Prop := ∀ ref, (h.dictionary ref).names.Nodup

namespace KeysOnce

variable {h : Heap}

theorem empty : ({} : Heap).KeysOnce := fun _ => List.nodup_nil

theorem addDictionary (hk : h.KeysOnce) {entries : NameTable Value} (he : entries.names.Nodup) :
    (h.addDictionary entries).2.KeysOnce := by
  intro ref
  have hold := hk ref
  simp only [dictionary, Heap.addDictionary, Array.getElem?_push] at hold ⊢
  split
  · exact he
  · exact hold

theorem insertEntry (hk : h.KeysOnce) (ref : DictionaryRef) (key : String) (v : Value) :
    (h.insertEntry ref key v).KeysOnce := by
  intro other
  rw [dictionary_insertEntry]
  split
  · exact NameTable.nodup_insert (hk ref)
  · exact hk other

end KeysOnce

end Heap

/-- The bindings of names make entries with different keys. -/
theorem Exec.nodup_entriesOf (w : World) (names : List String) : (entriesOf w names).names.Nodup :=
  List.foldlRecOn names _ (motive := (NameTable.names · |>.Nodup)) List.nodup_nil
    fun _ hentries _ _ => NameTable.nodup_put hentries

/-- Values of the kind are compared as constants are: they are no numbers, blocks or dictionaries. -/
def Kind.isAtom : Kind → Bool
  | integer | floating | rational | block | dictionary => false
  | _ => true

namespace Value

variable {h : Heap} {a b c v w : Value}

/-! ## Values that can be compared -/

/-- As far as comparing goes into the value, there is no floating point number and no dictionary that holds
itself. -/
structure Comparable (h : Heap) (v : Value) : Prop where
  noFloat : ∀ depth x, ¬ SitsAt (comparedParts h) depth v (floating x)
  noLoop : ¬ Loops (comparedParts h) v

namespace Comparable

theorem part (hv : Comparable h v) {p : Value} (hp : p ∈ comparedParts h v) : Comparable h p where
  noFloat depth x hs := hv.noFloat (depth + 1) x (.part hp hs)
  noLoop hl := hv.noLoop (hl.of_part hp)

/-- A value can be compared if its parts can. -/
theorem of_parts (hfloat : ∀ x, v ≠ floating x) (hv : ∀ p ∈ comparedParts h v, Comparable h p) :
    Comparable h v where
  noFloat depth x hs := by
    cases hs with
    | self => exact hfloat x rfl
    | part hp hs => exact (hv _ hp).noFloat _ x hs
  noLoop hl := by
    obtain ⟨p, hp, hl⟩ := hl.exists_part
    exact (hv p hp).noLoop hl

theorem not_floating {x : Binary64} (hv : Comparable h (floating x)) : False :=
  hv.noFloat 0 x (.self _)

/-- A value that can be compared is compared in one of four ways. -/
theorem shape (hv : Comparable h v) : v.kind.isAtom ∨ (∃ x, v.fraction? = some x) ∨
    (∃ items dynamic, v = block items dynamic) ∨ ∃ ref, v = dictionary ref := by
  cases v with
  | floating => exact hv.not_floating.elim
  | integer | rational => exact .inr (.inl ⟨_, rfl⟩)
  | block items dynamic => exact .inr (.inr (.inl ⟨items, dynamic, rfl⟩))
  | dictionary ref => exact .inr (.inr (.inr ⟨ref, rfl⟩))
  | _ => exact .inl rfl

theorem bottoms (hv : Comparable h v) : Bottoms (comparedParts h) v :=
  bottoms_of_not_loops (comparedParts_subset h) hv.noLoop

/-- Induction into a value that can be compared. -/
theorem induct {P : Value → Prop}
    (ih : ∀ v, Comparable h v → (∀ p ∈ comparedParts h v, P p) → P v) (hv : Comparable h v) : P v := by
  have hb := hv.bottoms
  induction hb with
  | intro v _ step => exact ih v hv fun p hp => step p hp (hv.part hp)

end Comparable

/-! ## What equality compares -/

/-- Programs find the values equal. -/
def EqualIn (h : Heap) (a b : Value) : Prop := ∃ depth, equalWithin h depth a b = some true

theorem equalIn_atom (ha : a.kind.isAtom) : EqualIn h a b ↔ same a b := by
  have hone (depth : Nat) : equalWithin h (depth + 1) a b = some (same a b) := by
    cases a <;> first | rfl | cases ha
  constructor
  · rintro ⟨_ | depth, hd⟩
    · cases hd
    · simpa [hone] using hd
  · intro hs
    exact ⟨1, by rw [hone, hs]⟩

/-- Numbers are equal to the values that stand for the same number. -/
theorem equalIn_number {x : Rational} (ha : a.fraction? = some x) (hb : Comparable h b) :
    EqualIn h a b ↔ b.fraction? = some x := by
  cases hfraction : b.fraction? with
  | some y =>
    have hone (depth : Nat) : equalWithin h (depth + 1) a b = some (compare? a b == some .eq) := by
      cases a <;> cases ha <;> cases b <;> rfl
    have heq := compare?_eq_eq_iff ha hfraction
    constructor
    · rintro ⟨_ | depth, hd⟩
      · cases hd
      · rw [hone, Option.some_inj, beq_iff_eq, heq] at hd
        rw [hd]
    · intro hxy
      refine ⟨1, ?_⟩
      rw [hone, beq_iff_eq.2 (heq.2 (Option.some.inj hxy).symm)]
  | none =>
    have hone (depth : Nat) : equalWithin h (depth + 1) a b = some false := by
      cases a <;> cases ha <;> cases b <;> first | rfl | exact hb.not_floating.elim | cases hfraction
    constructor
    · rintro ⟨_ | depth, hd⟩
      · cases hd
      · rw [hone] at hd
        cases hd
    · intro hnone
      cases hnone

/-- Where each pair in turn is found equal at some depth, one depth does for all of them. -/
theorem exists_allM_true {α : Type} {f : Nat → α → Option Bool}
    (hf : ∀ m n a b, m ≤ n → f m a = some b → f n a = some b) :
    {l : List α} → (∀ a ∈ l, ∃ n, f n a = some true) → ∃ n, l.allM (f n) = some true
  | [], _ => ⟨0, rfl⟩
  | a :: l, hl => by
    obtain ⟨⟨m, ha⟩, hl⟩ := List.forall_mem_cons.1 hl
    obtain ⟨n, hl'⟩ := exists_allM_true hf hl
    refine ⟨max m n, ?_⟩
    rw [List.allM, hf m _ a true (Nat.le_max_left m n) ha]
    exact allM_of_le (fun a b => hf n _ a b (Nat.le_max_right m n)) hl'

/-- Blocks are equal item by item, static or dynamic. -/
theorem equalIn_block {xs ys : List Value} {k k' : Bool} :
    EqualIn h (block xs k) (block ys k') ↔ List.Forall₂ (EqualIn h) xs ys := by
  rw [List.forall₂_iff_zip]
  constructor
  · rintro ⟨_ | depth, hd⟩
    · cases hd
    · rw [equalWithin_block] at hd
      split at hd
      · next hlen => exact ⟨hlen, fun {a b} hab => ⟨depth, forall_of_allM hd (a, b) hab⟩⟩
      · cases hd
  · rintro ⟨hlen, hall⟩
    obtain ⟨depth, hd⟩ := exists_allM_true (l := xs.zip ys)
      (f := fun depth (p : Value × Value) => equalWithin h depth p.1 p.2)
      (fun _ _ _ _ hle => equalWithin_of_le hle) fun p hp => hall hp
    exact ⟨depth + 1, by rw [equalWithin_block, if_pos hlen, hd]⟩

/-- Dictionaries are equal if they have equally many entries, and equal values under the keys of the first. -/
theorem equalIn_dictionary {x y : DictionaryRef} : EqualIn h (dictionary x) (dictionary y) ↔
    (h.dictionary x).length = (h.dictionary y).length ∧
      ∀ e ∈ h.dictionary x, ∃ v, (h.dictionary y).get? e.1 = some v ∧ EqualIn h e.2 v := by
  constructor
  · rintro ⟨_ | depth, hd⟩
    · cases hd
    · rw [equalWithin_dictionary] at hd
      split at hd
      · next hlen =>
        refine ⟨hlen, fun e he => ?_⟩
        have hentry := forall_of_allM hd e he
        unfold equalEntry at hentry
        split at hentry
        · next v hv => exact ⟨v, hv, depth, hentry⟩
        · cases hentry
      · cases hd
  · rintro ⟨hlen, hall⟩
    obtain ⟨depth, hd⟩ := exists_allM_true (l := h.dictionary x)
      (f := fun depth => equalEntry h depth (h.dictionary y)) (fun _ _ _ _ => equalEntry_of_le)
      fun e he => by
        obtain ⟨v, hv, depth, hd⟩ := hall e he
        exact ⟨depth, by rw [equalEntry, hv]; exact hd⟩
    exact ⟨depth + 1, by rw [equalWithin_dictionary, if_pos hlen, hd]⟩

/-- Only a block is equal to a block. -/
theorem exists_block_of_equalIn {xs : List Value} {k : Bool} (he : EqualIn h (block xs k) b) :
    ∃ ys k', b = block ys k' := by
  obtain ⟨_ | depth, hd⟩ := he
  · cases hd
  · cases b <;> first | exact ⟨_, _, rfl⟩ | cases hd

/-- Only a dictionary is equal to a dictionary. -/
theorem exists_dictionary_of_equalIn {x : DictionaryRef} (he : EqualIn h (dictionary x) b) :
    ∃ y, b = dictionary y := by
  obtain ⟨_ | depth, hd⟩ := he
  · cases hd
  · cases b <;> first | exact ⟨_, rfl⟩ | cases hd

/-! ## Reflexivity, symmetry, transitivity -/

theorem equalIn_refl (hk : h.KeysOnce) (hv : Comparable h v) : EqualIn h v v := by
  refine hv.induct (P := fun v => EqualIn h v v) fun v hv ih => ?_
  rcases hv.shape with hatom | ⟨x, hx⟩ | ⟨items, dynamic, rfl⟩ | ⟨ref, rfl⟩
  · exact (equalIn_atom hatom).2 (same_refl _)
  · exact (equalIn_number hx hv).2 hx
  · exact equalIn_block.2 (List.forall₂_same.2 ih)
  · refine equalIn_dictionary.2 ⟨rfl, fun e he => ⟨e.2, NameTable.get?_of_mem (hk ref) he, ?_⟩⟩
    exact ih e.2 (List.mem_map_of_mem he)

/-- Two lists related item by item are so the other way round, if the relation is so on their items. -/
theorem forall₂_swap {R : Value → Value → Prop} {xs ys : List Value} (hxy : List.Forall₂ R xs ys)
    (hswap : ∀ x ∈ xs, ∀ y ∈ ys, R x y → R y x) : List.Forall₂ R ys xs := by
  induction hxy with
  | nil => exact .nil
  | cons hab _ ih =>
    refine .cons (hswap _ List.mem_cons_self _ List.mem_cons_self hab) (ih fun x hx y hy => ?_)
    exact hswap x (List.mem_cons_of_mem _ hx) y (List.mem_cons_of_mem _ hy)

theorem forall₂_trans {R : Value → Value → Prop} {xs ys zs : List Value}
    (hxy : List.Forall₂ R xs ys) (hyz : List.Forall₂ R ys zs)
    (htrans : ∀ x ∈ xs, ∀ y ∈ ys, ∀ z ∈ zs, R x y → R y z → R x z) : List.Forall₂ R xs zs := by
  induction hxy generalizing zs with
  | nil =>
    cases hyz
    exact .nil
  | cons hab _ ih =>
    cases hyz with
    | cons hbc hyz =>
      refine .cons (htrans _ List.mem_cons_self _ List.mem_cons_self _ List.mem_cons_self hab hbc)
        (ih hyz fun x hx y hy z hz => ?_)
      exact htrans x (List.mem_cons_of_mem _ hx) y (List.mem_cons_of_mem _ hy) z
        (List.mem_cons_of_mem _ hz)

theorem equalIn_symm (hk : h.KeysOnce) (ha : Comparable h a) (hb : Comparable h b)
    (he : EqualIn h a b) : EqualIn h b a := by
  refine ha.induct (P := fun a => ∀ b, Comparable h b → EqualIn h a b → EqualIn h b a)
    (fun a ha ih b hb he => ?_) b hb he
  rcases ha.shape with hatom | ⟨x, hx⟩ | ⟨xs, k, rfl⟩ | ⟨x, rfl⟩
  · have hs := (equalIn_atom hatom).1 he
    exact (equalIn_atom (same_kind_eq hs ▸ hatom)).2 (same_symm hs)
  · exact (equalIn_number ((equalIn_number hx hb).1 he) ha).2 hx
  · obtain ⟨ys, k', rfl⟩ := exists_block_of_equalIn he
    refine equalIn_block.2 (forall₂_swap (equalIn_block.1 he) fun x hx y hy => ?_)
    exact ih x hx y (hb.part hy)
  · obtain ⟨y, rfl⟩ := exists_dictionary_of_equalIn he
    obtain ⟨hlen, hall⟩ := equalIn_dictionary.1 he
    have hkeys : (h.dictionary x).names ⊆ (h.dictionary y).names := by
      intro key hkey
      obtain ⟨e, he, rfl⟩ := List.mem_map.1 hkey
      obtain ⟨v, hv, -⟩ := hall e he
      exact List.mem_map.2 ⟨_, NameTable.mem_of_get? hv, rfl⟩
    refine equalIn_dictionary.2 ⟨hlen.symm, fun e he => ?_⟩
    -- the key of an entry of `y` is one of `x`, and there it has the value that was found equal to this one
    have hkey : e.1 ∈ (h.dictionary x).names :=
      NameTable.names_subset (hk x) hlen hkeys (List.mem_map_of_mem he)
    obtain ⟨e', he', hsame⟩ := List.mem_map.1 hkey
    obtain ⟨v, hv, hequal⟩ := hall e' he'
    rw [hsame, NameTable.get?_of_mem (hk y) he] at hv
    cases hv
    refine ⟨e'.2, hsame ▸ NameTable.get?_of_mem (hk x) he', ?_⟩
    exact ih e'.2 (List.mem_map_of_mem he') e.2 (hb.part (List.mem_map_of_mem he)) hequal

theorem equalIn_trans (ha : Comparable h a) (hb : Comparable h b) (hc : Comparable h c)
    (hab : EqualIn h a b) (hbc : EqualIn h b c) : EqualIn h a c := by
  refine ha.induct (P := fun a => ∀ b c, Comparable h b → Comparable h c → EqualIn h a b →
    EqualIn h b c → EqualIn h a c) (fun a ha ih b c hb hc hab hbc => ?_) b c hb hc hab hbc
  rcases ha.shape with hatom | ⟨x, hx⟩ | ⟨xs, k, rfl⟩ | ⟨x, rfl⟩
  · have hs := (equalIn_atom hatom).1 hab
    have hs' := (equalIn_atom (same_kind_eq hs ▸ hatom)).1 hbc
    exact (equalIn_atom hatom).2 (same_trans hs hs')
  · have hy := (equalIn_number hx hb).1 hab
    exact (equalIn_number hx hc).2 ((equalIn_number hy hc).1 hbc)
  · obtain ⟨ys, k', rfl⟩ := exists_block_of_equalIn hab
    obtain ⟨zs, k'', rfl⟩ := exists_block_of_equalIn hbc
    refine equalIn_block.2 (forall₂_trans (equalIn_block.1 hab) (equalIn_block.1 hbc) ?_)
    exact fun x hx y hy z hz => ih x hx y z (hb.part hy) (hc.part hz)
  · obtain ⟨y, rfl⟩ := exists_dictionary_of_equalIn hab
    obtain ⟨z, rfl⟩ := exists_dictionary_of_equalIn hbc
    obtain ⟨hlen, hall⟩ := equalIn_dictionary.1 hab
    obtain ⟨hlen', hall'⟩ := equalIn_dictionary.1 hbc
    refine equalIn_dictionary.2 ⟨hlen.trans hlen', fun e he => ?_⟩
    obtain ⟨v, hv, hequal⟩ := hall e he
    have hmem := NameTable.mem_of_get? hv
    obtain ⟨w, hw, hequal'⟩ := hall' (e.1, v) hmem
    refine ⟨w, hw, ih e.2 (List.mem_map_of_mem he) v w ?_ ?_ hequal hequal'⟩
    · exact hb.part (List.mem_map_of_mem (f := Prod.snd) hmem)
    · exact hc.part (List.mem_map_of_mem (f := Prod.snd) (NameTable.mem_of_get? hw))

theorem forall₂_of_sameAll : {xs ys : List Value} → sameAll xs ys →
    List.Forall₂ (fun x y => same x y) xs ys
  | [], [], _ => .nil
  | [], _ :: _, hs | _ :: _, [], hs => by cases hs
  | x :: xs, y :: ys, hs => by
    obtain ⟨hx, hs⟩ := Bool.and_eq_true_iff.1 hs
    exact .cons hx (forall₂_of_sameAll hs)

theorem eq_of_same_number {x : Rational} (ha : a.fraction? = some x) (hs : same a b) : a = b := by
  cases a <;> cases ha <;> cases b <;> simp_all [same]

/-- **Equal constants are equal.** -/
theorem equalIn_of_same (hk : h.KeysOnce) (ha : Comparable h a) (hs : same a b) : EqualIn h a b := by
  refine ha.induct (P := fun a => ∀ b, same a b → EqualIn h a b) (fun a ha ih b hs => ?_) b hs
  rcases ha.shape with hatom | ⟨x, hx⟩ | ⟨xs, k, rfl⟩ | ⟨x, rfl⟩
  · exact (equalIn_atom hatom).2 hs
  · obtain rfl := eq_of_same_number hx hs
    exact equalIn_refl hk ha
  · cases b with
    | block ys k' =>
      obtain ⟨hlen, hitems⟩ := List.forall₂_iff_zip.1 (forall₂_of_sameAll hs)
      refine equalIn_block.2 (List.forall₂_iff_zip.2 ⟨hlen, fun {x y} hxy => ?_⟩)
      exact ih x (List.of_mem_zip hxy).1 y (hitems hxy)
    | _ => cases hs
  · obtain rfl := eq_of_same_dictionary hs
    exact equalIn_refl hk ha

/-! ## The equivalence -/

theorem exists_equalWithin (ha : Comparable h a) (b : Value) :
    ∃ depth equal, ∀ n, depth ≤ n → equalWithin h n a b = some equal := by
  obtain ⟨depth, equal, hd⟩ := ha.bottoms.exists_equal b
  exact ⟨depth, equal, fun n hn => equalWithin_of_le hn hd⟩

/-- **Equality is an equivalence** on the values that can be compared. It gives an answer for any two of
them, which more depth does not change, and holds between constants that are equal. -/
theorem equal_equivalence (hk : h.KeysOnce) :
    (∀ a b : {v // Comparable h v}, ∃ depth equal, ∀ n, depth ≤ n → equalWithin h n a b = some equal) ∧
    Equivalence (fun a b : {v // Comparable h v} => EqualIn h a b) ∧
    ∀ a b : {v // Comparable h v}, same a.1 b.1 → EqualIn h a b := by
  refine ⟨fun a b => exists_equalWithin a.2 b, ⟨?_, ?_, ?_⟩, fun a b => equalIn_of_same hk a.2⟩
  · exact fun a => equalIn_refl hk a.2
  · exact fun {a b} => equalIn_symm hk a.2 b.2
  · exact fun {a b c} => equalIn_trans a.2 b.2 c.2

/-- Two dictionaries list their keys in different orders, and hold one and the same number as an integer and
as a fraction. They are equal either way, and are no equal constants. -/
theorem equal_equivalence_otherOrder :
    let one : Rational := ⟨1, 1, by decide, by decide⟩
    let items (dynamic : Bool) := block [string "x", integer 1, inline [word "y"]] dynamic
    let h := (((({} : Heap).addDictionary [("count", rational one), ("items", items false)]).2).addDictionary
      [("items", items true), ("count", integer 1)]).2
    h.KeysOnce ∧ Comparable h (dictionary ⟨0⟩) ∧ Comparable h (dictionary ⟨1⟩) ∧
      EqualIn h (dictionary ⟨0⟩) (dictionary ⟨1⟩) ∧ EqualIn h (dictionary ⟨1⟩) (dictionary ⟨0⟩) ∧
      same (dictionary ⟨0⟩) (dictionary ⟨1⟩) = false := by
  intro one items h
  have hk : h.KeysOnce := (Heap.KeysOnce.empty.addDictionary (by decide)).addDictionary (by decide)
  have hatom (v : Value) (hfloat : ∀ x, v ≠ floating x) (hparts : comparedParts h v = []) : Comparable h v :=
    .of_parts hfloat (by simp [hparts])
  have hitems (dynamic : Bool) : Comparable h (items dynamic) := by
    refine .of_parts (by simp [items]) ?_
    show ∀ p ∈ [string "x", integer 1, inline [word "y"]], Comparable h p
    refine List.forall_mem_cons.2 ⟨hatom _ nofun rfl, List.forall_mem_cons.2 ⟨hatom _ nofun rfl, ?_⟩⟩
    exact List.forall_mem_singleton.2 (hatom _ nofun rfl)
  have hfirst : Comparable h (dictionary ⟨0⟩) := by
    refine .of_parts nofun ?_
    show ∀ p ∈ [rational one, items false], Comparable h p
    exact List.forall_mem_cons.2 ⟨hatom _ nofun rfl, List.forall_mem_singleton.2 (hitems false)⟩
  have hsecond : Comparable h (dictionary ⟨1⟩) := by
    refine .of_parts nofun ?_
    show ∀ p ∈ [items true, integer 1], Comparable h p
    exact List.forall_mem_cons.2 ⟨hitems true, List.forall_mem_singleton.2 (hatom _ nofun rfl)⟩
  have hequal : EqualIn h (dictionary ⟨0⟩) (dictionary ⟨1⟩) := ⟨3, by decide +kernel⟩
  obtain ⟨-, hequivalence, -⟩ := equal_equivalence hk
  refine ⟨hk, hfirst, hsecond, hequal, ?_, rfl⟩
  exact hequivalence.symm (x := ⟨_, hfirst⟩) (y := ⟨_, hsecond⟩) hequal

end Value

end BlockLang
