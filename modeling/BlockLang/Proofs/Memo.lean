import BlockLang.Memo
import Mathlib.Data.List.Nodup
import Mathlib.Data.List.Dedup

/-!
# The table keeps what was used last

**The history.** A table is what a sequence of actions makes of an empty one: storing a result, looking
a key up, and forgetting everything. Histories are listed with the latest action first.

**Use.** What counts as a use is told by the history alone (`used`): storing a result is one, and
looking a key up is one if the key is among the `capacity` distinct keys that were used last
(`recent`). A key that was evicted is looked up in vain, so only storing it brings it back.

**Theorem (`keeps_recent`).** The keys of a table are the `capacity` distinct keys used last since
everything was forgotten, from the least to the most recently used. The entries are those of the list
in which a used entry goes to the end and the head goes when there are too many. Looking a key up
answers the result stored last for it, exactly if it is kept; a table without room keeps nothing.

**One use.** A use of a key puts it before the others and cuts the list to `capacity`, and this can be
done on the keys that are kept as well as on all keys ever used (`recent_cons`): cutting first never
loses a key that would be kept.
-/

namespace BlockLang.Memo

variable {κ α : Type} [DecidableEq κ] {capacity : Nat} {key : κ} {value : α}

/-! ## Keys in order of use -/

/-- The `n` distinct keys that a list begins with. -/
def recent (n : Nat) (l : List κ) : List κ := l.eraseDups.take n

theorem eraseDups_filter (p : κ → Bool) (l : List κ) :
    (l.filter p).eraseDups = l.eraseDups.filter p := by
  match l with
  | [] => rfl
  | a :: l =>
    have ih := eraseDups_filter p (l.filter fun b => !b == a)
    rw [List.filter_filter] at ih
    cases ha : p a with
    | true =>
      rw [List.filter_cons_of_pos ha, List.eraseDups_cons, List.eraseDups_cons,
        List.filter_cons_of_pos ha, List.filter_filter, ← ih]
      simp only [Bool.and_comm]
    | false =>
      have hne : ∀ b, (p b && !b == a) = p b := by
        intro b
        by_cases hb : b = a
        · simp [hb, ha]
        · simp [hb]
      rw [List.filter_cons_of_neg (by simp [ha]), List.eraseDups_cons,
        List.filter_cons_of_neg (by simp [ha]), ← ih]
      simp only [hne]
termination_by l.length
decreasing_by exact Nat.lt_succ_of_le (List.length_filter_le ..)

theorem nodup_eraseDups (l : List κ) : l.eraseDups.Nodup := by
  match l with
  | [] => exact .nil
  | a :: l =>
    rw [List.eraseDups_cons]
    refine List.nodup_cons.2 ⟨by simp, ?_⟩
    rw [eraseDups_filter]
    exact (nodup_eraseDups l).filter _

theorem eraseDups_cons_erase (key : κ) (l : List κ) :
    (key :: l).eraseDups = key :: l.eraseDups.erase key := by
  rw [List.eraseDups_cons, eraseDups_filter, (nodup_eraseDups l).erase_eq_filter]
  rfl

/-- Cutting a list first does not change what is left of it without a key. -/
theorem take_erase_take (key : κ) (l : List κ) (n : Nat) :
    ((l.take (n + 1)).erase key).take n = (l.erase key).take n := by
  induction l generalizing n with
  | nil => rfl
  | cons a l ih =>
    rw [List.take_succ_cons, List.erase_cons, List.erase_cons]
    split
    · rw [List.take_take, Nat.min_self]
    · cases n with
      | zero => rfl
      | succ n => rw [List.take_succ_cons, List.take_succ_cons, ih]

/-- **A use of a key puts it before the others.** -/
theorem recent_cons (n : Nat) (key : κ) (l : List κ) :
    recent n (key :: l) = (key :: (recent n l).erase key).take n := by
  cases n with
  | zero => rfl
  | succ n =>
    rw [recent, recent, eraseDups_cons_erase, List.take_succ_cons, List.take_succ_cons,
      take_erase_take]

theorem nodup_recent (n : Nat) (l : List κ) : (recent n l).Nodup :=
  (nodup_eraseDups l).sublist (List.take_sublist ..)

theorem length_recent_le (n : Nat) (l : List κ) : (recent n l).length ≤ n :=
  List.length_take_le ..

/-! ## Histories -/

/-- What is done to a table. -/
inductive Action (κ α : Type) where
  | insert (key : κ) (value : α)
  | get (key : κ)
  | clear

/-- The table after an action. -/
def act (m : Memo κ α) : Action κ α → Memo κ α
  | .insert key value => m.insert key value
  | .get key => (m.get? key).2
  | .clear => m.clear

/-- The table that a history makes of an empty one. -/
def after (capacity : Nat) (history : List (Action κ α)) : Memo κ α :=
  history.foldr (fun action m => m.act action) (empty capacity)

/-- The keys of the uses since everything was forgotten, the latest first. -/
def used (capacity : Nat) : List (Action κ α) → List κ
  | [] => []
  | .insert key _ :: earlier => key :: used capacity earlier
  | .get key :: earlier =>
    let keys := used capacity earlier
    if key ∈ recent capacity keys then key :: keys else keys
  | .clear :: _ => []

/-- The result stored last for a key, unless everything was forgotten since. -/
def lastInserted? (key : κ) : List (Action κ α) → Option α
  | [] => none
  | .insert k value :: earlier => if k = key then some value else lastInserted? key earlier
  | .get _ :: earlier => lastInserted? key earlier
  | .clear :: _ => none

/-- A list without its head, if it is longer than `n`. -/
def bounded {β : Type} (n : Nat) (l : List β) : List β := if n < l.length then l.tail else l

/-- The list in which a used entry goes to the end, and the head goes when there are too many. -/
def reference (capacity : Nat) : List (Action κ α) → List (κ × α)
  | [] => []
  | .insert key value :: earlier =>
    bounded capacity ((reference capacity earlier).eraseP (·.1 = key) ++ [(key, value)])
  | .get key :: earlier =>
    let l := reference capacity earlier
    match l.find? (·.1 = key) with
    | some entry => l.eraseP (·.1 = key) ++ [entry]
    | none => l
  | .clear :: _ => []

/-! ## One action -/

/-- The keys of a table, from the least to the most recently used. -/
def keys (m : Memo κ α) : List κ := m.entries.map (·.1)

section

variable {m : Memo κ α} {history : List (Action κ α)}

theorem mem_of_find? (h : m.find? key = some value) : (key, value) ∈ m.entries := by
  obtain ⟨⟨k, v⟩, he, rfl⟩ := Option.map_eq_some_iff.1 h
  obtain rfl : k = key := by simpa using List.find?_some he
  exact List.mem_of_find?_eq_some he

theorem find?_eq_none_iff : m.find? key = none ↔ key ∉ m.keys := by
  simp only [find?, keys, Option.map_eq_none_iff, List.find?_eq_none, List.mem_map, not_exists,
    not_and, decide_eq_true_eq]

theorem keys_others (hm : m.keys.Nodup) (key : κ) :
    (m.others key).map (·.1) = m.keys.erase key := by
  rw [hm.erase_eq_filter, keys, List.filter_map]
  congr 1
  refine List.filter_congr fun e _ => ?_
  by_cases he : e.1 = key <;> simp [he]

theorem eraseP_eq_others (hm : m.keys.Nodup) (key : κ) :
    m.entries.eraseP (·.1 = key) = m.others key := by
  obtain ⟨_, l⟩ := m
  change (l.map (·.1)).Nodup at hm
  change l.eraseP (·.1 = key) = l.filter (·.1 ≠ key)
  induction l with
  | nil => rfl
  | cons e l ih =>
    obtain ⟨hnew, hl⟩ := List.nodup_cons.1 hm
    by_cases he : e.1 = key
    · have hothers : ∀ d ∈ l, d.1 ≠ key := by
        intro d hd hkey
        exact hnew (List.mem_map.2 ⟨d, hd, hkey.trans he.symm⟩)
      rw [List.eraseP_cons_of_pos (by simp [he]), List.filter_cons_of_neg (by simp [he]),
        List.filter_eq_self.2 (by simpa using hothers)]
    · rw [List.eraseP_cons_of_neg (by simp [he]), List.filter_cons_of_pos (by simp [he]), ih hl]

/-! ### Using a key -/

theorem reverse_bounded {β : Type} {l : List β} {n : Nat} (h : l.length ≤ n + 1) :
    (bounded n l).reverse = l.reverse.take n := by
  unfold bounded
  split
  · rw [← List.dropLast_reverse, List.dropLast_eq_take, List.length_reverse]
    congr 1
    omega
  · rw [List.take_of_length_le (by rw [List.length_reverse]; omega)]

theorem map_bounded {β γ : Type} (f : β → γ) (n : Nat) (l : List β) :
    (bounded n l).map f = bounded n (l.map f) := by
  unfold bounded
  rw [List.length_map, apply_ite (List.map f), List.map_tail]

/-- The entries after a use of a key, before there may be too many. -/
theorem reverse_keys_use (hm : m.keys.Nodup) (key : κ) (value : α) :
    ((m.others key ++ [(key, value)]).map (·.1)).reverse = key :: m.keys.reverse.erase key := by
  have hreverse : m.keys.reverse.erase key = (m.keys.erase key).reverse := by
    rw [hm.erase_eq_filter, (List.nodup_reverse.2 hm).erase_eq_filter, List.filter_reverse]
  rw [List.map_append, keys_others hm, hreverse]
  simp

theorem length_others_le (key : κ) : (m.others key).length ≤ m.size := List.length_filter_le ..

theorem length_others_of_mem (hm : m.keys.Nodup) (h : key ∈ m.keys) :
    (m.others key).length + 1 = m.size := by
  have hlength := congrArg List.length (keys_others hm key)
  rw [List.length_map, List.length_erase_of_mem h, keys, List.length_map] at hlength
  have : 0 < m.entries.length := by
    rw [← List.length_map (·.1)]
    exact List.length_pos_of_mem h
  simp only [size]
  omega

/-- **Storing a result uses its key, and the head goes when there are too many.** -/
theorem entries_insert (hm : m.keys.Nodup) (hsize : m.size ≤ m.capacity) :
    (m.insert key value).entries = bounded m.capacity (m.others key ++ [(key, value)]) := by
  rw [bounded, List.length_append, List.length_singleton]
  by_cases h0 : m.capacity = 0
  · have hnil : m.entries = [] := List.eq_nil_of_length_eq_zero (Nat.le_zero.1 (h0 ▸ hsize))
    simp [insert, h0, hnil, others]
  simp only [insert, if_neg h0]
  by_cases hkey : key ∈ m.keys
  · have hfound : (m.find? key).isNone = false := by
      simpa [Option.isSome_iff_ne_none] using mt find?_eq_none_iff.1 (not_not_intro hkey)
    have hroom := length_others_of_mem hm hkey
    simp only [hfound, Bool.false_and, Bool.false_eq_true, if_false]
    rw [if_neg (by omega)]
  · simp only [find?_eq_none_iff.2 hkey, Option.isNone_none, Bool.true_and, decide_eq_true_eq]
    by_cases hfull : m.capacity ≤ (m.others key).length
    · have hne : m.others key ≠ [] := by
        intro hnil
        exact h0 (Nat.le_zero.1 (by simpa [hnil] using hfull))
      rw [if_pos hfull, if_pos (by omega), List.tail_append_of_ne_nil hne]
    · rw [if_neg hfull, if_neg (by omega)]

/-- **Looking up a key that is kept uses it.** -/
theorem entries_get? (h : m.find? key = some value) :
    (m.get? key).2.entries = m.others key ++ [(key, value)] := by
  rw [get?, h]

theorem get?_of_not_mem (h : key ∉ m.keys) : m.get? key = (none, m) := by
  rw [get?, find?_eq_none_iff.2 h]

theorem keys_insert (hm : m.keys.Nodup) (hsize : m.size ≤ m.capacity) :
    (m.insert key value).keys.reverse = (key :: m.keys.reverse.erase key).take m.capacity := by
  have hlength := m.length_others_le key
  rw [keys, entries_insert hm hsize, map_bounded, reverse_bounded (by simp; omega),
    reverse_keys_use hm]

theorem keys_get? (hm : m.keys.Nodup) (hsize : m.size ≤ m.capacity)
    (h : m.find? key = some value) :
    (m.get? key).2.keys.reverse = (key :: m.keys.reverse.erase key).take m.capacity := by
  have hkey : key ∈ m.keys := List.mem_map_of_mem (mem_of_find? h)
  have hroom := length_others_of_mem hm hkey
  rw [keys, entries_get? h, ← reverse_keys_use hm key value,
    List.take_of_length_le (by simp; omega)]

/-! ## All actions -/

/-- A table is what the history says. -/
structure Reflects (capacity : Nat) (history : List (Action κ α)) (m : Memo κ α) : Prop where
  room : m.capacity = capacity
  order : m.keys.reverse = recent capacity (used capacity history)
  values : ∀ e ∈ m.entries, lastInserted? e.1 history = some e.2
  simulates : m.entries = reference capacity history

namespace Reflects

theorem nodup (h : Reflects capacity history m) : m.keys.Nodup :=
  List.nodup_reverse.1 (h.order ▸ nodup_recent ..)

theorem size_le (h : Reflects capacity history m) : m.size ≤ m.capacity := by
  have hlength := congrArg List.length h.order
  rw [List.length_reverse, Memo.keys, List.length_map] at hlength
  rw [h.room, size, hlength]
  exact length_recent_le ..

theorem mem_recent_iff (h : Reflects capacity history m) :
    key ∈ recent capacity (used capacity history) ↔ key ∈ m.keys := by
  rw [← h.order, List.mem_reverse]

theorem lastInserted?_of_find? (h : Reflects capacity history m) (hv : m.find? key = some value) :
    lastInserted? key history = some value :=
  h.values _ (mem_of_find? hv)

theorem empty (capacity : Nat) : Reflects capacity [] (.empty capacity : Memo κ α) :=
  ⟨rfl, by simp [Memo.keys, Memo.empty, recent, used], nofun, rfl⟩

theorem insert (h : Reflects capacity history m) (key : κ) (value : α) :
    Reflects capacity (.insert key value :: history) (m.insert key value) where
  room := by
    rw [← h.room, Memo.insert]
    split <;> rfl
  order := by
    rw [keys_insert h.nodup h.size_le, h.order, h.room, used, recent_cons]
  values := by
    intro e he
    rw [entries_insert h.nodup h.size_le] at he
    have he : e ∈ m.others key ++ [(key, value)] := by
      unfold bounded at he
      split at he
      · exact List.mem_of_mem_tail he
      · exact he
    rcases List.mem_append.1 he with he | he
    · obtain ⟨he, hne⟩ := List.mem_filter.1 he
      have hne : key ≠ e.1 := by simpa using Ne.symm (of_decide_eq_true hne)
      rw [lastInserted?, if_neg hne]
      exact h.values e he
    · obtain rfl := List.mem_singleton.1 he
      exact if_pos rfl
  simulates := by
    rw [entries_insert h.nodup h.size_le, reference, ← h.simulates, eraseP_eq_others h.nodup,
      h.room]

theorem get (h : Reflects capacity history m) (key : κ) :
    Reflects capacity (.get key :: history) (m.get? key).2 := by
  cases hv : m.find? key with
  | none =>
    have hkey := find?_eq_none_iff.1 hv
    rw [get?_of_not_mem hkey]
    refine ⟨h.room, ?_, h.values, ?_⟩
    · rw [used, if_neg (mt h.mem_recent_iff.1 hkey)]
      exact h.order
    · have hfind := Option.map_eq_none_iff.1 hv
      rw [h.simulates] at hfind
      rw [reference, hfind]
      exact h.simulates
  | some value =>
    have hkey : key ∈ m.keys := List.mem_map_of_mem (mem_of_find? hv)
    refine ⟨?_, ?_, ?_, ?_⟩
    · rw [get?, hv]
      exact h.room
    · rw [keys_get? h.nodup h.size_le hv, h.order, h.room, used,
        if_pos (h.mem_recent_iff.2 hkey), recent_cons]
    · rw [entries_get? hv]
      intro e he
      rcases List.mem_append.1 he with he | he
      · exact h.values e (List.mem_of_mem_filter he)
      · obtain rfl := List.mem_singleton.1 he
        exact h.lastInserted?_of_find? hv
    · obtain ⟨⟨k, v⟩, hfind, rfl⟩ := Option.map_eq_some_iff.1 hv
      obtain rfl : k = key := by simpa using List.find?_some hfind
      have hothers := eraseP_eq_others h.nodup k
      rw [entries_get? hv, reference, ← h.simulates, hfind, hothers]

theorem clear (h : Reflects capacity history m) : Reflects capacity (.clear :: history) m.clear :=
  ⟨h.room, by simp [Memo.keys, Memo.clear, recent, used], nofun, rfl⟩

/-- **Every action keeps a table what the history says.** -/
theorem act (h : Reflects capacity history m) (action : Action κ α) :
    Reflects capacity (action :: history) (m.act action) := by
  cases action with
  | insert key value => exact h.insert key value
  | get key => exact h.get key
  | clear => exact h.clear

end Reflects

theorem reflects_after (capacity : Nat) (history : List (Action κ α)) :
    Reflects capacity history (after capacity history) := by
  induction history with
  | nil => exact .empty capacity
  | cons action history ih => exact ih.act action

/-- **A table keeps the keys that were used last, each with the result stored last.** -/
theorem keeps_recent (capacity : Nat) (history : List (Action κ α)) :
    let m := after capacity history
    m.size ≤ capacity ∧ m.keys.Nodup ∧
      m.keys = (recent capacity (used capacity history)).reverse ∧
      m.entries = reference capacity history ∧
      (∀ key, (m.get? key).1 = none ↔ key ∉ m.keys) ∧
      (∀ key value, (m.get? key).1 = some value ↔
        key ∈ m.keys ∧ lastInserted? key history = some value) ∧
      ∀ key, ((after 0 history).get? key).1 = none := by
  intro m
  have h := reflects_after capacity history
  have answer (m : Memo κ α) (key : κ) : (m.get? key).1 = m.find? key := by
    unfold get?
    split <;> simp [*]
  refine ⟨h.room ▸ h.size_le, h.nodup, ?_, h.simulates, ?_, ?_, ?_⟩
  · rw [← h.order, List.reverse_reverse]
  · intro key
    rw [answer, find?_eq_none_iff]
  · intro key value
    rw [answer]
    constructor
    · intro hv
      exact ⟨List.mem_map_of_mem (mem_of_find? hv), h.lastInserted?_of_find? hv⟩
    · rintro ⟨hkey, hlast⟩
      cases hv : m.find? key with
      | none => exact absurd hkey (find?_eq_none_iff.1 hv)
      | some kept => exact (h.lastInserted?_of_find? hv).symm.trans hlast
  · intro key
    have h0 := reflects_after 0 history
    rw [answer, find?_eq_none_iff, ← h0.mem_recent_iff]
    exact List.not_mem_nil

/-- Looking a key up keeps it from being the next to go. -/
example : (after 2 [.insert 3 'c', .get 1, .insert 2 'b', .insert 1 'a']).entries =
    [(1, 'a'), (3, 'c')] := by
  decide

end

end BlockLang.Memo
