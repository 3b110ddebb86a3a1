/-!
# A bounded table of results

A `Memo` keeps the results of at most `capacity` keys. Looking a key up and storing a result both
count as using the key, and when room is needed the key that was used longest ago goes. The entries
are listed in order of use, the latest last. A table without room stores nothing.
-/

namespace BlockLang

/-- Results by key, from the least to the most recently used. -/
structure Memo (κ α : Type) where
  capacity : Nat
  entries : List (κ × α) := []

namespace Memo

variable {κ α : Type} [DecidableEq κ]

def empty (capacity : Nat) : Memo κ α := ⟨capacity, []⟩

def size (m : Memo κ α) : Nat := m.entries.length

def isEmpty (m : Memo κ α) : Bool := m.entries.isEmpty

/-- The result kept for a key. -/
def find? (m : Memo κ α) (key : κ) : Option α :=
  (m.entries.find? fun e => e.1 = key).map (·.2)

/-- The entries of all other keys. -/
def others (m : Memo κ α) (key : κ) : List (κ × α) := m.entries.filter fun e => e.1 ≠ key

/-- Looks a key up, which makes it the most recently used. -/
def get? (m : Memo κ α) (key : κ) : Option α × Memo κ α :=
  match m.find? key with
  | some value => (some value, { m with entries := m.others key ++ [(key, value)] })
  | none => (none, m)

/-- Keeps a result for a key, which makes it the most recently used. -/
def insert (m : Memo κ α) (key : κ) (value : α) : Memo κ α :=
  if m.capacity = 0 then m
  else
    let rest := m.others key
    -- only a new key needs room
    let rest := if (m.find? key).isNone && m.capacity ≤ rest.length then rest.tail else rest
    { m with entries := rest ++ [(key, value)] }

/-- Forgets every result. -/
def clear (m : Memo κ α) : Memo κ α := { m with entries := [] }

/-! ## Properties of all results -/

section

variable {P : α → Prop} {m : Memo κ α} {key : κ} {value : α}

theorem of_find? (hm : ∀ e ∈ m.entries, P e.2) (h : m.find? key = some value) : P value := by
  obtain ⟨e, he, rfl⟩ := Option.map_eq_some_iff.1 h
  exact hm e (List.mem_of_find?_eq_some he)

theorem forall_others (hm : ∀ e ∈ m.entries, P e.2) : ∀ e ∈ m.others key, P e.2 :=
  fun e he => hm e (List.mem_filter.1 he).1

theorem forall_get? (hm : ∀ e ∈ m.entries, P e.2) : ∀ e ∈ (m.get? key).2.entries, P e.2 := by
  unfold get?
  split
  · next hv =>
    refine List.forall_mem_append.2 ⟨forall_others hm, ?_⟩
    exact List.forall_mem_singleton.2 (of_find? hm hv)
  · exact hm

theorem of_get? (hm : ∀ e ∈ m.entries, P e.2) (h : (m.get? key).1 = some value) : P value := by
  unfold get? at h
  split at h
  · cases h
    exact of_find? hm ‹_›
  · cases h

theorem forall_insert (hm : ∀ e ∈ m.entries, P e.2) (hv : P value) :
    ∀ e ∈ (m.insert key value).entries, P e.2 := by
  have others : ∀ e ∈ m.others key, P e.2 := forall_others hm
  unfold insert
  split
  · exact hm
  · refine List.forall_mem_append.2 ⟨fun e he => others e ?_, ?_⟩
    · split at he
      · exact List.mem_of_mem_tail he
      · exact he
    · exact List.forall_mem_singleton.2 hv

end

end Memo

end BlockLang
