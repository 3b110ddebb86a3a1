/-!
# Tables keyed by name

An association list from names to values. The view of a table is `get?`; the lemmas below say what
each operation does to it, and no other module looks at the order of the entries except where a
table is listed. A name that is already present keeps its place when it gets a new value, so a table
lists its names in the order in which they first arrived.
-/

namespace BlockLang

/-- A finite map from names to values, with its entries in order of arrival. -/
abbrev NameTable (α : Type) := List (String × α)

namespace NameTable

variable {α : Type}

/-- The value of a name. -/
def get? : NameTable α → String → Option α
  | [], _ => none
  | (key, value) :: t, name => if key = name then some value else get? t name

/-- Gives a name a value. -/
def insert : NameTable α → String → α → NameTable α
  | [], name, value => [(name, value)]
  | (key, old) :: t, name, value =>
    if key = name then (key, value) :: t else (key, old) :: insert t name value

/-- Takes a name away. -/
def erase (t : NameTable α) (name : String) : NameTable α :=
  t.filter fun entry => entry.1 ≠ name

/-- Gives a name a value, or takes it away. -/
def put (t : NameTable α) (name : String) : Option α → NameTable α
  | some value => t.insert name value
  | none => t.erase name

/-- The names in order of arrival. -/
def names (t : NameTable α) : List String := t.map (·.1)

variable {t : NameTable α} {name other : String} {value : α}

@[simp, grind =] theorem get?_nil : get? ([] : NameTable α) name = none := rfl

theorem get?_cons {key : String} :
    get? ((key, value) :: t) name = if key = name then some value else get? t name := rfl

@[simp, grind =] theorem get?_insert_self : (t.insert name value).get? name = some value := by
  induction t with
  | nil => simp [insert, get?]
  | cons entry t ih =>
    unfold insert
    split <;> simp_all [get?]

@[simp, grind =] theorem get?_insert_of_ne (h : other ≠ name) :
    (t.insert name value).get? other = t.get? other := by
  induction t with
  | nil => simp [insert, get?, h.symm]
  | cons entry t ih =>
    unfold insert
    split
    · next hk => subst hk; simp [get?, h.symm]
    · simp [get?, ih]

@[simp, grind =] theorem get?_erase_self : (t.erase name).get? name = none := by
  induction t with
  | nil => rfl
  | cons entry t ih =>
    by_cases h : entry.1 = name
    · simpa [erase, h] using ih
    · simpa [erase, h, get?] using ih

@[simp, grind =] theorem get?_erase_of_ne (h : other ≠ name) :
    (t.erase name).get? other = t.get? other := by
  induction t with
  | nil => rfl
  | cons entry t ih =>
    by_cases hk : entry.1 = name
    · have : entry.1 ≠ other := fun e => h (e.symm.trans hk)
      simpa [erase, hk, get?, this, h.symm] using ih
    · simp only [erase, ne_eq, hk, not_false_eq_true, decide_true, List.filter_cons_of_pos, get?]
      rw [← ih]; rfl

@[simp, grind =] theorem get?_put_self {v : Option α} : (t.put name v).get? name = v := by
  cases v <;> simp [put]

@[simp, grind =] theorem get?_put_of_ne {v : Option α} (h : other ≠ name) :
    (t.put name v).get? other = t.get? other := by
  cases v <;> simp [put, h]

/-! ## Properties of all values -/

section

variable {P : α → Prop}

theorem mem_of_get? (h : t.get? name = some value) : (name, value) ∈ t := by
  induction t with
  | nil => cases h
  | cons entry t ih =>
    unfold get? at h
    split at h
    · next hk =>
      cases h
      subst hk
      exact List.mem_cons_self
    · exact List.mem_cons_of_mem _ (ih h)

theorem forall_insert (ht : ∀ e ∈ t, P e.2) (hv : P value) : ∀ e ∈ t.insert name value, P e.2 := by
  induction t with
  | nil => simpa [insert] using hv
  | cons entry t ih =>
    obtain ⟨he, ht⟩ := List.forall_mem_cons.1 ht
    unfold insert
    split
    · exact List.forall_mem_cons.2 ⟨hv, ht⟩
    · exact List.forall_mem_cons.2 ⟨he, ih ht⟩

theorem forall_put {v? : Option α} (ht : ∀ e ∈ t, P e.2) (hv : ∀ v, v? = some v → P v) :
    ∀ e ∈ t.put name v?, P e.2 := by
  cases v? with
  | some v => exact forall_insert ht (hv v rfl)
  | none => exact fun e he => ht e (List.mem_filter.1 he).1

end

end NameTable

end BlockLang
