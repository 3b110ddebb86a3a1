import BlockLang.Text.Distance
import Mathlib.Order.Bounds.Basic

/-!
# The edit distance

**Theorem (`distance_metric`).** The distance that is computed row by row is the edit distance: the one that
is defined by recursion, from the distances of texts without their first characters. It is symmetric, 0
between equal texts only, and no longer than a way over a third text.

What the recursion defines is the least number of edits in a script that turns one text into the other
(`isLeast_editDistance`). The laws hold since scripts can be undone and run one after the other. They can be
read from their ends too, so that the distance obeys the same recursion at the last characters
(`editDistance_concat`), which is the one that the rows follow.

Of two rows one is complete and the other one is written over an older row. A cell is computed from the cell
before it, which is written already, and from two of the complete row (`RowTo.fillRow`).
-/

namespace BlockLang.Text

/-- What putting the second character in the place of the first costs. -/
def cost (a b : Char) : Nat := if a = b then 0 else 1

theorem cost_self (a : Char) : cost a a = 0 := if_pos rfl

theorem cost_comm (a b : Char) : cost a b = cost b a := by
  simp only [cost, eq_comm]

theorem eq_of_cost {a b : Char} (h : cost a b = 0) : a = b := by
  by_contra hne
  rw [cost, if_neg hne] at h
  cases h

theorem cost_le_one (a b : Char) : cost a b ≤ 1 := by
  unfold cost
  split <;> omega

theorem cost_triangle (a b c : Char) : cost a c ≤ cost a b + cost b c := by
  by_cases hab : a = b
  · rw [hab, cost_self, Nat.zero_add]
  · have hone : cost a b = 1 := if_neg hab
    have hle := cost_le_one a c
    omega

/-- The edit distance by recursion: the least of what deleting a first character, inserting one and putting
one in the place of the other lead to. -/
def editDistance : List Char → List Char → Nat
  | [], bs => bs.length
  | as, [] => as.length
  | a :: as, b :: bs =>
    min (min (editDistance as (b :: bs) + 1) (editDistance (a :: as) bs + 1)) (editDistance as bs + cost a b)

/-- `n` edits turn one text into the other, gone through character by character. -/
inductive Edits : Nat → List Char → List Char → Prop
  | nil : Edits 0 [] []
  | replace {n : Nat} {as bs : List Char} (a b : Char) :
    Edits n as bs → Edits (n + cost a b) (a :: as) (b :: bs)
  | delete {n : Nat} {as bs : List Char} (a : Char) : Edits n as bs → Edits (n + 1) (a :: as) bs
  | insert {n : Nat} {as bs : List Char} (b : Char) : Edits n as bs → Edits (n + 1) as (b :: bs)

variable {a b : Char} {as bs cs ds done : List Char} {m n : Nat}

/-! ## Scripts -/

namespace Edits

theorem keep (h : Edits n as bs) (a : Char) : Edits n (a :: as) (a :: bs) := by
  simpa [cost_self] using h.replace a a

theorem refl : (as : List Char) → Edits 0 as as
  | [] => nil
  | a :: as => (refl as).keep a

theorem deleteAll : (as : List Char) → Edits as.length as []
  | [] => nil
  | a :: as => (deleteAll as).delete a

/-- A script undone: what was inserted is deleted. -/
theorem symm (h : Edits n as bs) : Edits n bs as := by
  induction h with
  | nil => exact nil
  | replace a b _ ih => exact cost_comm a b ▸ ih.replace b a
  | delete a _ ih => exact ih.insert a
  | insert b _ ih => exact ih.delete b

theorem eq_of_zero (h : Edits 0 as bs) : as = bs := by
  generalize hn : 0 = n at h
  induction h with
  | nil => rfl
  | replace a b _ ih =>
    obtain ⟨hn, hcost⟩ := Nat.add_eq_zero_iff.1 hn.symm
    rw [ih hn.symm, eq_of_cost hcost]
  | delete | insert => cases hn

theorem append (h : Edits m as bs) (h' : Edits n cs ds) : Edits (m + n) (as ++ cs) (bs ++ ds) := by
  induction h with
  | nil => simpa using h'
  | replace a b _ ih => exact Nat.add_right_comm .. ▸ ih.replace a b
  | delete a _ ih => exact Nat.add_right_comm .. ▸ ih.delete a
  | insert b _ ih => exact Nat.add_right_comm .. ▸ ih.insert b

/-- A script from the last characters to the first. -/
theorem reverse (h : Edits n as bs) : Edits n as.reverse bs.reverse := by
  induction h with
  | nil => exact nil
  | replace a b _ ih => simpa using ih.append (nil.replace a b)
  | delete a _ ih => simpa using ih.append (nil.delete a)
  | insert b _ ih => simpa using ih.append (nil.insert b)

/-- **One script after the other**: the second goes through what the first has made of the text. Where it
deletes what the first has inserted, neither edit is left. -/
theorem comp : {as bs cs : List Char} → {m n : Nat} → Edits m as bs → Edits n bs cs →
    ∃ k ≤ m + n, Edits k as cs
  | _, _, _, _, _, .nil, h' => ⟨_, Nat.le_add_left .., h'⟩
  | _, _, _, _, _, .delete a h, h' =>
    have ⟨k, hk, hedits⟩ := comp h h'
    ⟨k + 1, by omega, hedits.delete a⟩
  | _, _, _, _, _, h, .insert c h' =>
    have ⟨k, hk, hedits⟩ := comp h h'
    ⟨k + 1, by omega, hedits.insert c⟩
  | _, _, _, _, _, .replace a b h, .replace _ c h' =>
    have ⟨k, hk, hedits⟩ := comp h h'
    have hcost := cost_triangle a b c
    ⟨k + cost a c, by omega, hedits.replace a c⟩
  | _, _, _, _, _, .replace a _ h, .delete _ h' =>
    have ⟨k, hk, hedits⟩ := comp h h'
    ⟨k + 1, by omega, hedits.delete a⟩
  | _, _, _, _, _, .insert b h, .replace _ c h' =>
    have ⟨k, hk, hedits⟩ := comp h h'
    ⟨k + 1, by omega, hedits.insert c⟩
  | _, _, _, _, _, .insert _ h, .delete _ h' =>
    have ⟨k, hk, hedits⟩ := comp h h'
    ⟨k, by omega, hedits⟩
termination_by as bs cs => as.length + bs.length + cs.length

end Edits

/-! ## The distance by recursion -/

theorem editDistance_nil (bs : List Char) : editDistance [] bs = bs.length := by
  rw [editDistance]

theorem editDistance_to_nil (as : List Char) : editDistance as [] = as.length := by
  cases as <;> simp [editDistance]

theorem editDistance_cons (a b : Char) (as bs : List Char) :
    editDistance (a :: as) (b :: bs) =
      min (min (editDistance as (b :: bs) + 1) (editDistance (a :: as) bs + 1))
        (editDistance as bs + cost a b) := by
  rw [editDistance]

/-- There is a script with as many edits as the distance. -/
theorem edits_editDistance : (as bs : List Char) → Edits (editDistance as bs) as bs
  | [], bs => editDistance_nil bs ▸ (Edits.deleteAll bs).symm
  | a :: as, [] => editDistance_to_nil (a :: as) ▸ Edits.deleteAll (a :: as)
  | a :: as, b :: bs => by
    have hdelete := (edits_editDistance as (b :: bs)).delete a
    have hinsert := (edits_editDistance (a :: as) bs).insert b
    have hreplace := (edits_editDistance as bs).replace a b
    have hleast : editDistance (a :: as) (b :: bs) = editDistance as (b :: bs) + 1 ∨
        editDistance (a :: as) (b :: bs) = editDistance (a :: as) bs + 1 ∨
        editDistance (a :: as) (b :: bs) = editDistance as bs + cost a b := by
      rw [editDistance_cons]
      omega
    rcases hleast with h | h | h <;> rw [h]
    · exact hdelete
    · exact hinsert
    · exact hreplace
termination_by as bs => as.length + bs.length

theorem editDistance_delete_le (a : Char) (as bs : List Char) :
    editDistance (a :: as) bs ≤ editDistance as bs + 1 := by
  cases bs with
  | nil => simp [editDistance_to_nil]
  | cons b bs =>
    rw [editDistance_cons]
    omega

theorem editDistance_insert_le (b : Char) (as bs : List Char) :
    editDistance as (b :: bs) ≤ editDistance as bs + 1 := by
  cases as with
  | nil => simp [editDistance_nil]
  | cons a as =>
    rw [editDistance_cons]
    omega

/-- No script has fewer edits than the distance. -/
theorem Edits.editDistance_le (h : Edits n as bs) : editDistance as bs ≤ n := by
  induction h with
  | nil => simp [editDistance_nil]
  | @replace n as bs a b _ ih =>
    rw [editDistance_cons]
    omega
  | @delete n as bs a _ ih =>
    have hle := editDistance_delete_le a as bs
    omega
  | @insert n as bs b _ ih =>
    have hle := editDistance_insert_le b as bs
    omega

/-- **The edit distance is the least number of edits.** -/
theorem isLeast_editDistance (as bs : List Char) : IsLeast {n | Edits n as bs} (editDistance as bs) :=
  ⟨edits_editDistance as bs, fun _ h => h.editDistance_le⟩

theorem editDistance_comm (as bs : List Char) : editDistance as bs = editDistance bs as :=
  Nat.le_antisymm (edits_editDistance bs as).symm.editDistance_le (edits_editDistance as bs).symm.editDistance_le

theorem editDistance_eq_zero : editDistance as bs = 0 ↔ as = bs := by
  constructor
  · intro hzero
    exact (hzero ▸ edits_editDistance as bs).eq_of_zero
  · rintro rfl
    exact Nat.le_zero.1 (Edits.refl as).editDistance_le

theorem editDistance_triangle (as bs cs : List Char) :
    editDistance as cs ≤ editDistance as bs + editDistance bs cs := by
  obtain ⟨k, hk, hedits⟩ := (edits_editDistance as bs).comp (edits_editDistance bs cs)
  exact hedits.editDistance_le.trans hk

theorem editDistance_reverse (as bs : List Char) :
    editDistance as.reverse bs.reverse = editDistance as bs := by
  apply Nat.le_antisymm
  · exact (edits_editDistance as bs).reverse.editDistance_le
  · simpa using (edits_editDistance as.reverse bs.reverse).reverse.editDistance_le

/-- The recursion at the last characters. -/
theorem editDistance_concat (a b : Char) (as bs : List Char) :
    editDistance (as ++ [a]) (bs ++ [b]) =
      min (min (editDistance as (bs ++ [b]) + 1) (editDistance (as ++ [a]) bs + 1))
        (editDistance as bs + cost a b) := by
  have hcons := editDistance_cons a b as.reverse bs.reverse
  have hconcat (c : Char) (cs : List Char) : c :: cs.reverse = (cs ++ [c]).reverse := by simp
  simpa only [hconcat, editDistance_reverse] using hcons

/-! ## The rows -/

/-- The cells of the row, up to the one of the first `k` characters of `bs`, hold the distances of `as` to the
texts that `bs` begins with. -/
structure RowTo (as bs : List Char) (k : Nat) (row : Array Nat) : Prop where
  size : row.size = bs.length + 1
  cell : ∀ j ≤ k, row.getD j 0 = editDistance as (bs.take j)

variable {last row spare : Array Nat}

theorem fillRow_nil (j : Nat) : fillRow a last j [] row = row := rfl

theorem fillRow_cons (j : Nat) : fillRow a last j (b :: bs) row =
    fillRow a last (j + 1) bs (row.setIfInBounds (j + 1) (min (min (last.getD (j + 1) 0 + 1)
      (row.getD j 0 + 1)) (last.getD j 0 + cost a b))) := rfl

theorem fillRows_nil (i : Nat) : fillRows bs i [] last spare = last := rfl

theorem fillRows_cons (i : Nat) : fillRows bs i (a :: as) last spare =
    fillRows bs (i + 1) as (fillRow a last 0 bs (spare.setIfInBounds 0 (i + 1))) last := rfl

theorem getD_setIfInBounds {j i : Nat} {entry : Nat} (hj : j < row.size) :
    (row.setIfInBounds j entry).getD i 0 = if j = i then entry else row.getD i 0 := by
  rw [Array.getD_eq_getD_getElem?, Array.getElem?_setIfInBounds, Array.getD_eq_getD_getElem?]
  by_cases hji : j = i
  · rw [if_pos hji, if_pos hji, if_pos hj, Option.getD_some]
  · rw [if_neg hji, if_neg hji]

theorem take_succ_append (done : List Char) (b : Char) (bs : List Char) :
    (done ++ b :: bs).take (done.length + 1) = done ++ [b] := by
  rw [List.take_length_add_append, List.take_succ_cons, List.take_zero]

namespace RowTo

/-- The row of no text is counted off. -/
theorem range (bs : List Char) :
    RowTo [] bs bs.length (List.range (bs.length + 1)).toArray where
  size := by simp
  cell j hj := by
    have hlt : j < bs.length + 1 := Nat.lt_succ_of_le hj
    simp [editDistance_nil, Array.getD_eq_getD_getElem?, hlt, hj]

/-- Writing the first cell. -/
theorem first (hsize : row.size = bs.length + 1) (as : List Char) :
    RowTo as bs 0 (row.setIfInBounds 0 as.length) where
  size := by rw [Array.size_setIfInBounds, hsize]
  cell j hj := by
    obtain rfl := Nat.le_zero.1 hj
    rw [getD_setIfInBounds (by omega), if_pos rfl, List.take_zero, editDistance_to_nil]

/-- Writing the next cell leaves the ones before. -/
theorem next {entry : Nat} (hrow : RowTo as (done ++ b :: bs) done.length row)
    (hentry : entry = editDistance as (done ++ [b])) :
    RowTo as (done ++ b :: bs) (done ++ [b]).length (row.setIfInBounds (done.length + 1) entry) where
  size := by rw [Array.size_setIfInBounds, hrow.size]
  cell j hj := by
    have hsize := hrow.size
    rw [List.length_append, List.length_cons] at hsize
    rw [List.length_append, List.length_singleton] at hj
    rw [getD_setIfInBounds (by omega)]
    by_cases hnext : done.length + 1 = j
    · rw [if_pos hnext, hentry, ← hnext, take_succ_append]
    · rw [if_neg hnext]
      exact hrow.cell j (by omega)

/-- **One row after the other**: once the cells up to `done` are written, the rest of the row gets the
distances of the text with `a` added. -/
theorem fillRow (done : List Char) (hlast : RowTo as (done ++ bs) (done ++ bs).length last)
    (hrow : RowTo (as ++ [a]) (done ++ bs) done.length row) :
    RowTo (as ++ [a]) (done ++ bs) (done ++ bs).length (fillRow a last done.length bs row) := by
  induction bs generalizing done row with
  | nil => simpa [fillRow_nil] using hrow
  | cons b bs ih =>
    have hlen : (done ++ b :: bs).length = done.length + (bs.length + 1) := List.length_append
    -- the cells that the next one is computed from: two of the complete row, and the one just written
    have habove : last.getD (done.length + 1) 0 = editDistance as (done ++ [b]) := by
      rw [hlast.cell _ (by omega), take_succ_append]
    have hleft : row.getD done.length 0 = editDistance (as ++ [a]) done := by
      rw [hrow.cell _ (Nat.le_refl _)]
      simp
    have hdiagonal : last.getD done.length 0 = editDistance as done := by
      rw [hlast.cell _ (by omega)]
      simp
    have hnext := hrow.next (editDistance_concat a b as done).symm
    rw [← hdiagonal, ← habove, ← hleft] at hnext
    rw [List.append_cons done b bs] at hlast hnext ⊢
    have hrest := ih _ hlast hnext
    simpa only [fillRow_cons, List.length_append, List.length_singleton] using hrest

/-- **All rows**: the last one holds the distances of the whole text. -/
theorem fillRows (as : List Char) (hlast : RowTo done bs bs.length last) (hspare : spare.size = bs.length + 1) :
    RowTo (done ++ as) bs bs.length (fillRows bs done.length as last spare) := by
  induction as generalizing done last spare with
  | nil => simpa [fillRows_nil] using hlast
  | cons a as ih =>
    have hfirst := RowTo.first hspare (done ++ [a])
    have hnext := RowTo.fillRow [] hlast hfirst
    have hrest := ih hnext hlast.size
    simpa only [fillRows_cons, List.append_assoc, List.singleton_append, List.length_append,
      List.length_singleton, List.length_nil] using hrest

end RowTo

theorem distance_eq (as bs : List Char) : distance as bs = editDistance as bs := by
  have hspare : (Array.replicate (bs.length + 1) 0).size = bs.length + 1 := Array.size_replicate
  have hrows := (RowTo.range bs).fillRows as hspare
  have hcell := hrows.cell bs.length (Nat.le_refl _)
  rw [List.take_length] at hcell
  exact hcell

/-- **The edit distance is computed, and is a metric**: the least number of edits that lead from one text to
the other. -/
theorem distance_metric (a b c : String) :
    distance a.toList b.toList = editDistance a.toList b.toList ∧
    IsLeast {n | Edits n a.toList b.toList} (distance a.toList b.toList) ∧
    distance a.toList b.toList = distance b.toList a.toList ∧
    (distance a.toList b.toList = 0 ↔ a = b) ∧
    distance a.toList c.toList ≤ distance a.toList b.toList + distance b.toList c.toList := by
  refine ⟨distance_eq .., ?_, ?_, ?_, ?_⟩ <;> simp only [distance_eq]
  · exact isLeast_editDistance ..
  · exact editDistance_comm ..
  · rw [editDistance_eq_zero, String.toList_inj]
  · exact editDistance_triangle ..

/-- Two characters are put in the place of others and one is inserted. -/
example : distance "kitten".toList "sitting".toList = 3 := by cbv

end BlockLang.Text
