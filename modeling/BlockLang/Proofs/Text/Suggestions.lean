import BlockLang.World
import Mathlib.Data.List.Sort
import Mathlib.Data.Prod.Lex
import Mathlib.Data.String.Basic

/-!
# Suggestions

**Theorem (`nearest_ranking`).** The names proposed for a name are the first three candidates within reach, from the
nearest to the farthest and in order where they are as near. They do not change when candidates change places
or come up again, so that an error says the same whatever order a table of bindings is gone through in.

Candidates are ranked by inserting them one by one into a list that is kept in order and free of repetitions.
Two lists in order with the same entries are the same list, which makes the ranking a function of the set of
candidates (`ranked_of_mem_iff`).
-/

namespace BlockLang

namespace Text

variable {name : String} {candidates : List String} {entry other : Nat × String} {l : List (Nat × String)}

/-! ## Inserting in order -/

theorem rankLE_iff : rankLE entry other ↔ toLex entry ≤ toLex other := by
  simp [rankLE, Prod.Lex.toLex_le_toLex]

/-- The entries are in order and none comes up twice. -/
def IsRanking (l : List (Nat × String)) : Prop := l.Pairwise fun a b => toLex a < toLex b

theorem mem_insertRanked : other ∈ insertRanked entry l ↔ other = entry ∨ other ∈ l := by
  induction l with
  | nil => simp [insertRanked]
  | cons first l ih =>
    rw [insertRanked]
    split
    · next heq => simp [heq]
    · split
      · simp
      · rw [List.mem_cons, ih, List.mem_cons, or_left_comm]

theorem IsRanking.insertRanked (h : IsRanking l) (entry : Nat × String) : IsRanking (insertRanked entry l) := by
  induction l with
  | nil => exact List.pairwise_singleton _ _
  | cons first l ih =>
    obtain ⟨hfirst, hl⟩ := List.pairwise_cons.1 h
    rw [Text.insertRanked]
    split
    · exact h
    · next hne =>
      split
      · next hle =>
        have hlt : toLex entry < toLex first := lt_of_le_of_ne (rankLE_iff.1 hle) hne
        refine List.pairwise_cons.2 ⟨fun e he => ?_, h⟩
        rcases List.mem_cons.1 he with rfl | he
        · exact hlt
        · exact hlt.trans (hfirst e he)
      · next hle =>
        have hlt : toLex first < toLex entry := lt_of_not_ge (mt rankLE_iff.2 hle)
        refine List.pairwise_cons.2 ⟨fun e he => ?_, ih hl⟩
        rcases mem_insertRanked.1 he with rfl | he
        · exact hlt
        · exact hfirst e he

/-! ## The ranking -/

theorem isRanking_ranked (name : String) (candidates : List String) : IsRanking (ranked name candidates) := by
  unfold ranked
  dsimp only
  generalize List.filterMap _ candidates = close
  induction close with
  | nil => exact List.Pairwise.nil
  | cons entry close ih => exact ih.insertRanked entry

theorem mem_ranked : entry ∈ ranked name candidates ↔ entry.2 ∈ candidates ∧
    entry.1 = distance name.toList entry.2.toList ∧ 0 < entry.1 ∧ entry.1 ≤ reach name := by
  have hfold (close : List (Nat × String)) : entry ∈ close.foldr insertRanked [] ↔ entry ∈ close := by
    induction close with
    | nil => rfl
    | cons first close ih => rw [List.foldr_cons, mem_insertRanked, ih, List.mem_cons]
  obtain ⟨d, candidate⟩ := entry
  rw [ranked, hfold, List.mem_filterMap]
  constructor
  · rintro ⟨c, hc, hentry⟩
    dsimp only at hentry
    split at hentry
    · next hclose =>
      cases hentry
      exact ⟨hc, rfl, hclose⟩
    · cases hentry
  · rintro ⟨hc, hd, hclose⟩
    dsimp only at hd
    exact ⟨candidate, hc, by rw [← hd, if_pos hclose]⟩

/-- **The ranking is a function of the set of candidates.** -/
theorem ranked_of_mem_iff {others : List String} (h : ∀ c, c ∈ others ↔ c ∈ candidates) :
    ranked name others = ranked name candidates :=
  (isRanking_ranked name others).eq_of_mem_iff (isRanking_ranked name candidates) fun e => by
    rw [mem_ranked, mem_ranked, h]

/-- The first candidate is nearer to the name, or as near and first in order. -/
def Precedes (name a b : String) : Prop :=
  distance name.toList a.toList < distance name.toList b.toList ∨
    distance name.toList a.toList = distance name.toList b.toList ∧ a < b

/-- All candidates within reach, in order. -/
def allNearest (name : String) (candidates : List String) : List String := (ranked name candidates).map (·.2)

theorem nearest_eq (name : String) (candidates : List String) :
    nearest name candidates = (allNearest name candidates).take 3 := List.map_take ..

theorem mem_allNearest {c : String} : c ∈ allNearest name candidates ↔ c ∈ candidates ∧
    0 < distance name.toList c.toList ∧ distance name.toList c.toList ≤ reach name := by
  rw [allNearest, List.mem_map]
  constructor
  · rintro ⟨entry, he, rfl⟩
    obtain ⟨hmem, hd, hclose⟩ := mem_ranked.1 he
    exact ⟨hmem, hd ▸ hclose⟩
  · rintro ⟨hmem, hclose⟩
    exact ⟨(_, c), mem_ranked.2 ⟨hmem, rfl, hclose⟩, rfl⟩

theorem pairwise_allNearest (name : String) (candidates : List String) :
    (allNearest name candidates).Pairwise (Precedes name) := by
  refine List.pairwise_map.2 ((isRanking_ranked name candidates).imp_of_mem fun {a b} ha hb hlt => ?_)
  obtain ⟨-, hda, -⟩ := mem_ranked.1 ha
  obtain ⟨-, hdb, -⟩ := mem_ranked.1 hb
  rw [Precedes, ← hda, ← hdb]
  exact Prod.Lex.toLex_lt_toLex.1 hlt

end Text

open Text

/-! ## Names that are not bound -/

theorem NameTable.mem_names {α : Type} {t : NameTable α} {name : String} :
    name ∈ t.names ↔ (t.get? name).isSome := by
  induction t with
  | nil => simp [names]
  | cons entry t ih =>
    obtain ⟨key, value⟩ := entry
    have hnames : names ((key, value) :: t) = key :: names t := rfl
    rw [hnames, List.mem_cons, ih, get?_cons]
    by_cases hkey : key = name
    · simp [hkey]
    · simp [hkey, Ne.symm hkey]

/-- The error for a name without a binding depends on which names are bound, and not on the order in which they
were. -/
theorem World.undefined_of_isSome_iff {w w' : World} (h : ∀ n, (w.get? n).isSome ↔ (w'.get? n).isSome)
    (name : String) : w.undefined name = w'.undefined name := by
  have hnames (n : String) : n ∈ w.scope.bindings.names ↔ n ∈ w'.scope.bindings.names := by
    rw [NameTable.mem_names, NameTable.mem_names]
    exact h n
  rw [undefined, undefined, nearest, nearest, ranked_of_mem_iff hnames]

/-- **Suggestions are the nearest candidates, in whatever order these are given.** The same names are proposed
when candidates change places or come up again, and in the error for a name that is not bound when the same
names are bound. Proposed are the first three, or all, of the distinct candidates within reach in their order, so no
candidate that is left out comes before one that is proposed. -/
theorem nearest_ranking (name : String) (candidates : List String) :
    (∀ others : List String, (∀ c, c ∈ others ↔ c ∈ candidates) →
      nearest name others = nearest name candidates) ∧
    (∀ w w' : World, (∀ n, (w.get? n).isSome ↔ (w'.get? n).isSome) →
      w.undefined name = w'.undefined name) ∧
    ∃ best : List String, best.Nodup ∧ best.Pairwise (Precedes name) ∧
      (∀ c, c ∈ best ↔ c ∈ candidates ∧ 0 < distance name.toList c.toList ∧
        distance name.toList c.toList ≤ min (name.length / 2 + 1) 3) ∧
      nearest name candidates = best.take 3 ∧
      ∀ omitted ∈ best, omitted ∉ nearest name candidates →
        ∀ listed ∈ nearest name candidates, Precedes name listed omitted := by
  refine ⟨fun others h => ?_, fun w w' h => World.undefined_of_isSome_iff h name,
    allNearest name candidates, ?_, pairwise_allNearest name candidates, fun c => mem_allNearest,
    nearest_eq name candidates, fun omitted hmem hnot listed hlisted => ?_⟩
  · rw [nearest, nearest, ranked_of_mem_iff h]
  · refine (pairwise_allNearest name candidates).imp fun {a b} hab heq => ?_
    subst heq
    simp [Precedes] at hab
  · rw [nearest_eq] at hnot hlisted
    have hall := pairwise_allNearest name candidates
    rw [← List.take_append_drop 3 (allNearest name candidates)] at hall hmem
    have hdrop : omitted ∈ (allNearest name candidates).drop 3 :=
      (List.mem_append.1 hmem).resolve_left hnot
    exact (List.pairwise_append.1 hall).2.2 listed hlisted omitted hdrop

/-- Two names are as near, one is given twice, and one is out of reach. -/
example : nearest "prin" ["prints", "loop", "print", "prine", "print"] = ["prine", "print", "prints"] := by cbv

end BlockLang
