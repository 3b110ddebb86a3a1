/-!
# Edit distance and suggestions

`distance` is the number of insertions, deletions and substitutions of single characters between two
texts, computed row by row: the row for a prefix of the first text holds its distance to every
prefix of the second. Two rows are kept, and the older one is overwritten by the next. `nearest` ranks
candidates by that distance, for the names proposed when a name is not found.
-/

namespace BlockLang.Text

/-- Writes the cells of `row` that come after `j`, for the characters `bs` that are left of the second text.
`row` becomes the row that follows `last` when `a` is added to the first text; until a cell is written it has
a value of an older row. -/
def fillRow (a : Char) (last : Array Nat) : (j : Nat) → (bs : List Char) → (row : Array Nat) → Array Nat
  | _, [], row => row
  | j, b :: bs, row =>
    let cost := if a = b then 0 else 1
    let entry := min (min (last.getD (j + 1) 0 + 1) (row.getD j 0 + 1)) (last.getD j 0 + cost)
    fillRow a last (j + 1) bs (row.setIfInBounds (j + 1) entry)

/-- The row for the whole first text: `last` is the row for its first `i` characters and `as` the rest. The
next row is written over `spare`, and `last` is what the one after that is written over. -/
def fillRows (bs : List Char) : (i : Nat) → (as : List Char) → (last spare : Array Nat) → Array Nat
  | _, [], last, _ => last
  | i, a :: as, last, spare =>
    fillRows bs (i + 1) as (fillRow a last 0 bs (spare.setIfInBounds 0 (i + 1))) last

/-- The edit distance between two texts. -/
def distance (as bs : List Char) : Nat :=
  let size := bs.length + 1
  (fillRows bs 0 as (List.range size).toArray (Array.replicate size 0)).getD bs.length 0

/-- The order of suggestions: nearer first, names of one distance in order. -/
def rankLE (a b : Nat × String) : Bool := a.1 < b.1 || a.1 == b.1 && a.2 ≤ b.2

/-- Adds an entry to a sorted list without repetitions. -/
def insertRanked (entry : Nat × String) : List (Nat × String) → List (Nat × String)
  | [] => [entry]
  | other :: l =>
    if entry = other then other :: l
    else if rankLE entry other then entry :: other :: l
    else other :: insertRanked entry l

/-- The distance up to which a candidate is proposed for a name. -/
def reach (name : String) : Nat := min (name.length / 2 + 1) 3

/-- The candidates within reach of a name, other than the name itself, with their distances: best
first and each once. -/
def ranked (name : String) (candidates : List String) : List (Nat × String) :=
  let close := candidates.filterMap fun candidate =>
    let d := distance name.toList candidate.toList
    if 0 < d ∧ d ≤ reach name then some (d, candidate) else none
  close.foldr insertRanked []

/-- At most three candidates to propose for a name. -/
def nearest (name : String) (candidates : List String) : List String :=
  ((ranked name candidates).take 3).map (·.2)

end BlockLang.Text
