import BlockLang.Reading

/-!
# What lexemes are read into

The reader swaps the items of the surrounding bracket in and out of a stack. `Reading.Yields` says without a
stack what comes of it: which items some lexemes stand for, and on which line they end. Blanks and comments stand for
nothing, a line break for a marker, a bracket and all up to the one that closes it for one value, and any other token
for a value of its own (`Reading.valueOf?`).

**Theorem (`yields_of_readSource`).** The items of a source text are what its lexemes yield, from line 1 on.

Without their brackets items have leaves (`Value.leavesAll`), and these are what the lexemes stand for one by one, each
line break on the line that the ones in front of it lead to (`Reading.Yields.leavesAll_eq`).

`Reading.Takes` lists what reading one lexeme can do. What relates a reading to the relation is
`Reading.Reaches`: the lexemes up to some place yield the items of the innermost bracket, behind the bracket itself,
behind what the surrounding ones yield. Every lexeme that is read keeps to that (`Reading.Reaches.step`).
-/

namespace BlockLang

namespace Token

/-- The token that opens a bracket. -/
def opening : Bracket → Token
  | .block => .openBlock
  | .inline => .openInline

/-- The token that closes a bracket. -/
def closing : Bracket → Token
  | .block => .closeBlock
  | .inline => .closeInline

/-- Neither a blank nor a comment. -/
def isSolid : Token → Bool
  | .blank | .comment => false
  | _ => true

end Token

/-- The value that a closed bracket becomes. -/
def Value.ofBracket (b : Bracket) (items : List Value) : Value :=
  match b with
  | .block => .block items false
  | .inline => .inline items

namespace Value

mutual

/-- The values of which one that has been read is made up, with all its brackets left out. -/
def leaves : Value → List Value
  | .block items _ => leavesAll items
  | .inline items => leavesAll items
  | v => [v]

/-- The leaves of values, one after the other. -/
def leavesAll : List Value → List Value
  | [] => []
  | v :: rest => leaves v ++ leavesAll rest

end

theorem leaves_ofBracket (b : Bracket) (items : List Value) : (ofBracket b items).leaves = leavesAll items := by
  cases b <;> rw [ofBracket, leaves]

end Value

namespace Reading

open Token

/-- The value that a token is read as. -/
def valueOf? : Token → Option Value
  | .integer n => some (.integer n)
  | .floating x => some (.floating x)
  | .string s => some (.string s)
  | .word s => some (.word s)
  | .label s => some (.label s)
  | .literal s => some (.literal s)
  | .attr s => some (.attr s)
  | .attrLabel s => some (.attrLabel s)
  | .path s => some (.path (segments s))
  | .pathLabel s => some (.pathLabel (segments s))
  | .symbol s => some (.symbol s)
  | _ => none

/-- The lexemes stand for the items; the first of them is on line `n`, and what follows the last one is on
line `m`. -/
inductive Yields : (n : Nat) → List Lexeme → List Value → (m : Nat) → Prop
  | nil {n : Nat} : Yields n [] [] n
  | skip {n m : Nat} {x : Lexeme} {token : Token} {l : List Lexeme} {items : List Value} :
      x.result = .ok token → token.isSolid = false → Yields n l items m → Yields n (x :: l) items m
  | line {n m : Nat} {x : Lexeme} {l : List Lexeme} {items : List Value} :
      x.result = .ok .lineEnd → Yields (n + 1) l items m → Yields n (x :: l) (.newline (n + 1) :: items) m
  | value {n m : Nat} {x : Lexeme} {token : Token} {v : Value} {l : List Lexeme} {items : List Value} :
      x.result = .ok token → valueOf? token = some v → Yields n l items m → Yields n (x :: l) (v :: items) m
  | bracket {n k m : Nat} {x y : Lexeme} {l rest : List Lexeme} {inner items : List Value} (b : Bracket) :
      x.result = .ok (opening b) → y.result = .ok (closing b) → Yields n l inner k → Yields k rest items m →
      Yields n (x :: (l ++ y :: rest)) (.ofBracket b inner :: items) m

theorem Yields.append {n k m : Nat} {a b : List Lexeme} {items items' : List Value} (h : Yields n a items k)
    (h' : Yields k b items' m) : Yields n (a ++ b) (items ++ items') m := by
  induction h with
  | nil => exact h'
  | skip hx hsolid _ ih => exact .skip hx hsolid (ih h')
  | line hx _ ih => exact .line hx (ih h')
  | value hx hv _ ih => exact .value hx hv (ih h')
  | bracket b hx hy hl _ _ ih =>
    rw [List.cons_append, List.append_assoc, List.cons_append, List.cons_append]
    exact .bracket b hx hy hl (ih h')

/-- An error yields nothing. -/
theorem Yields.exists_token {n m : Nat} {l : List Lexeme} {items : List Value} (h : Yields n l items m) :
    ∀ x ∈ l, ∃ token, x.result = .ok token := by
  induction h with
  | nil => exact nofun
  | skip hx _ _ ih | line hx _ ih | value hx _ _ ih => exact List.forall_mem_cons.2 ⟨⟨_, hx⟩, ih⟩
  | bracket b hx hy _ _ ihInner ihRest =>
    refine List.forall_mem_cons.2 ⟨⟨_, hx⟩, List.forall_mem_append.2 ⟨ihInner, ?_⟩⟩
    exact List.forall_mem_cons.2 ⟨⟨_, hy⟩, ihRest⟩

/-! ## Leaves -/

def isLineEnd (x : Lexeme) : Bool := x.result matches .ok .lineEnd

/-- The leaf that a lexeme on line `n` stands for. -/
def leafOn? (n : Nat) (x : Lexeme) : Option Value :=
  match x.result with
  | .ok .lineEnd => some (.newline (n + 1))
  | .ok token => valueOf? token
  | .error _ => none

/-- What lexemes stand for with all brackets left out, from line `n` on. -/
def leavesFrom (n : Nat) : List Lexeme → List Value
  | [] => []
  | x :: l => (leafOn? n x).toList ++ leavesFrom (n + if isLineEnd x then 1 else 0) l

theorem leavesFrom_append (n : Nat) (a b : List Lexeme) :
    leavesFrom n (a ++ b) = leavesFrom n a ++ leavesFrom (n + a.countP isLineEnd) b := by
  induction a generalizing n with
  | nil => rfl
  | cons x a ih =>
    rw [List.cons_append, leavesFrom, leavesFrom, ih, List.append_assoc, List.countP_cons, Nat.add_assoc,
      Nat.add_comm (a.countP isLineEnd)]

theorem mem_leavesFrom {n : Nat} {l : List Lexeme} {v : Value} (h : v ∈ leavesFrom n l) :
    ∃ m, ∃ x ∈ l, leafOn? m x = some v := by
  induction l generalizing n with
  | nil => cases h
  | cons x l ih =>
    rcases List.mem_append.1 h with h | h
    · exact ⟨n, x, List.mem_cons_self, by simpa using h⟩
    · obtain ⟨m, y, hy, hv⟩ := ih h
      exact ⟨m, y, List.mem_cons_of_mem _ hy, hv⟩

theorem leafOn?_eq {x : Lexeme} {token : Token} (hx : x.result = .ok token) (ht : token ≠ .lineEnd) (n : Nat) :
    leafOn? n x = valueOf? token := by
  unfold leafOn?
  rw [hx]
  cases token <;> first | rfl | exact absurd rfl ht

/-- A token that is no line break does not end its line. -/
theorem leavesFrom_cons {n : Nat} {x : Lexeme} {token : Token} (hx : x.result = .ok token)
    (ht : token ≠ .lineEnd) (l : List Lexeme) :
    leavesFrom n (x :: l) = (valueOf? token).toList ++ leavesFrom n l ∧ isLineEnd x = false := by
  have hline : isLineEnd x = false := by
    unfold isLineEnd
    rw [hx]
    cases token <;> first | rfl | exact absurd rfl ht
  rw [leavesFrom, leafOn?_eq hx ht, hline]
  exact ⟨rfl, rfl⟩

theorem leaves_of_valueOf {token : Token} {v : Value} (h : valueOf? token = some v) : v.leaves = [v] := by
  cases token <;> cases h <;> rw [Value.leaves] <;> exact nofun

/-- The leaves of the items are what the lexemes stand for, and each line break begins a line. -/
theorem Yields.leavesAll_eq {n m : Nat} {l : List Lexeme} {items : List Value} (h : Yields n l items m) :
    Value.leavesAll items = leavesFrom n l ∧ m = n + l.countP isLineEnd := by
  induction h with
  | nil => exact ⟨rfl, rfl⟩
  | @skip n m x token l items hx hsolid _ ih =>
    obtain ⟨hl, hline⟩ := leavesFrom_cons (n := n) hx (by rintro rfl; cases hsolid) l
    have hnone : valueOf? token = none := by cases token <;> first | rfl | cases hsolid
    rw [hl, hnone, List.countP_cons_of_neg (by simp [hline])]
    exact ih
  | @line n m x l items hx _ ih =>
    have hline : isLineEnd x := by
      unfold isLineEnd
      rw [hx]
    have hleaf : leafOn? n x = some (.newline (n + 1)) := by
      unfold leafOn?
      rw [hx]
    rw [Value.leavesAll, ih.1, ih.2, leavesFrom, hleaf, if_pos hline, List.countP_cons_of_pos hline]
    exact ⟨rfl, by omega⟩
  | @value n m x token v l items hx hv _ ih =>
    obtain ⟨hl, hline⟩ := leavesFrom_cons (n := n) hx (by rintro rfl; cases hv) l
    rw [hl, hv, List.countP_cons_of_neg (by simp [hline]), Value.leavesAll, leaves_of_valueOf hv, ih.1]
    exact ⟨rfl, ih.2⟩
  | @bracket n k m x y l rest inner items b hx hy _ _ ihInner ihRest =>
    have hopen : opening b ≠ .lineEnd ∧ valueOf? (opening b) = none := by cases b <;> exact ⟨nofun, rfl⟩
    have hclose : closing b ≠ .lineEnd ∧ valueOf? (closing b) = none := by cases b <;> exact ⟨nofun, rfl⟩
    -- Neither bracket is a leaf or ends a line, so what is behind it goes on where the inner lexemes end.
    obtain ⟨hl, hline⟩ := leavesFrom_cons (n := n) hx hopen.1 (l ++ y :: rest)
    obtain ⟨hl', hline'⟩ := leavesFrom_cons (n := k) hy hclose.1 rest
    rw [Value.leavesAll, Value.leaves_ofBracket, ihInner.1, ihRest.1, hl, hopen.2, leavesFrom_append, ← ihInner.2,
      hl', hclose.2, List.countP_cons_of_neg (by simp [hline]), List.countP_append,
      List.countP_cons_of_neg (by simp [hline']), ihRest.2, ihInner.2, Nat.add_assoc]
    exact ⟨rfl, rfl⟩

/-! ## One lexeme -/

/-- What reading a lexeme can do. -/
inductive Takes (r : Reading) (x : Lexeme) : Reading → Prop
  | skip {token : Token} : x.result = .ok token → token.isSolid = false → Takes r x r
  | line : x.result = .ok .lineEnd →
      Takes r x { r with items := .newline (r.line + 1) :: r.items, line := r.line + 1 }
  | value {token : Token} {v : Value} {names : List String} : x.result = .ok token → valueOf? token = some v →
      Takes r x { r with items := v :: r.items, names }
  | opening (b : Bracket) : x.result = .ok (opening b) → Takes r x (r.enter b x.start)
  | closing {top : OpenBracket} {opened : List OpenBracket} : x.result = .ok (closing top.bracket) →
      r.opened = top :: opened →
      Takes r x { r with items := .ofBracket top.bracket r.items.reverse :: top.before, opened }

variable {r r' : Reading} {x : Lexeme}

theorem close_eq (r : Reading) (b : Bracket) (pos : Nat) :
    r.close b pos = match r.opened with
      | [] => .error (.unopened b pos)
      | top :: opened =>
        if top.bracket = b then
          .ok { r with items := .ofBracket b r.items.reverse :: top.before, opened }
        else .error (.mismatched top.bracket top.pos b pos) := by
  cases b <;> rfl

theorem takes_of_close {b : Bracket} (hx : x.result = .ok (closing b)) (h : r.close b x.start = .ok r') :
    Takes r x r' := by
  rw [close_eq] at h
  split at h
  · cases h
  · next top opened ho =>
    split at h
    · next hb =>
      subst hb
      cases h
      exact .closing hx ho
    · cases h

theorem takes_of_step (h : r.step x = .ok r') : Takes r x r' := by
  unfold step at h
  split at h
  · cases h
  · next token hx =>
    cases token with
    | blank | comment =>
      cases h
      exact .skip hx rfl
    | lineEnd =>
      cases h
      exact .line hx
    | openBlock =>
      cases h
      exact .opening .block hx
    | openInline =>
      cases h
      exact .opening .inline hx
    | closeBlock => exact takes_of_close (b := .block) hx h
    | closeInline => exact takes_of_close (b := .inline) hx h
    | _ =>
      cases h
      exact .value hx rfl

/-! ## All lexemes -/

/-- The reading has come to the end of these lexemes, on that line. -/
inductive Reaches : List OpenBracket → List Value → (line : Nat) → List Lexeme → Prop
  | outermost {items : List Value} {line : Nat} {l : List Lexeme} :
      Yields 1 l items.reverse line → Reaches [] items line l
  | inside {top : OpenBracket} {opened : List OpenBracket} {items : List Value} {n line : Nat} {x : Lexeme}
      {outer l : List Lexeme} : Reaches opened top.before n outer → x.result = .ok (opening top.bracket) →
      Yields n l items.reverse line → Reaches (top :: opened) items line (outer ++ x :: l)

namespace Reaches

variable {opened : List OpenBracket} {items : List Value} {n m : Nat} {l a : List Lexeme}

/-- More items in the innermost bracket. -/
theorem append (more : List Value) (h : Reaches opened items n l) (ha : Yields n a more.reverse m) :
    Reaches opened (more ++ items) m (l ++ a) := by
  cases h with
  | outermost hl => exact .outermost (by simpa using hl.append ha)
  | inside ho hx hl =>
    rw [List.append_assoc, List.cons_append]
    exact .inside ho hx (by simpa using hl.append ha)

/-- **Step.** A lexeme that is read is reached. -/
theorem step (h : Reaches r.opened r.items r.line l) (hs : Takes r x r') :
    Reaches r'.opened r'.items r'.line (l ++ [x]) := by
  cases hs with
  | skip hx hsolid => exact h.append [] (.skip hx hsolid .nil)
  | line hx => exact h.append [_] (.line hx .nil)
  | @value _ v _ hx hv => exact h.append [v] (.value hx hv .nil)
  | opening b hx => exact .inside h hx .nil
  | @closing top opened hx ho =>
    rw [ho] at h
    cases h with
    | inside houter hopen hl =>
      rw [List.append_assoc, List.cons_append]
      exact houter.append [_] (.bracket _ hopen hx hl .nil)

/-- **Run.** So are lexemes that are read to the end. -/
theorem steps (h : Reaches r.opened r.items r.line l) (hs : r.steps a = (r', none)) :
    Reaches r'.opened r'.items r'.line (l ++ a) := by
  induction a generalizing r l with
  | nil =>
    cases hs
    simpa using h
  | cons x a ih =>
    unfold Reading.steps at hs
    split at hs
    · next next hstep =>
      rw [List.append_cons]
      exact ih (h.step (takes_of_step hstep)) hs
    · cases hs

end Reaches

end Reading

/-- **The items of a source text are what its lexemes yield.** -/
theorem yields_of_readSource {source : String} {items : List Value} (h : readSource source = .ok items) :
    ∃ line, Reading.Yields 1 (Token.lexemes source) items line := by
  unfold readSource at h
  split at h
  · next r hs =>
    have hr : Reading.Reaches r.opened r.items r.line (Token.lexemes source) :=
      .steps (r := {}) (l := []) (.outermost .nil) hs
    unfold Reading.finish at h
    generalize Token.lexemes source = l at hr
    generalize r.opened = opened at h hr
    cases hr with
    | outermost hl =>
      cases h
      exact ⟨_, hl⟩
    | inside => cases h
  · cases h

end BlockLang
