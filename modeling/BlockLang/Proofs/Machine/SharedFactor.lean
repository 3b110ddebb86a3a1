import BlockLang.Proofs.CallTree.Writing
import BlockLang.Proofs.Machine.Rewriting
import BlockLang.Proofs.Value.Fractions

/-!
# Sums that share a factor

The sum of a variable `x` and its product with a variable `y` is built as the one product `x * (y + 1)`,
in whichever order the sum and the product in it are written (`SharedSum`).

**Theorem (`sharedFactor_outcome`).** On integers and fractions the two forms never differ in a value: where
both have one, it is the same, and where a form has none, it overflows. Each has a value exactly if all the
numbers that it computes on the way fit words.

Those numbers are not the same for the two forms. `0 + 0 * y` is zero for the greatest integer `y` while
`y + 1` overflows (`sharedFactor_overflows`), and `x * y` may overflow where `x * (y + 1)` does not. So the
forms agree exactly where both fit or neither does.

* `callTrees_items` — all three ways to write the sum are built as the product.
* `sumOf_of_fits`, `factoredOf_of_fits` — the values of the forms, as exact numbers.
* `writtenFits_ofInt64`, `factoredFits_ofInt64` — which numbers have to fit where the operands are integers.
-/

namespace BlockLang

open CallTree Exec

/-- The ways to write the sum of a variable and its product with another one. -/
inductive SharedSum where
  /-- `x + x * y` -/
  | last
  /-- `x + (y * x)` -/
  | turned
  /-- `(x * y) + x` -/
  | first
deriving DecidableEq, Repr

namespace SharedSum

/-- The items of the sum as it is written. -/
def items (x y : String) : SharedSum → List Value
  | last => [.word x, .symbol .plus, .word x, .symbol .asterisk, .word y]
  | turned => [.word x, .symbol .plus, .inline [.word y, .symbol .asterisk, .word x]]
  | first => [.inline [.word x, .symbol .asterisk, .word y], .symbol .plus, .word x]

def product (x y : String) : PureExpr := .binary (.arith .mul) (.load x) (.load y)

/-- The sum as it is written. -/
def sum (x y : String) : SharedSum → PureExpr
  | last => .binary (.arith .add) (.load x) (product x y)
  | turned => .binary (.arith .add) (.load x) (product y x)
  | first => .binary (.arith .add) (product x y) (.load x)

/-- The product that the sum becomes. -/
def factored (x y : String) : PureExpr := .binary (.arith .mul) (.load x) (.unary .inc (.load y))

/-! ## The rewrite -/

variable {x y : String}

/-- The factor beside a variable is found on either side of it. -/
theorem cofactor?_load (x y : String) :
    cofactor? (.load x) (.load x, .load y) = some (.load y) ∧
      cofactor? (.load x) (.load y, .load x) = some (.load y) := by
  by_cases h : x = y
  · simp [cofactor?, sameVariable, h]
  · simp [cofactor?, sameVariable, h]

theorem simplify_of_shared {l r e : PureExpr}
    (h : simplifyBinary? .add l.tree r.tree = some e.tree) :
    (PureExpr.binary (.arith .add) l r).tree.simplify = e.tree := by
  have htwo := PureExpr.simplify_two (l := l) (r := r) (o := .add) (by decide)
  rwa [h] at htwo

/-- **Every form of the sum is simplified to the product.** -/
theorem simplify_sum (s : SharedSum) (x y : String) :
    (s.sum x y).tree.simplify = (factored x y).tree := by
  obtain ⟨hright, hleft⟩ := cofactor?_load x y
  let share (t : CallTree) : CallTree := operation .mul [.load x, successor t]
  cases s with
  | last => exact simplify_of_shared (congrArg (Option.map share) hright)
  | turned => exact simplify_of_shared (congrArg (Option.map share) hleft)
  | first => exact simplify_of_shared (congrArg (Option.map share) hright)

/-! ## Written sums -/

section

open World

variable {w v : World} {bound : List String} {rest : List Value}

/-- **An inline of one term is attached as the tree of the term.** -/
theorem run_addItems_inline {t : Term} (ht : t.Fits w bound) (hlabels : t.labels ⊆ bound)
    (hv : w.Relabelled bound v) (d : Draft) (rest : List Value) (used : Nat) :
    ∃ v', w.Relabelled bound v' ∧
      (addItems false d 0 used (.inline t.items :: rest)).run.run v =
        (addItems false (v'.attach d (t.tree w) rest).1 (v'.attach d (t.tree w) rest).2 (used + 1)
          rest).run.run v' := by
  have hquiet : Quiet [] := fun _ _ h => nomatch h
  obtain ⟨v', hv', hitems⟩ := reads_term {} hquiet hv t ht hlabels 0
  rw [List.append_nil] at hitems
  have htrees : (inlineTrees (.inline t.items)).run.run v = (.ok [t.tree w], v') := by
    rw [inlineTrees, run_bind, hitems]
    rfl
  refine ⟨v', hv', ?_⟩
  rw [addItems, run_bind_of_ok htrees]
  rfl

/-- An inline with an operator behind it begins the call of the operator. -/
theorem reads_inline_operator {t : Term} (ht : t.Fits w bound) (hlabels : t.labels ⊆ bound)
    (hv : w.Relabelled bound v) {op : Operator} {n : Nat} (harity : w.arity? op.name = some (n + 1))
    (hbound : op.name ∉ bound) (d : Draft) :
    Reads bound w v d ((d.begin (w.callHead op.name true) (n + 1)).put (t.tree w))
      [.inline t.items, .symbol op.symbol] rest := by
  intro used
  obtain ⟨v', hv', hrun⟩ := run_addItems_inline ht hlabels hv d (.symbol op.symbol :: rest) used
  rw [← hv'.arity? hbound] at harity
  rw [attach_of_operator op harity, hv'.callHead] at hrun
  exact ⟨v', hv', hrun⟩

/-- An inline with no operator behind it is a tree. -/
theorem reads_inline {t : Term} (ht : t.Fits w bound) (hlabels : t.labels ⊆ bound)
    (hv : w.Relabelled bound v) (hq : Quiet rest) (d : Draft) :
    Reads bound w v d (d.put (t.tree w)) [.inline t.items] rest := by
  intro used
  obtain ⟨v', hv', hrun⟩ := run_addItems_inline ht hlabels hv d rest used
  rw [attach_of_quiet hq] at hrun
  exact ⟨v', hv', hrun⟩

/-- Two operands fill a call. -/
theorem put_put_begin (d : Draft) (op : Opcode) {t t' : CallTree} (ht : t.isAttr = false)
    (ht' : t'.isAttr = false) :
    ((d.begin (.operation op) 2).put t).put t' = d.put (operation op [t, t']).simplify :=
  foldl_put_enter d (List.cons_ne_nil t [t']) (by simp [ht, ht']) _ rfl

def plus : Operator := ⟨.plus, "add", rfl⟩

def times : Operator := ⟨.asterisk, "mul", rfl⟩

/-- The names of the operations mean what they mean at the beginning. -/
structure Calculates (w : World) : Prop where
  add : w.opcodeOf? "add" = some .add ∧ w.arity? "add" = some 2
  mul : w.opcodeOf? "mul" = some .mul ∧ w.arity? "mul" = some 2

/-- A sum is built when its second operand has been read behind the first one. -/
theorem reads_sum {w : World} (hw : Calculates w) {l r : PureExpr} {first second : List Value}
    (hfirst : Reads [] w w {} ((Draft.begin {} (w.callHead plus.name true) 2).put l.tree) first
      (second ++ []))
    (hsecond : ∀ v, w.Relabelled [] v → ∀ d, Reads [] w v d (d.put r.tree) second []) :
    Reads [] w w {} (Draft.put {} (PureExpr.binary (.arith .add) l r).tree.simplify)
      (first ++ second) [] := by
  have hadd : w.callHead plus.name true = .operation .add := by
    simp [callHead, plus, hw.add.1]
  have hbuilt := hfirst.trans fun v hv => hsecond v hv _
  rw [hadd, put_put_begin _ _ l.isAttr_tree r.isAttr_tree] at hbuilt
  exact hbuilt

/-- **However the sum is written, it is built as the product.** -/
theorem callTrees_items (s : SharedSum) {w : World} (hw : Calculates w) (x y : PlainWord)
    (hx : w.arity? x.name = none) (hy : w.arity? y.name = none) :
    ∃ v, w.Relabelled [] v ∧
      w.callTrees (s.items x.name y.name) = (.ok [(factored x.name y.name).tree], v) := by
  have hquiet : Quiet [] := fun _ _ h => nomatch h
  have hfree (name : String) : name ∉ [] := List.not_mem_nil
  let product' (a b : PlainWord) : Term := .between (.load a) times [.leaf (.load b)]
  have hplus : w.arity? plus.name = some (1 + 1) := hw.add.2
  have hfits {a b : PlainWord} (ha : w.arity? a.name = none) (hb : w.arity? b.name = none) :
      (product' a b).Fits w [] :=
    ⟨⟨hw.mul.2, hfree _⟩, ⟨ha, hfree _⟩, ⟨hb, hfree _⟩, trivial⟩
  have htree (a b : PlainWord) : (product' a b).tree w = (product a.name b.name).tree := by
    have hmul : w.callHead times.name true = .operation .mul := by
      simp [callHead, times, hw.mul.1]
    change (call (w.callHead times.name true) 2 _).simplify = _
    rw [hmul]
    rfl
  have hvariable (rest : List Value) : Reads [] w w {}
      ((Draft.begin {} (w.callHead plus.name true) 2).put (.load x.name))
      [.word x.name, .symbol .plus] rest :=
    have hleaf : (Leaf.load x).Fits w [] := ⟨hx, hfree _⟩
    reads_operator hleaf hplus (.refl [] w) {}
  have hbuilt : Reads [] w w {} (Draft.put {} (s.sum x.name y.name).tree.simplify)
      (s.items x.name y.name) [] := by
    cases s with
    | last =>
      refine reads_sum hw (l := .load x.name) (r := product x.name y.name) (hvariable _)
        fun v hv d => ?_
      rw [← htree]
      exact reads_term d hquiet hv (product' x y) (hfits hx hy) (List.Subset.refl _)
    | turned =>
      refine reads_sum hw (l := .load x.name) (r := product y.name x.name) (hvariable _)
        fun v hv d => ?_
      rw [← htree]
      exact reads_inline (hfits hy hx) (List.Subset.refl _) hv hquiet d
    | first =>
      have hfirst : Reads [] w w {} _ [_, .symbol .plus] ([.word x.name] ++ []) :=
        reads_inline_operator (hfits hx hy) (List.Subset.refl _) (.refl [] w) hplus (hfree _) {}
      rw [htree] at hfirst
      exact reads_sum hw (l := product x.name y.name) (r := .load x.name) hfirst fun v hv d =>
        reads_term d hquiet hv (.leaf (.load x)) ⟨hx, hfree _⟩ (List.Subset.refl _)
  obtain ⟨v, hv, hrun⟩ := hbuilt 0
  refine ⟨v, hv, ?_⟩
  rw [List.append_nil] at hrun
  rw [callTrees_eq, hrun, simplify_sum]
  rfl

end

/-! ## Values -/

/-- The value of the sum on two values. -/
def sumOf (a b : Value) : SharedSum → Except RuntimeError Value
  | last => Arith.mul.apply a b >>= Arith.add.apply a
  | turned => Arith.mul.apply b a >>= Arith.add.apply a
  | first => Arith.mul.apply a b >>= fun c => Arith.add.apply c a

/-- The value of the product that the sum becomes. -/
def factoredOf (a b : Value) : Except RuntimeError Value :=
  Arith.add.apply b (.integer 1) >>= Arith.mul.apply a

/-- All numbers on the way to `p + p * r` fit words. -/
structure WrittenFits (p r : Rational) : Prop where
  product : p.ProductFits r
  sum : ∀ z : Rational, z.toRat = p.toRat * r.toRat → p.SumFits z

/-- All numbers on the way to `p * (r + 1)` fit words. -/
structure FactoredFits (p r : Rational) : Prop where
  successor : r.SumFits (.ofInt64 1)
  product : ∀ z : Rational, z.toRat = r.toRat + 1 → p.ProductFits z

variable {a b : Value} {p r : Rational}

/-- The product in the sum, whichever way it is turned. -/
theorem exists_sumOf (s : SharedSum) (ha : a.fraction? = some p) (hb : b.fraction? = some r)
    (h : p.ProductFits r) : ∃ c z, z.toRat = p.toRat * r.toRat ∧ c.fraction? = some z ∧
      (s.sumOf a b = Arith.add.apply a c ∨ s.sumOf a b = Arith.add.apply c a) := by
  obtain ⟨z, hz, hnumber⟩ := Arith.mul_of_fits ha hb h
  obtain ⟨z', hz', hnumber'⟩ := Arith.mul_of_fits hb ha h.symm
  cases s with
  | last => exact ⟨_, z, hnumber, z.fraction?_toValue, .inl (by rw [sumOf, hz]; rfl)⟩
  | turned =>
    exact ⟨_, z', hnumber'.trans (mul_comm ..), z'.fraction?_toValue, .inl (by rw [sumOf, hz']; rfl)⟩
  | first => exact ⟨_, z, hnumber, z.fraction?_toValue, .inr (by rw [sumOf, hz]; rfl)⟩

/-- **The sum is exact** if all numbers on the way to it fit. -/
theorem sumOf_of_fits (s : SharedSum) (ha : a.fraction? = some p) (hb : b.fraction? = some r)
    (h : WrittenFits p r) :
    ∃ q : Rational, s.sumOf a b = .ok q.toValue ∧ q.toRat = p.toRat + p.toRat * r.toRat := by
  obtain ⟨c, z, hnumber, hc, hs | hs⟩ := s.exists_sumOf ha hb h.product
  · obtain ⟨q, hq, hsum⟩ := Arith.add_of_fits ha hc (h.sum z hnumber)
    exact ⟨q, hs.trans hq, hsum.trans (by rw [hnumber])⟩
  · obtain ⟨q, hq, hsum⟩ := Arith.add_of_fits hc ha (h.sum z hnumber).symm
    exact ⟨q, hs.trans hq, hsum.trans (by rw [hnumber, add_comm])⟩

/-- The sum overflows if a number on the way to it does not fit. -/
theorem sumOf_of_not_fits (s : SharedSum) (ha : a.fraction? = some p) (hb : b.fraction? = some r)
    (h : ¬ WrittenFits p r) : ∃ operation, s.sumOf a b = .error (.overflow operation) := by
  by_cases hproduct : p.ProductFits r
  · obtain ⟨c, z, hnumber, hc, hs⟩ := s.exists_sumOf ha hb hproduct
    have hsum : ¬ p.SumFits z := by
      refine fun hz => h ⟨hproduct, fun z' hnumber' => ?_⟩
      rwa [Rational.toRat_injective (hnumber'.trans hnumber.symm)]
    refine ⟨"add", ?_⟩
    rcases hs with hs | hs
    · exact hs.trans (Arith.add_of_not_fits ha hc hsum)
    · exact hs.trans (Arith.add_of_not_fits hc ha fun hz => hsum hz.symm)
  · refine ⟨"mul", ?_⟩
    have hmul := Arith.mul_of_not_fits ha hb hproduct
    have hmul' := Arith.mul_of_not_fits hb ha fun hz => hproduct hz.symm
    cases s with
    | last | first => rw [sumOf, hmul]; rfl
    | turned => rw [sumOf, hmul']; rfl

theorem fraction?_one : (Value.integer 1).fraction? = some (.ofInt64 1) := rfl

/-- **The product is exact** if all numbers on the way to it fit. -/
theorem factoredOf_of_fits (ha : a.fraction? = some p) (hb : b.fraction? = some r)
    (h : FactoredFits p r) :
    ∃ q : Rational, factoredOf a b = .ok q.toValue ∧ q.toRat = p.toRat * (r.toRat + 1) := by
  obtain ⟨z, hz, hnumber⟩ := Arith.add_of_fits hb fraction?_one h.successor
  rw [Rational.toRat_one] at hnumber
  obtain ⟨q, hq, hproduct⟩ := Arith.mul_of_fits ha z.fraction?_toValue (h.product z hnumber)
  refine ⟨q, ?_, hproduct.trans (by rw [hnumber])⟩
  rw [factoredOf, hz]
  exact hq

/-- The product overflows if a number on the way to it does not fit. -/
theorem factoredOf_of_not_fits (ha : a.fraction? = some p) (hb : b.fraction? = some r)
    (h : ¬ FactoredFits p r) : ∃ operation, factoredOf a b = .error (.overflow operation) := by
  by_cases hsuccessor : r.SumFits (.ofInt64 1)
  · obtain ⟨z, hz, hnumber⟩ := Arith.add_of_fits hb fraction?_one hsuccessor
    rw [Rational.toRat_one] at hnumber
    have hproduct : ¬ p.ProductFits z := by
      refine fun hz => h ⟨hsuccessor, fun z' hnumber' => ?_⟩
      rwa [Rational.toRat_injective (hnumber'.trans hnumber.symm)]
    refine ⟨"mul", ?_⟩
    rw [factoredOf, hz]
    exact Arith.mul_of_not_fits ha z.fraction?_toValue hproduct
  · refine ⟨"add", ?_⟩
    rw [factoredOf, Arith.add_of_not_fits hb fraction?_one hsuccessor]
    rfl

/-- What the results of a sum and of the product that it becomes have in common. -/
structure Outcome (p r : Rational) (q q' : Except RuntimeError Value) : Prop where
  /-- Where both have a value, it is the same. -/
  same : ∀ v v', q = .ok v → q' = .ok v' → v = v'
  sum : (∃ v, q = .ok v) ↔ WrittenFits p r
  factored : (∃ v, q' = .ok v) ↔ FactoredFits p r
  /-- They have the same value or both fail if all numbers fit on both ways or on neither. -/
  agree : SameResult q q' ↔ (WrittenFits p r ↔ FactoredFits p r)
  overflow : ∀ c, q = .error c ∨ q' = .error c → ∃ operation, c = .overflow operation

/-- **The values of both forms**, on all integers and fractions. -/
theorem outcome (s : SharedSum) (ha : a.fraction? = some p) (hb : b.fraction? = some r) :
    Outcome p r (s.sumOf a b) (factoredOf a b) := by
  by_cases hsum : WrittenFits p r
  · obtain ⟨q, hq, hnumber⟩ := s.sumOf_of_fits ha hb hsum
    rw [hq]
    by_cases hfactored : FactoredFits p r
    · obtain ⟨q', hq', hnumber'⟩ := factoredOf_of_fits ha hb hfactored
      have hsame : q = q' := Rational.toRat_injective (by rw [hnumber, hnumber']; ring)
      rw [hq', hsame]
      exact {
        same := fun v v' hv hv' => (Except.ok.inj hv).symm.trans (Except.ok.inj hv')
        sum := iff_of_true ⟨_, rfl⟩ hsum
        factored := iff_of_true ⟨_, rfl⟩ hfactored
        agree := iff_of_true rfl (iff_of_true hsum hfactored)
        overflow := fun c hc => by simp at hc }
    · obtain ⟨operation, hq'⟩ := factoredOf_of_not_fits ha hb hfactored
      rw [hq']
      exact {
        same := fun v v' _ hv' => nomatch hv'
        sum := iff_of_true ⟨_, rfl⟩ hsum
        factored := iff_of_false (by simp) hfactored
        agree := iff_of_false id fun h => hfactored (h.1 hsum)
        overflow := fun c hc => ⟨operation, by simpa [eq_comm] using hc⟩ }
  · obtain ⟨operation, hq⟩ := s.sumOf_of_not_fits ha hb hsum
    rw [hq]
    by_cases hfactored : FactoredFits p r
    · obtain ⟨q', hq', -⟩ := factoredOf_of_fits ha hb hfactored
      rw [hq']
      exact {
        same := fun v v' hv => nomatch hv
        sum := iff_of_false (by simp) hsum
        factored := iff_of_true ⟨_, rfl⟩ hfactored
        agree := iff_of_false id fun h => hsum (h.2 hfactored)
        overflow := fun c hc => ⟨operation, by simpa [eq_comm] using hc⟩ }
    · obtain ⟨operation', hq'⟩ := factoredOf_of_not_fits ha hb hfactored
      rw [hq']
      exact {
        same := fun v v' hv => nomatch hv
        sum := iff_of_false (by simp) hsum
        factored := iff_of_false (by simp) hfactored
        agree := iff_of_true rfl (iff_of_false hsum hfactored)
        overflow := fun c hc => by
          rcases hc with hc | hc
          · exact ⟨operation, (Except.error.inj hc).symm⟩
          · exact ⟨operation', (Except.error.inj hc).symm⟩ }

/-! ### Integers -/

variable {i j : Int64}

/-- On integers, the sum needs words for the product and for the sum itself. -/
theorem writtenFits_ofInt64 : WrittenFits (.ofInt64 i) (.ofInt64 j) ↔
    FitsWord (i.toInt * j.toInt) ∧ FitsWord (i.toInt + i.toInt * j.toInt) := by
  have hnumber {k : Int64} (hk : k.toInt = i.toInt * j.toInt) :
      (Rational.ofInt64 k).toRat = (Rational.ofInt64 i).toRat * (Rational.ofInt64 j).toRat := by
    simp only [Rational.toRat_ofInt64, hk, Int.cast_mul]
  constructor
  · rintro ⟨hproduct, hsum⟩
    have hproduct := Rational.productFits_ofInt64.1 hproduct
    obtain ⟨k, hk⟩ := hproduct.exists_word
    have hsum := Rational.sumFits_ofInt64.1 (hsum _ (hnumber hk))
    rw [hk] at hsum
    exact ⟨hproduct, hsum⟩
  · rintro ⟨hproduct, hsum⟩
    obtain ⟨k, hk⟩ := hproduct.exists_word
    refine ⟨Rational.productFits_ofInt64.2 hproduct, fun z hz => ?_⟩
    rw [Rational.toRat_injective (hz.trans (hnumber hk).symm), Rational.sumFits_ofInt64, hk]
    exact hsum

/-- On integers, the product needs words for the successor and for the product itself. -/
theorem factoredFits_ofInt64 : FactoredFits (.ofInt64 i) (.ofInt64 j) ↔
    FitsWord (j.toInt + 1) ∧ FitsWord (i.toInt * (j.toInt + 1)) := by
  have hnumber {k : Int64} (hk : k.toInt = j.toInt + 1) :
      (Rational.ofInt64 k).toRat = (Rational.ofInt64 j).toRat + 1 := by
    simp only [Rational.toRat_ofInt64, hk, Int.cast_add, Int.cast_one]
  constructor
  · rintro ⟨hsuccessor, hproduct⟩
    have hsuccessor : FitsWord (j.toInt + 1) := Rational.sumFits_ofInt64.1 hsuccessor
    obtain ⟨k, hk⟩ := hsuccessor.exists_word
    have hproduct := Rational.productFits_ofInt64.1 (hproduct _ (hnumber hk))
    rw [hk] at hproduct
    exact ⟨hsuccessor, hproduct⟩
  · rintro ⟨hsuccessor, hproduct⟩
    obtain ⟨k, hk⟩ := hsuccessor.exists_word
    refine ⟨Rational.sumFits_ofInt64.2 hsuccessor, fun z hz => ?_⟩
    rw [Rational.toRat_injective (hz.trans (hnumber hk).symm), Rational.productFits_ofInt64, hk]
    exact hproduct

/-! ## Runs -/

variable {read : Value → Value} {w : World} {e e' : PureExpr} {q : Except RuntimeError Value} {v : Value}

/-- An operation whose first operand has a value goes on with the second. -/
theorem gives_arith {op : Arith} (he : e.Gives read w (.ok v)) (he' : e'.Gives read w q) :
    (PureExpr.binary (.arith op) e e').Gives read w (q >>= op.apply v) := by
  cases q with
  | ok v' =>
    have h : (Binary.arith op).result? w.heap 0 v v' = some (op.apply v v') := rfl
    exact .binary he he' h
  | error c => exact .secondFails _ he he'

theorem gives_arith_first {op : Arith} (he : e.Gives read w q) (he' : e'.Gives read w (.ok v)) :
    (PureExpr.binary (.arith op) e e').Gives read w (q >>= fun c => op.apply c v) := by
  cases q with
  | ok v' =>
    have h : (Binary.arith op).result? w.heap 0 v' v = some (op.apply v' v) := rfl
    exact .binary he he' h
  | error c => exact .firstFails _ _ he

theorem gives_sum (s : SharedSum) (ha : w.get? x = some a) (hb : w.get? y = some b) :
    (s.sum x y).Gives read w (s.sumOf a b) := by
  have hx : (PureExpr.load x).Gives read w (.ok a) := .bound ha
  have hy : (PureExpr.load y).Gives read w (.ok b) := .bound hb
  cases s with
  | last => exact gives_arith hx (gives_arith hx hy)
  | turned => exact gives_arith hx (gives_arith hy hx)
  | first => exact gives_arith_first (gives_arith hx hy) hx

theorem gives_factored (ha : w.get? x = some a) (hb : w.get? y = some b) :
    (factored x y).Gives read w (factoredOf a b) :=
  gives_arith (.bound ha) (PureExpr.gives_unary_iff.2 ⟨.ok b, .bound hb, rfl⟩)

/-- Expressions with few instructions have code. -/
theorem exists_executes (e : PureExpr) (he : e.emissions.length ≤ 0x10000) :
    ∃ u, CodeUnit.ofCalls [e.tree] = .ok u ∧ u.Executes e.emissions := by
  have hl := e.emission_postorder_one
  cases hu : CodeUnit.ofCalls [e.tree] with
  | ok u => exact ⟨u, rfl, executes_of_ofCalls e.wellFormed_tree hl hu⟩
  | error c =>
    cases c
    exact absurd ((ofCalls_eq_error_iff_overflows hl).1 hu) (not_overflows he)

theorem ends_of_concludes {piece : Nat → Exec Flow} {m : Machine}
    (h : Concludes piece m leave m (.ok v)) :
    Ends piece m (.ok .done, { m with stack := v :: m.stack }) := by
  obtain ⟨spent, least, h⟩ := h
  exact ⟨nofun, least + spent, h least (Nat.le_refl _)⟩

/-- **A sum and the product that it becomes** both have code. Run from any machine without attributes in
which the variables are integers or fractions, each leaves its value above the operands or fails, and
changes nothing else; what the results have in common is told by `Outcome`. -/
theorem sharedFactor_outcome (s : SharedSum) (x y : String) {m : Machine} (hm : m.attrs = [])
    {a b : Value} (ha : m.world.get? x = some a) (hb : m.world.get? y = some b) {p r : Rational}
    (hp : a.fraction? = some p) (hr : b.fraction? = some r) :
    ∃ u u' q q', CodeUnit.ofCalls [(s.sum x y).tree] = .ok u ∧
      CodeUnit.ofCalls [(s.sum x y).tree.simplify] = .ok u' ∧
      Concludes (execute · u 0) m leave m q ∧ Concludes (execute · u' 0) m leave m q' ∧
      Outcome p r q q' := by
  have hsum : (s.sum x y).emissions.length = 5 := by cases s <;> rfl
  have hfactored : (factored x y).emissions.length = 4 := rfl
  obtain ⟨u, hu, hexec⟩ := exists_executes (s.sum x y) (by omega)
  obtain ⟨u', hu', hexec'⟩ := exists_executes (factored x y) (by omega)
  refine ⟨u, u', s.sumOf a b, factoredOf a b, hu, ?_, ?_, ?_, s.outcome hp hr⟩
  · rw [simplify_sum]
    exact hu'
  · exact PureExpr.concludes_code hexec hm (s.gives_sum ha hb)
  · exact PureExpr.concludes_code hexec' hm (gives_factored ha hb)

theorem get?_set (w : World) {x y : String} (h : x ≠ y) (a b : Value) :
    ((w.set x a).set y b).get? x = some a ∧ ((w.set x a).set y b).get? y = some b :=
  ⟨(NameTable.get?_insert_of_ne h).trans NameTable.get?_insert_self, NameTable.get?_insert_self⟩

/-- Half of `y`, which is three, and once more: the sum and the product are both two. -/
theorem sharedFactor_outcome_half :
    let half : Rational := ⟨1, 2, by decide, by decide⟩
    let m : Machine := {
      world := ((World.initial {}).set "x" (.rational half)).set "y" (.integer 3) }
    m.attrs = [] ∧ m.world.get? "x" = some (.rational half) ∧ m.world.get? "y" = some (.integer 3) ∧
    (Value.rational half).fraction? = some half ∧ (Value.integer 3).fraction? = some (.ofInt64 3) ∧
    ∃ u u' q q', CodeUnit.ofCalls [(turned.sum "x" "y").tree] = .ok u ∧
      CodeUnit.ofCalls [(turned.sum "x" "y").tree.simplify] = .ok u' ∧
      Concludes (execute · u 0) m leave m q ∧ Concludes (execute · u' 0) m leave m q' ∧
      Outcome half (.ofInt64 3) q q' := by
  intro half m
  obtain ⟨hx, hy⟩ := get?_set (World.initial {}) (show "x" ≠ "y" by decide) (.rational half)
    (.integer 3)
  exact ⟨rfl, hx, hy, rfl, rfl, sharedFactor_outcome turned "x" "y" (m := m) rfl hx hy rfl rfl⟩

/-- **The forms may differ in whether they fail**: nothing plus nothing times the greatest integer is
nothing, but the product that it becomes overflows at `y + 1`. -/
theorem sharedFactor_overflows :
    let m : Machine := {
      world := ((World.initial {}).set "x" (.integer 0)).set "y" (.integer 9223372036854775807) }
    ∃ u u' failed, CodeUnit.ofCalls [(last.sum "x" "y").tree] = .ok u ∧
      CodeUnit.ofCalls [(last.sum "x" "y").tree.simplify] = .ok u' ∧
      Ends (execute · u 0) m (.ok .done, { m with stack := [.integer 0] }) ∧
      Ends (execute · u' 0) m (.error (.error (.runtime (.overflow "add"))), failed) := by
  intro m
  obtain ⟨hx, hy⟩ := get?_set (World.initial {}) (show "x" ≠ "y" by decide) (.integer 0)
    (.integer 9223372036854775807)
  obtain ⟨u, hu, hexec⟩ := exists_executes (last.sum "x" "y") (by decide)
  obtain ⟨u', hu', hexec'⟩ := exists_executes (factored "x" "y") (by decide)
  have hsum : last.sumOf (.integer 0) (.integer 9223372036854775807) = .ok (.integer 0) := rfl
  have hfactored : factoredOf (.integer 0) (.integer 9223372036854775807) =
      .error (.overflow "add") := rfl
  have hrun := PureExpr.concludes_code (m := m) hexec rfl (hsum ▸ last.gives_sum hx hy)
  have hrun' := PureExpr.concludes_code (m := m) hexec' rfl (hfactored ▸ gives_factored hx hy)
  obtain ⟨failed, -, -, hfailed⟩ := hrun'.ends_error
  exact ⟨u, u', failed, hu, simplify_sum last "x" "y" ▸ hu', ends_of_concludes hrun, hfailed⟩

end SharedSum

end BlockLang
