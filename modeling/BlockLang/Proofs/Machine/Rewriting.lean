import BlockLang.Proofs.Machine.Evaluation
import BlockLang.Proofs.Value.Sums

/-!
# Rewriting calls keeps their meaning

Three rewrites replace a call by another one while the call tree is built: arithmetic on constants
becomes its result, adding or subtracting one becomes a step, and `unless` becomes `if` on the opposite
of its condition.

**Theorem (`simplify_sameMeaning`).** Where the operands are pure, the code of the call and the code of
what it becomes end alike from every machine without attributes: both with the same flow in the same
machine, or both with errors of one kind, the same world and the same output. There is code for
the one exactly if there is code for the other.

The errors themselves may differ: the name of the operation that fails is part of an error, and a call
that failed on its second operand may fail on its only one. What two runs leave on the stack when they
fail may differ as well.

* `gives_iff_of_shortens` — a call on pure operands has the results of what it is shortened to.
* `opposite_opposite` — a condition decides one way exactly when its opposite decides the other way.
* `concludes_branch` — what a branch does depends on that decision alone.

None of the calls has attributes. Both trees need the same constants, except where a constant is folded, so
one pool serves both; without that, the constants of one unit could not be compared with those of the
other, because constants that are the same share a slot.
-/

namespace BlockLang

open CallTree Exec

/-! ## Ending alike -/

section

variable {α : Type}

/-- The errors are of one kind. -/
def RuntimeError.SameKind (c c' : RuntimeError) : Prop := c.ctorIdx = c'.ctorIdx

/-- The errors are of one kind, also in what caused them at run time. -/
def Error.SameKind : Error → Error → Prop
  | .runtime c, .runtime c' => c.SameKind c'
  | e, e' => e.ctorIdx = e'.ctorIdx

/-- Both results are the same value, or both are errors of one kind. -/
def SameResult : Except RuntimeError α → Except RuntimeError α → Prop
  | .ok a, .ok b => a = b
  | .error c, .error c' => c.SameKind c'
  | _, _ => False

/-- Both runs have ended with the same flow in the same machine, or both have failed with errors of one
kind, in the same world and with the same output. -/
inductive SameEnd : Except Halt Flow × Machine → Except Halt Flow × Machine → Prop
  | ok (flow : Flow) (m : Machine) : SameEnd (.ok flow, m) (.ok flow, m)
  | error {e e' : Error} {m m' : Machine} (he : e.SameKind e') (hw : m.world = m'.world)
      (ho : m.output = m'.output) : SameEnd (.error (.error e), m) (.error (.error e'), m')

/-- From `m`, whatever end the first piece comes to, the second comes to one that is alike. -/
def EndsLike (x y : Nat → Exec Flow) (m : Machine) : Prop :=
  ∀ r, Ends x m r → ∃ r', Ends y m r' ∧ SameEnd r r'

/-- The trees have the same code, as far as a run without attributes can tell, or fail alike to have
any. -/
def CallTree.SameMeaning (t t' : CallTree) : Prop :=
  match CodeUnit.ofCalls [t], CodeUnit.ofCalls [t'] with
  | .ok u, .ok u' => ∀ m : Machine, m.attrs = [] →
    EndsLike (execute · u 0) (execute · u' 0) m ∧ EndsLike (execute · u' 0) (execute · u 0) m
  | .error e, .error e' => e = e'
  | _, _ => False

theorem SameResult.refl (q : Except RuntimeError α) : SameResult q q := by
  cases q <;> rfl

theorem SameResult.symm {q q' : Except RuntimeError α} (h : SameResult q q') : SameResult q' q := by
  cases q <;> cases q' <;> first | exact Eq.symm h | exact h

theorem SameEnd.refl {r : Except Halt Flow × Machine} (h : r.1 ≠ .error .outOfFuel) :
    SameEnd r r := by
  obtain ⟨(e | _) | flow, m⟩ := r
  · cases e <;> exact .error rfl rfl rfl
  · exact absurd rfl h
  · exact .ok flow m

variable {β : Type} {x y : Nat → Exec Flow} {k : β → Nat → Exec Flow} {m : Machine}

/-- Pieces that conclude with the same results end alike, if all ends come from results. -/
theorem endsLike_of_concludes (hx : ∀ {fuel fuel'}, fuel ≤ fuel' → Within (x fuel) (x fuel'))
    (hy : ∀ {fuel fuel'}, fuel ≤ fuel' → Within (y fuel) (y fuel'))
    (hk : ∀ b {fuel fuel'}, fuel ≤ fuel' → Within (k b fuel) (k b fuel'))
    (h : ∀ r, Ends x m r →
      ∃ q q', Concludes x m k m q ∧ Concludes y m k m q' ∧ SameResult q q') : EndsLike x y m := by
  intro r hr
  obtain ⟨q, q', hq, hq', hs⟩ := h r hr
  cases q with
  | ok b =>
    cases q' with
    | error c' => cases hs
    | ok b' =>
      cases hs
      have hb : Ends (k b) m r := (LeadsTo.ends_iff hq hx (hk b)).1 hr
      exact ⟨r, (LeadsTo.ends_iff hq' hy (hk b)).2 hb, .refl hr.1⟩
  | error c =>
    cases q' with
    | ok b' => cases hs
    | error c' =>
      obtain ⟨failed, hw, ho, hfailed⟩ := hq.ends_error
      obtain ⟨failed', hw', ho', hfailed'⟩ := hq'.ends_error
      rw [hr.unique hx hfailed]
      exact ⟨_, hfailed', .error hs (hw.trans hw'.symm) (ho.trans ho'.symm)⟩

end

/-! ## The code of one tree -/

/-- The unit has the given instructions, and ends behind them. -/
structure CodeUnit.Executes (u : CodeUnit) (l : List Emission) : Prop where
  distinct : u.Distinct
  pool : u.constants.toList = Value.firsts (l.filterMap Emission.constant?)
  reads : ∃ stop next, u.Reads 0 l stop ∧ decode u.code stop = ⟨some (.op .stop), next⟩

section

variable {A : CodeRef → Prop} {t t' : CallTree} {l l' : List Emission} {u u' : CodeUnit}

theorem neededConstants_eq (trees : List CallTree) :
    neededConstants trees =
      ((postorder trees).map Located.emission).filterMap Emission.constant? := by
  have h : Emission.constant? ∘ Located.emission = Located.pooled? := funext constant_emission
  rw [List.filterMap_map, h]
  rfl

/-- There are too many constants for the instructions. -/
def Overflows (l : List Emission) : Prop :=
  0x10000 < (Value.firsts (l.filterMap Emission.constant?)).length

theorem not_overflows (h : l.length ≤ 0x10000) : ¬ Overflows l := by
  have hfirsts := Value.length_firsts_le (l.filterMap Emission.constant?)
  have hmap := List.length_filterMap_le Emission.constant? l
  unfold Overflows
  omega

theorem executes_of_ofCalls (ht : t.WellFormed A) (hl : (postorder [t]).map Located.emission = l)
    (h : CodeUnit.ofCalls [t] = .ok u) : u.Executes l := by
  have hall : ∀ t' ∈ [t], t'.WellFormed A := by simpa using ht
  have hf := faithful_of_ofCalls hall h
  have hr := CodeUnit.reads_of_ofCalls hall h
  have hp := hf.firstUse
  rw [neededConstants_eq, hl] at hp
  rw [hl] at hr
  exact ⟨hf.distinct, hp, _, _, hr, hf.ends⟩

theorem ofCalls_eq_error_iff_overflows (hl : (postorder [t]).map Located.emission = l) :
    CodeUnit.ofCalls [t] = .error .tooManyConstants ↔ Overflows l := by
  rw [ofCalls_eq_error_iff, neededConstants_eq, hl]
  rfl

/-- Two trees mean the same if what their code executes ends alike, and if neither or both need too
many constants. -/
theorem sameMeaning_of_executes (ht : t.WellFormed A) (ht' : t'.WellFormed A)
    (hl : (postorder [t]).map Located.emission = l)
    (hl' : (postorder [t']).map Located.emission = l') (hfits : Overflows l ↔ Overflows l')
    (h : ∀ u u' : CodeUnit, u.Executes l → u'.Executes l' → ∀ m : Machine, m.attrs = [] →
      EndsLike (execute · u 0) (execute · u' 0) m ∧ EndsLike (execute · u' 0) (execute · u 0) m) :
    t.SameMeaning t' := by
  have hiff := ofCalls_eq_error_iff_overflows hl
  have hiff' := ofCalls_eq_error_iff_overflows hl'
  unfold SameMeaning
  cases hu : CodeUnit.ofCalls [t] with
  | ok u =>
    cases hu' : CodeUnit.ofCalls [t'] with
    | ok u' => exact h u u' (executes_of_ofCalls ht hl hu) (executes_of_ofCalls ht' hl' hu')
    | error e =>
      cases e
      rw [hiff.2 (hfits.2 (hiff'.1 hu'))] at hu
      cases hu
  | error e =>
    cases e
    rw [hiff'.2 (hfits.1 (hiff.1 hu))]

theorem CodeUnit.constantFor_congr (h : u.constants.toList = u'.constants.toList) :
    u.constantFor = u'.constantFor := by
  funext v
  unfold constantFor
  rw [h]

theorem execute_stop {pos next : Nat} (hd : decode u.code pos = ⟨some (.op .stop), next⟩)
    (fuel : Nat) : execute (fuel + 1) u pos = pure .done := by
  rw [execute, hd]

end

/-! ## Pure calls -/

/-- Pushes a value and comes to the end. -/
def leave (v : Value) (_ : Nat) : Exec Flow := plain (push v)

namespace PureExpr

variable {e e' : PureExpr} {u u' : CodeUnit} {m : Machine} {q : Except RuntimeError Value}

theorem concludes_code (hu : u.Executes e.emissions) (hm : m.attrs = [])
    (hq : e.Gives u.constantFor m.world q) :
    Concludes (execute · u 0) m leave m q := by
  obtain ⟨stop, next, hr, hd⟩ := hu.reads
  have h := evaluates_of_gives hu.distinct hq rfl hm hr
  have hend : ∀ v, Concludes (fun fuel => push v >>= fun _ => execute fuel u stop) m leave m
      (.ok v) := by
    refine fun v => ⟨1, 0, fun fuel _ => ?_⟩
    dsimp only
    rw [execute_stop hd]
    rfl
  rw [← bind_pure q]
  exact Concludes.bind h hend

theorem endsLike_code (hu : u.Executes e.emissions) (hu' : u'.Executes e'.emissions)
    (hm : m.attrs = [])
    (h : ∀ q, e.Gives u.constantFor m.world q → e'.Gives u'.constantFor m.world q) :
    EndsLike (execute · u 0) (execute · u' 0) m := by
  obtain ⟨stop, next, hr, -⟩ := hu.reads
  refine endsLike_of_concludes (fun hle => within_execute hle u 0)
    (fun hle => within_execute hle u' 0) (k := leave) (fun _ _ _ _ => .refl _) fun r hends => ?_
  obtain ⟨q, hq⟩ := e.exists_gives hu.distinct hm hr hends
  exact ⟨q, q, concludes_code hu hm hq, concludes_code hu' hm (h q hq), .refl q⟩

theorem emission_postorder_one (e : PureExpr) :
    (postorder [e.tree]).map Located.emission = e.emissions := by
  rw [postorder, postorderFrom, postorderFrom, List.append_nil, emission_postorder]

/-! ### Arithmetic -/

variable {read : Value → Value} {w : World} {op : Arith} {l r : PureExpr}

theorem gives_constant_iff {v : Value} :
    (constant v).Gives read w q ↔ q = .ok (read v) := by
  constructor
  · rintro ⟨⟩
    rfl
  · rintro rfl
    exact .constant v

/-- The result of an operation on one operand comes from that of its operand. -/
theorem gives_unary_iff {f : Unary} {a : PureExpr} :
    (unary f a).Gives read w q ↔ ∃ p, a.Gives read w p ∧ q = p >>= f.apply := by
  constructor
  · intro h
    cases h with
    | unary _ ha => exact ⟨_, ha, rfl⟩
    | operandFails _ ha => exact ⟨_, ha, rfl⟩
  · rintro ⟨c | x, hp, rfl⟩
    · exact .operandFails f hp
    · exact .unary f hp

theorem gives_arith_constant_iff {a : PureExpr} {v : Value} :
    (binary (.arith op) a (constant v)).Gives read w q ↔
      ∃ p, a.Gives read w p ∧ q = p >>= fun x => op.apply x (read v) := by
  constructor
  · intro h
    cases h with
    | firstFails _ _ ha => exact ⟨_, ha, rfl⟩
    | secondFails _ _ hv => cases hv
    | binary ha hv h =>
      cases hv
      exact ⟨_, ha, (Option.some.inj h).symm⟩
  · rintro ⟨c | x, ha, rfl⟩
    · exact .firstFails _ _ ha
    · have h : (Binary.arith op).result? w.heap 0 x (read v) = some (op.apply x (read v)) := rfl
      exact .binary ha (.constant v) h

theorem gives_constant_arith_iff {b : PureExpr} {v : Value} :
    (binary (.arith op) (constant v) b).Gives read w q ↔
      ∃ p, b.Gives read w p ∧ q = p >>= op.apply (read v) := by
  constructor
  · intro h
    cases h with
    | firstFails _ _ hv => cases hv
    | secondFails _ _ hb => exact ⟨_, hb, rfl⟩
    | binary hv hb h =>
      cases hv
      exact ⟨_, hb, (Option.some.inj h).symm⟩
  · rintro ⟨c | x, hb, rfl⟩
    · exact .secondFails _ (.constant v) hb
    · have h : (Binary.arith op).result? w.heap 0 (read v) x = some (op.apply (read v) x) := rfl
      exact .binary (.constant v) hb h

/-- **A call has the results of what it is shortened to.** -/
theorem gives_iff_of_shortens (h : Shortens op l r e)
    (hread : ∀ v : Value, v.isNumeric → read v = v) :
    (binary (.arith op) l r).Gives read w q ↔ e.Gives read w q := by
  have hone : read (.integer 1) = .integer 1 := hread _ rfl
  cases h with
  | @folded _ a b v ha hb h =>
    rw [gives_arith_constant_iff, gives_constant_iff, hread _ hb,
      hread _ (Arith.isNumeric_of_apply h)]
    constructor
    · rintro ⟨p, hp, rfl⟩
      rw [gives_constant_iff.1 hp, hread _ ha]
      exact h
    · rintro rfl
      refine ⟨_, .constant a, ?_⟩
      rw [hread _ ha]
      exact h.symm
  | plusOne e => rw [gives_arith_constant_iff, gives_unary_iff, hone]; rfl
  | minusOne e => rw [gives_arith_constant_iff, gives_unary_iff, hone]; rfl
  | onePlus e =>
    have hcomm : Arith.add.apply (.integer 1) = Unary.inc.apply := by
      funext v
      refine Arith.add_apply_comm rfl (fun x hx => ?_) v
      obtain rfl := Option.some.inj hx
      exact Binary64.isNaN_ofInt_one
    rw [gives_constant_arith_iff, gives_unary_iff, hone, hcomm]

theorem constantFor_of_isNumeric (u : CodeUnit) {v : Value} (hv : v.isNumeric) :
    u.constantFor v = v :=
  Value.eq_of_same_isNumeric hv (u.same_constantFor v)

/-- A constant is folded, or the two expressions need the same constants. -/
theorem constants_of_shortens (h : Shortens op l r e) :
    (∃ v : Value, v.isNumeric ∧ e = constant v ∧ ¬ Overflows (binary (.arith op) l r).emissions ∧
      ¬ Overflows e.emissions) ∨
    (binary (.arith op) l r).emissions.filterMap Emission.constant? =
      e.emissions.filterMap Emission.constant? := by
  have hone : (Located.emission ⟨[], .constant (.integer 1)⟩).constant? = none := rfl
  have hop (o : Opcode) : (Emission.op o).constant? = none := rfl
  cases h with
  | @folded _ a b v _ _ h =>
    have hfits : ¬ Overflows (binary (.arith op) (constant a) (constant b)).emissions :=
      not_overflows (by simp [emissions])
    exact .inl ⟨v, Arith.isNumeric_of_apply h, rfl, hfits, not_overflows (by simp [emissions])⟩
  | plusOne e => exact .inr (by simp [emissions, hone, hop])
  | minusOne e => exact .inr (by simp [emissions, hone, hop])
  | onePlus e => exact .inr (by simp [emissions, hone, hop])

/-- **A call means the same as what it is shortened to.** -/
theorem sameMeaning_of_shortens (h : Shortens op l r e) :
    (binary (.arith op) l r).tree.SameMeaning e.tree := by
  refine sameMeaning_of_executes (wellFormed_tree _) (wellFormed_tree _) (emission_postorder_one _)
    (emission_postorder_one _) ?_ fun u u' hu hu' m hm => ?_
  · rcases constants_of_shortens h with ⟨v, -, -, hl, hl'⟩ | hpool
    · exact iff_of_false hl hl'
    · rw [Overflows, Overflows, hpool]
  · have hsame (q : Except RuntimeError Value) :
        e.Gives u.constantFor m.world q ↔ e.Gives u'.constantFor m.world q := by
      rcases constants_of_shortens h with ⟨v, hv, rfl, -⟩ | hpool
      · rw [gives_constant_iff, gives_constant_iff, constantFor_of_isNumeric u hv,
          constantFor_of_isNumeric u' hv]
      · rw [CodeUnit.constantFor_congr (hu.pool.trans (hpool ▸ hu'.pool.symm))]
    have hgives (q : Except RuntimeError Value) :
        (binary (.arith op) l r).Gives u.constantFor m.world q ↔ e.Gives u.constantFor m.world q :=
      gives_iff_of_shortens h fun _ => constantFor_of_isNumeric u
    exact ⟨endsLike_code hu hu' hm fun q hq => (hsame q).1 ((hgives q).1 hq),
      endsLike_code hu' hu hm fun q hq => (hgives q).2 ((hsame q).2 hq)⟩

/-! ### Conditions -/

/-- Whether a branch that wants its condition so is taken. -/
def taken (operation : String) (wanted : Bool) (q : Except RuntimeError Value) :
    Except RuntimeError Bool :=
  q >>= fun v => (v.expectLogical operation).map (· == wanted)

/-- The results decide in opposite ways, or neither of them decides. -/
def Opposed (q q' : Except RuntimeError Value) : Prop :=
  SameResult (taken "unless" false q) (taken "if" true q')

theorem opposed_error (c : RuntimeError) : Opposed (.error c) (.error c) := rfl

theorem opposed_negated (q : Except RuntimeError Value) : Opposed q (q >>= Value.opposite) := by
  rcases q with c | v
  · rfl
  · cases v with
    | logical b => cases b <;> rfl
    | _ => rfl

theorem negated_opposed (q : Except RuntimeError Value) : Opposed (q >>= Value.opposite) q := by
  rcases q with c | v
  · rfl
  · cases v with
    | logical b => cases b <;> rfl
    | _ => rfl

theorem opposed_ordered (c : Comparison) (x y : Value) :
    Opposed (c.apply x y) (c.complement.apply x y) := by
  unfold Comparison.apply
  cases Value.compare? x y with
  | none => rfl
  | some o => cases c <;> cases o <;> rfl

theorem opposed_equal (b expected : Bool) :
    Opposed (.ok (.logical (b == expected))) (.ok (.logical (b == !expected))) := by
  cases b <;> cases expected <;> rfl

/-- Whenever one of the expressions has a result, so has the other, and the results are opposed. -/
def Opposite (read : Value → Value) (w : World) (c c' : PureExpr) : Prop :=
  (∀ q, c.Gives read w q → ∃ q', c'.Gives read w q' ∧ Opposed q q') ∧
    ∀ q', c'.Gives read w q' → ∃ q, c.Gives read w q ∧ Opposed q q'

theorem opposite_negated (c : PureExpr) : Opposite read w c (unary .logicalNot c) := by
  refine ⟨fun q hq => ⟨_, gives_unary_iff.2 ⟨q, hq, rfl⟩, opposed_negated q⟩, fun q' hq' => ?_⟩
  obtain ⟨q, hq, rfl⟩ := gives_unary_iff.1 hq'
  exact ⟨q, hq, opposed_negated q⟩

theorem negated_opposite (c : PureExpr) : Opposite read w (unary .logicalNot c) c := by
  refine ⟨fun q hq => ?_, fun q hq => ⟨_, gives_unary_iff.2 ⟨q, hq, rfl⟩, negated_opposed q⟩⟩
  obtain ⟨p, hp, rfl⟩ := gives_unary_iff.1 hq
  exact ⟨p, hp, negated_opposed p⟩

theorem rel_flip {α β : Type} {R : α → β → Prop} {o : Option α} {o' : Option β}
    (h : Option.Rel R o o') : Option.Rel (fun b a => R a b) o' o := by
  cases h with
  | some h => exact .some h
  | none => exact .none

/-- Operations with related results on values have related results on expressions. -/
theorem exists_gives_binary {R : Except RuntimeError Value → Except RuntimeError Value → Prop}
    {f g : Binary} {a b : PureExpr} (hR : ∀ c, R (.error c) (.error c))
    (hfg : ∀ heap depth x y, Option.Rel R (f.result? heap depth x y) (g.result? heap depth x y))
    (h : (binary f a b).Gives read w q) : ∃ q', (binary g a b).Gives read w q' ∧ R q q' := by
  cases h with
  | firstFails _ _ ha => exact ⟨_, .firstFails g b ha, hR _⟩
  | secondFails _ ha hb => exact ⟨_, .secondFails g ha hb, hR _⟩
  | @binary _ _ _ x y _ depth ha hb h =>
    have hrel := hfg w.heap depth x y
    rw [h] at hrel
    cases hg : g.result? w.heap depth x y with
    | none =>
      rw [hg] at hrel
      cases hrel
    | some p =>
      rw [hg] at hrel
      cases hrel with
      | some hp => exact ⟨p, .binary ha hb hg, hp⟩

theorem opposite_binary {f g : Binary} (a b : PureExpr)
    (hfg : ∀ heap depth x y,
      Option.Rel Opposed (f.result? heap depth x y) (g.result? heap depth x y)) :
    Opposite read w (binary f a b) (binary g a b) :=
  ⟨fun _ => exists_gives_binary opposed_error hfg,
    fun _ => exists_gives_binary (R := fun p' p => Opposed p p') opposed_error
      fun heap depth x y => rel_flip (hfg heap depth x y)⟩

variable (read w) in
/-- **A condition decides one way exactly when its opposite decides the other way.** -/
theorem opposite_opposite (c : PureExpr) : Opposite read w c c.opposite := by
  cases c with
  | constant v => exact opposite_negated _
  | load name => exact opposite_negated _
  | unary f a =>
    cases f with
    | logicalNot => exact negated_opposite a
    | _ => exact opposite_negated _
  | binary f a b =>
    cases f with
    | ordered c => exact opposite_binary a b fun _ _ x y => .some (opposed_ordered c x y)
    | equal expected =>
      refine opposite_binary a b fun heap depth x y => ?_
      unfold Binary.result?
      dsimp only
      cases Value.equalWithin heap depth x y with
      | none => exact .none
      | some b => exact .some (opposed_equal b expected)
    | _ => exact opposite_negated _

end PureExpr

/-! ## Branches -/

/-- What a branch does once it is decided. -/
def branchOn (body : Value) : Bool → Nat → Exec Flow
  | true, fuel => afterwards (runInPlace (runCode fuel) body) ({ · with attrs := [] })
  | false, _ => return .done

theorem within_branchOn (body : Value) (holds : Bool) {fuel fuel' : Nat} (hle : fuel ≤ fuel') :
    Within (branchOn body holds fuel) (branchOn body holds fuel') := by
  cases holds with
  | true =>
    exact .afterwards (within_runInPlace (fun code => .after _ fun u => within_execute hle u 0) body) _
  | false => exact .refl _

section

variable {m : Machine} {v body : Value} {b : Builtin} {operation : String} {wanted : Bool}

variable (v body) in
/-- A decided branch does what it does; an undecided one fails. -/
theorem run_branch (hm : m.attrs = []) (fuel : Nat)
    (hb : ∀ run, perform fuel run b = branch run operation wanted) :
    (callBuiltin fuel (runCode fuel) b).run.run { m with stack := body :: v :: m.stack } =
      match (v.expectLogical operation).map (· == wanted) with
      | .ok holds => (branchOn body holds fuel).run.run m
      | .error c => (.error (.error (.runtime c)), { m with raised := c :: m.raised }) := by
  have hclear : ({ m with attrs := [] } : Machine) = m := by rw [← hm]
  rw [callBuiltin, run_afterwards, hb, branch, run_bind_of_ok run_pop₂]
  dsimp only
  cases v.expectLogical operation with
  | error c =>
    have hundecided : (liftM (Except.error c : Except RuntimeError Bool) : Exec Bool).run.run m =
        (.error (.error (.runtime c)), { m with raised := c :: m.raised }) := rfl
    rw [run_bind_of_error hundecided]
    exact congrArg (fun m : Machine => (_, { m with raised := c :: m.raised })) hclear
  | ok holds =>
    have hdecided : (liftM (Except.ok holds : Except RuntimeError Bool) : Exec Bool).run.run m =
        (.ok holds, m) := rfl
    rw [run_bind_of_ok hdecided]
    by_cases hw : holds = wanted
    · have htaken : (Except.ok holds : Except RuntimeError Bool).map (· == wanted) = .ok true :=
        congrArg Except.ok (beq_iff_eq.2 hw)
      rw [if_pos hw, htaken]
      exact (run_afterwards m (runInPlace (runCode fuel) body) ({ · with attrs := [] })).symm
    · have htaken : (Except.ok holds : Except RuntimeError Bool).map (· == wanted) = .ok false :=
        congrArg Except.ok (beq_eq_false_iff_ne.2 hw)
      rw [if_neg hw, htaken]
      exact congrArg (Prod.mk _) hclear

end

/-- The opcode makes a branch that is taken when its condition is as wanted. -/
def IsBranch (o : Opcode) (operation : String) (wanted : Bool) : Prop :=
  ∃ b : Builtin, b.opcode? = some o ∧
    ∀ fuel run, perform fuel run b = branch run operation wanted

theorem isBranch_ifTrue : IsBranch .ifTrue "if" true := ⟨.ifTrue, rfl, fun _ _ => rfl⟩

theorem isBranch_ifFalse : IsBranch .ifFalse "unless" false := ⟨.ifFalse, rfl, fun _ _ => rfl⟩

/-- The instructions of a branch with a pure condition. -/
def branchEmissions (o : Opcode) (c : PureExpr) (body : Value) : List Emission :=
  c.emissions ++ [Located.emission ⟨[], .constant body⟩] ++ [.op o]

/-- Ending behind a piece that has come to its end changes nothing. -/
theorem bind_done (x : Exec Flow) : (do
    match ← x with
    | .done => return .done
    | flow => return flow) = x := by
  have hpure : (fun flow => match flow with
      | .done => return .done
      | flow => return flow : Flow → Exec Flow) = pure := by
    funext flow
    cases flow <;> rfl
  rw [hpure, bind_pure]

/-- **The rest of a branch depends on what its condition decides.** -/
theorem concludes_branch {u : CodeUnit} {m : Machine} {c : PureExpr} {body : Value} {o : Opcode}
    {operation : String} {wanted : Bool} {q : Except RuntimeError Value}
    (ho : IsBranch o operation wanted) (hu : u.Executes (branchEmissions o c body))
    (hm : m.attrs = []) (hq : c.Gives u.constantFor m.world q) :
    Concludes (execute · u 0) m (branchOn (u.constantFor body)) m
      (PureExpr.taken operation wanted q) := by
  obtain ⟨b, ho, hb⟩ := ho
  obtain ⟨stop, next, hr, hd⟩ := hu.reads
  obtain ⟨mid, hcb, hop⟩ := CodeUnit.exists_reads_of_append hr
  obtain ⟨half, hc, hbody⟩ := CodeUnit.exists_reads_of_append hcb
  refine Concludes.bind (PureExpr.evaluates_of_gives hu.distinct hq rfl hm hc) fun v => ?_
  have hpush : u.Evaluates half { m with stack := v :: m.stack } mid { m with stack := v :: m.stack }
      (.ok (u.constantFor body)) := CodeUnit.evaluates_constant hu.distinct hbody
  refine Concludes.after hpush.leadsTo ?_
  have hrun (fuel : Nat) := run_branch v (u.constantFor body) hm fuel (hb fuel)
  obtain ⟨i, hdi, hi⟩ := CodeUnit.exists_of_reads_one hop
  cases i with
  | op o' =>
    cases hi
    have hstep := CodeUnit.execute_op hdi (Opcode.isPlain_of_builtin ho).2
    cases hv : (v.expectLogical operation).map (· == wanted) with
    | ok holds =>
      rw [hv] at hrun
      refine ⟨1, 1, fun fuel hle => ?_⟩
      obtain ⟨fuel, rfl⟩ : ∃ n, fuel = n + 1 := ⟨fuel - 1, by omega⟩
      dsimp only
      rw [hstep, CodeUnit.runOpcode_builtin ho, execute_stop hd, run_bind, hrun, ← run_bind]
      exact congrArg (fun x : Exec Flow => x.run.run m) (bind_done _)
    | error c =>
      rw [hv] at hrun
      refine ⟨{ m with raised := c :: m.raised }, rfl, rfl, 1, 0, fun fuel _ => ?_⟩
      dsimp only
      rw [hstep, CodeUnit.runOpcode_builtin ho, run_bind_of_error (hrun fuel)]
      rfl
  | _ => cases hi

theorem emission_postorder_branch (o : Opcode) (c : PureExpr) (body : Value) :
    (postorder [operation o [c.tree, .constant body]]).map Located.emission =
      branchEmissions o c body := by
  simp only [postorder, operation, postorderAt, postorderFrom, List.append_nil, List.map_append,
    c.emission_postorder, branchEmissions]
  rfl

theorem wellFormed_branch {o : Opcode} {name : String} {wanted : Bool} (ho : IsBranch o name wanted)
    (c : PureExpr) (body : Value) :
    (operation o [c.tree, .constant body]).WellFormed (fun _ => True) := by
  obtain ⟨b, ho, -⟩ := ho
  refine wellFormed_operation ⟨b, ho⟩ fun t ht => ?_
  simp only [List.mem_cons, List.not_mem_nil, or_false] at ht
  rcases ht with rfl | rfl
  · exact ⟨c.wellFormed_tree, c.isAttr_tree⟩
  · exact ⟨.constant body.codesIn_true, rfl⟩

/-- The opposite of a condition needs the same constants. -/
theorem constants_opposite (c : PureExpr) :
    c.opposite.emissions.filterMap Emission.constant? =
      c.emissions.filterMap Emission.constant? := by
  have hop (l : List Emission) (o : Opcode) : (l ++ [Emission.op o]).filterMap Emission.constant? =
      l.filterMap Emission.constant? := by
    rw [List.filterMap_append]
    exact List.append_nil _
  cases c with
  | constant v => exact hop _ _
  | load name => exact hop _ _
  | unary f a =>
    cases f with
    | logicalNot => exact (hop _ _).symm
    | _ => exact hop _ _
  | binary f a b =>
    cases f with
    | ordered c => exact (hop _ _).trans (hop _ _).symm
    | equal expected => exact (hop _ _).trans (hop _ _).symm
    | _ => exact hop _ _

/-- Branches whose conditions decide alike end alike. -/
theorem endsLike_branch {u u' : CodeUnit} {m : Machine} {c c' : PureExpr} {body : Value}
    {o o' : Opcode} {name name' : String} {wanted wanted' : Bool} (ho : IsBranch o name wanted)
    (ho' : IsBranch o' name' wanted') (hu : u.Executes (branchEmissions o c body))
    (hu' : u'.Executes (branchEmissions o' c' body))
    (hbody : u.constantFor body = u'.constantFor body) (hm : m.attrs = [])
    (h : ∀ q, c.Gives u.constantFor m.world q → ∃ q', c'.Gives u'.constantFor m.world q' ∧
      SameResult (PureExpr.taken name wanted q) (PureExpr.taken name' wanted' q')) :
    EndsLike (execute · u 0) (execute · u' 0) m := by
  obtain ⟨stop, next, hr, -⟩ := hu.reads
  obtain ⟨mid, hcb, -⟩ := CodeUnit.exists_reads_of_append hr
  obtain ⟨half, hc, -⟩ := CodeUnit.exists_reads_of_append hcb
  refine endsLike_of_concludes (k := branchOn (u.constantFor body))
    (fun hle => within_execute hle u 0) (fun hle => within_execute hle u' 0)
    (within_branchOn (u.constantFor body)) fun r hends => ?_
  obtain ⟨q, hq⟩ := c.exists_gives hu.distinct hm hc hends
  obtain ⟨q', hq', hs⟩ := h q hq
  have hfirst := concludes_branch ho hu hm hq
  have hsecond := concludes_branch ho' hu' hm hq'
  rw [← hbody] at hsecond
  exact ⟨_, _, hfirst, hsecond, hs⟩

/-- **`unless` means the same as `if` on the opposite.** -/
theorem sameMeaning_unless (c : PureExpr) (body : Value) :
    (operation .ifFalse [c.tree, .constant body]).SameMeaning
      (operation .ifTrue [c.opposite.tree, .constant body]) := by
  have hpool : (branchEmissions .ifFalse c body).filterMap Emission.constant? =
      (branchEmissions .ifTrue c.opposite body).filterMap Emission.constant? := by
    simp only [branchEmissions, List.filterMap_append, constants_opposite]
    rfl
  refine sameMeaning_of_executes (wellFormed_branch isBranch_ifFalse c body)
    (wellFormed_branch isBranch_ifTrue c.opposite body) (emission_postorder_branch ..)
    (emission_postorder_branch ..) ?_ fun u u' hu hu' m hm => ?_
  · rw [Overflows, Overflows, hpool]
  · have hread : u.constantFor = u'.constantFor :=
      CodeUnit.constantFor_congr (hu.pool.trans (hpool ▸ hu'.pool.symm))
    obtain ⟨h, h'⟩ := PureExpr.opposite_opposite u.constantFor m.world c
    constructor
    · refine endsLike_branch isBranch_ifFalse isBranch_ifTrue hu hu' (by rw [hread]) hm ?_
      rw [← hread]
      exact h
    · refine endsLike_branch isBranch_ifTrue isBranch_ifFalse hu' hu (by rw [hread]) hm ?_
      rw [← hread]
      intro q' hq'
      obtain ⟨q, hq, hs⟩ := h' q' hq'
      exact ⟨q, hq, hs.symm⟩

/-! ## Rewritten calls -/

/-- A call on pure operands that one of the rewrites applies to. -/
inductive CallTree.Rewritten : CallTree → Prop
  /-- Arithmetic that becomes a constant or a step by one. -/
  | arith (op : Arith) (l r : PureExpr)
      (h : (operation op.opcode [l.tree, r.tree]).simplify.IsShort) :
      Rewritten (operation op.opcode [l.tree, r.tree])
  /-- An `unless` with a block for its body. -/
  | negated (c : PureExpr) (items : List Value) (dynamic : Bool) :
      Rewritten (operation .ifFalse [c.tree, .constant (.block items dynamic)])

/-- **A call means the same as what it is rewritten to.** -/
theorem simplify_sameMeaning {t : CallTree} (h : t.Rewritten) : t.SameMeaning t.simplify := by
  cases h with
  | arith op l r h =>
    obtain ⟨e, he, hs⟩ := PureExpr.exists_shortens h
    rw [show (operation op.opcode [l.tree, r.tree]).simplify = e.tree from he]
    exact PureExpr.sameMeaning_of_shortens hs
  | negated c items dynamic =>
    rw [PureExpr.simplify_unless]
    exact sameMeaning_unless c _

/-- One and a variable, in the order that has to be turned round. -/
theorem simplify_sameMeaning_onePlus :
    let t : CallTree := operation .add [.constant (.integer 1), .load "y"]
    t.Rewritten ∧ t.simplify = operation .inc [.load "y"] ∧
      t.SameMeaning (operation .inc [.load "y"]) := by
  intro t
  have h : t.Rewritten := .arith .add (.constant (.integer 1)) (.load "y") trivial
  exact ⟨h, rfl, simplify_sameMeaning h⟩

end BlockLang
