import BlockLang.Machine.Run
import BlockLang.Proofs.Machine.Pieces

/-!
# Fuel

Fuel only bounds how far a run may go. A run that has not used up its fuel has done what it does with
more fuel.

**Theorem (`within_execute`).** With more fuel, a unit that ended or failed does so in the same way: same
answer, same machine. So the outcomes of a piece of a run that exist at all (`Ends`) are found with any
amount of fuel that suffices, and there is one at most.

`Within` is preserved by every way in which the machine puts pieces together. Fuel enters at three places
only: the instructions of a unit, the passes of a `while`, and the depth to which values are displayed or
compared. Where an outcome is looked at instead of being handed on, a run that is out of fuel has to stay
so; that is the extra hypothesis of `Within.observe`.
-/

namespace BlockLang

open Exec

/-! ## Values -/

namespace Value

variable {α β γ : Type}

theorem mapM_of_le {f g : α → Option β} {l : List α} {l' : List β}
    (h : ∀ a b, f a = some b → g a = some b) (hl : l.mapM f = some l') : l.mapM g = some l' := by
  induction l generalizing l' with
  | nil => exact hl
  | cons a l ih =>
    rw [List.mapM_cons] at hl ⊢
    obtain ⟨b, hb, hl⟩ := Option.bind_eq_some_iff.1 hl
    obtain ⟨bs, hbs, hl⟩ := Option.bind_eq_some_iff.1 hl
    rw [h a b hb, ih hbs]
    exact hl

theorem map_mapM_of_le {f g : α → Option β} {k : List β → γ} {l : List α} {c : γ}
    (h : ∀ a b, f a = some b → g a = some b) (hl : (l.mapM f).map k = some c) :
    (l.mapM g).map k = some c := by
  obtain ⟨l', hl', rfl⟩ := Option.map_eq_some_iff.1 hl
  exact Option.map_eq_some_iff.2 ⟨l', mapM_of_le h hl', rfl⟩

theorem allM_of_le {f g : α → Option Bool} {l : List α} {b : Bool}
    (h : ∀ a b, f a = some b → g a = some b) (hl : l.allM f = some b) : l.allM g = some b := by
  induction l with
  | nil => exact hl
  | cons a l ih =>
    rw [List.allM] at hl ⊢
    obtain ⟨c, hc, hl⟩ := Option.bind_eq_some_iff.1 hl
    rw [h a c hc]
    cases c with
    | false => exact hl
    | true => exact ih hl

/-- A display that is found is the same with more depth. -/
theorem displayWithin_of_le {heap : Heap} {depth depth' : Nat} (hle : depth ≤ depth')
    {nested : Bool} {v : Value} {s : String} (h : v.displayWithin heap depth nested = some s) :
    v.displayWithin heap depth' nested = some s := by
  induction depth generalizing depth' nested v s with
  | zero => cases h
  | succ depth ih =>
    obtain ⟨depth', rfl⟩ : ∃ n, depth' = n + 1 := ⟨depth' - 1, by omega⟩
    have hle : depth ≤ depth' := Nat.le_of_succ_le_succ hle
    have hitem (u : Value) (s : String) : u.displayWithin heap depth true = some s →
        u.displayWithin heap depth' true = some s := fun h => ih hle h
    cases v with
    | path items => exact map_mapM_of_le hitem h
    | pathLabel items | block items dynamic | inline items =>
      obtain ⟨t, ht, rfl⟩ := Option.map_eq_some_iff.1 h
      exact Option.map_eq_some_iff.2 ⟨t, map_mapM_of_le hitem ht, rfl⟩
    | dictionary ref =>
      refine map_mapM_of_le (fun e s he => ?_) h
      obtain ⟨t, ht, rfl⟩ := Option.map_eq_some_iff.1 he
      exact Option.map_eq_some_iff.2 ⟨t, hitem _ _ ht, rfl⟩
    | _ => exact h

/-- An equality that is decided is decided in the same way with more depth. -/
theorem equalWithin_of_le {heap : Heap} {depth depth' : Nat} (hle : depth ≤ depth') {a b : Value}
    {r : Bool} (h : equalWithin heap depth a b = some r) : equalWithin heap depth' a b = some r := by
  induction depth generalizing depth' a b r with
  | zero => cases h
  | succ depth ih =>
    obtain ⟨depth', rfl⟩ : ∃ n, depth' = n + 1 := ⟨depth' - 1, by omega⟩
    have hle : depth ≤ depth' := Nat.le_of_succ_le_succ hle
    unfold equalWithin at h ⊢
    split at h
    · next hn =>
      rw [if_pos hn]
      exact h
    · next hn =>
      rw [if_neg hn]
      split at h
      · split at h
        · next hl =>
          rw [if_pos hl]
          exact allM_of_le (fun _ _ => ih hle) h
        · next hl =>
          rw [if_neg hl]
          exact h
      · dsimp only at h ⊢
        split at h
        · next hl =>
          rw [if_pos hl]
          refine allM_of_le (fun e r he => ?_) h
          split at he
          · exact ih hle he
          · exact he
        · next hl =>
          rw [if_neg hl]
          exact h
      · exact h

end Value

/-! ## Pieces of runs -/

variable {α β : Type}

/-- Unless the first piece runs out of fuel, the second does the same. -/
def Exec.Within (x y : Exec α) : Prop :=
  ∀ m, (x.run.run m).1 ≠ .error .outOfFuel → x.run.run m = y.run.run m

namespace Exec.Within

variable {x y : Exec α} {f g : α → Exec β}

protected theorem refl (x : Exec α) : Within x x := fun _ _ => rfl

/-- Nothing is claimed of a piece that is out of fuel. -/
theorem outOfFuel (y : Exec α) : Within (throw .outOfFuel) y := fun _ h => absurd rfl h

protected theorem bind (hx : Within x y) (hf : ∀ a, Within (f a) (g a)) :
    Within (x >>= f) (y >>= g) := by
  intro m h
  rw [run_bind] at h
  rw [run_bind, run_bind]
  have hxm := hx m
  revert hxm h
  rcases x.run.run m with ⟨e | a, m'⟩ <;> intro h hxm
  · have he : (Except.error e : Except Halt α) ≠ .error .outOfFuel := fun hout =>
      h (congrArg Except.error (Except.error.inj hout))
    rw [← hxm he]
  · rw [← hxm nofun]
    exact hf a m' h

/-- The same piece on both sides. -/
theorem after (x : Exec α) (hf : ∀ a, Within (f a) (g a)) : Within (x >>= f) (x >>= g) :=
  (Within.refl x).bind hf

protected theorem ite {c : Prop} [Decidable c] {x' y' : Exec α} (h : c → Within x y)
    (h' : ¬ c → Within x' y') : Within (if c then x else x') (if c then y else y') := by
  by_cases hc : c
  · rw [if_pos hc, if_pos hc]
    exact h hc
  · rw [if_neg hc, if_neg hc]
    exact h' hc

/-- A piece whose outcome is looked at. What looks at it stays out of fuel. -/
protected theorem observe {k k' : Except Halt α → Exec β} (hx : Within x y)
    (hk : ∀ r, Within (k r) (k' r))
    (hout : ∀ m, ((k (.error .outOfFuel)).run.run m).1 = .error .outOfFuel) :
    Within (observe x >>= k) (observe y >>= k') := by
  intro m h
  have hne := ne_outOfFuel_of_observe hout h
  rw [run_bind, run_observe] at h
  rw [run_bind, run_bind, run_observe, run_observe, ← hx m hne]
  exact hk _ _ h

theorem afterwards (hx : Within x y) (h : Machine → Machine) :
    Within (Exec.afterwards x h) (Exec.afterwards y h) :=
  Within.observe hx (fun _ => .refl _) fun _ => rfl

theorem protecting (names : List String) (hx : Within x y) :
    Within (Exec.protecting names x) (Exec.protecting names y) :=
  after _ fun _ => Within.observe hx (fun _ => .refl _) fun _ => rfl

end Exec.Within

/-! ## What needs depth -/

section

variable {fuel fuel' : Nat} (hle : fuel ≤ fuel')

include hle

theorem within_shown (v : Value) : Within (shown fuel v) (shown fuel' v) := by
  refine .after _ fun heap => ?_
  cases h : v.display? heap fuel with
  | none => exact .outOfFuel _
  | some s =>
    rw [Value.display?, Value.displayWithin_of_le hle h]
    exact .refl _

theorem within_areEqual (a b : Value) : Within (areEqual fuel a b) (areEqual fuel' a b) := by
  refine .after _ fun heap => ?_
  cases h : Value.equalWithin heap fuel a b with
  | none => exact .outOfFuel _
  | some r =>
    rw [Value.equalWithin_of_le hle h]
    exact .refl _

theorem within_compareEqual (expected : Bool) :
    Within (compareEqual fuel expected) (compareEqual fuel' expected) :=
  .after _ fun (a, b) => (within_areEqual hle a b).bind fun _ => .refl _

omit hle in
theorem within_mapM {f g : α → Exec β} (h : ∀ a, Within (f a) (g a)) (l : List α) :
    Within (l.mapM f) (l.mapM g) := by
  induction l with
  | nil => exact .refl _
  | cons a l ih =>
    rw [List.mapM_cons, List.mapM_cons]
    exact (h a).bind fun b => ih.bind fun _ => .refl _

theorem within_replaceItems : Within (replaceItems fuel) (replaceItems fuel') := by
  refine .after _ fun (whole, old, new) => ?_
  cases whole with
  | block items dynamic =>
    refine (within_mapM (fun v => ?_) items).bind fun _ => .refl _
    exact (within_areEqual hle v old).bind fun _ => .refl _
  | string s => cases old <;> cases new <;> exact .refl _
  | _ => exact .refl _

theorem within_joinItems : Within (joinItems fuel) (joinItems fuel') := by
  refine .after _ fun v => ?_
  cases v with
  | block items _ => exact (within_mapM (within_shown hle) items).bind fun _ => .refl _
  | _ => exact .refl _

theorem within_appendItems : Within (appendItems fuel) (appendItems fuel') := by
  refine .after _ fun (a, b) => ?_
  cases a with
  | string s => exact (within_shown hle b).bind fun _ => .refl _
  | block items dynamic => cases b <;> exact .refl _
  | _ => exact .refl _

theorem within_stringOf (v : Value) : Within (stringOf fuel v) (stringOf fuel' v) :=
  (within_shown hle v).bind fun _ => .refl _

theorem within_convertTo (name : String) (v : Value) :
    Within (convertTo fuel name v) (convertTo fuel' name v) := by
  unfold convertTo
  split
  · exact within_stringOf hle v
  all_goals exact .refl _

theorem within_convert : Within (convert fuel) (convert fuel') :=
  .after _ fun (_, v) => .after _ fun name =>
    (within_convertTo hle name v).bind fun _ => .refl _

theorem within_toText : Within (toText fuel) (toText fuel') :=
  .after _ fun v => (within_stringOf hle v).bind fun _ => .refl _

theorem within_printTop : Within (printTop fuel) (printTop fuel') :=
  .after _ fun v => (within_shown hle v).bind fun _ => .refl _

theorem within_raiseTop : Within (raiseTop fuel) (raiseTop fuel') :=
  .after _ fun v => (within_shown hle v).bind fun _ => .refl _

theorem within_demand (condition result : Value) :
    Within (demand fuel condition result) (demand fuel' condition result) := by
  refine .after _ fun holds => ?_
  cases holds with
  | true => exact .refl _
  | false => exact (within_shown hle condition).bind fun _ => .refl _

end

/-! ## Blocks -/

section

variable {run run' : CodeRef → Exec Flow} (hrun : ∀ code, Within (run code) (run' code))

include hrun

theorem within_descend (code : Exec CodeRef) : Within (descend run code) (descend run' code) :=
  .after _ fun _ => .afterwards (.after _ hrun) _

theorem within_inScope (o : BlockOptions) (code : Exec CodeRef) (key? : Option MemoKey) :
    Within (inScope run o code key?) (inScope run' o code key?) := by
  refine .after _ fun _ => .after _ fun _ => .after _ fun _ => .after _ fun _ => ?_
  refine .observe (within_descend hrun code) (fun _ => .refl _) fun m => ?_
  dsimp only
  split <;> rfl

theorem within_runScoped (o : BlockOptions) (code : Exec CodeRef) :
    Within (runScoped run o code) (runScoped run' o code) := by
  refine .after _ fun m => .ite (fun _ => .after _ fun _ => .after _ fun found? => ?_)
    fun _ => .after _ fun found? => ?_
  all_goals
    cases found? with
    | some v => exact .refl _
    | none =>
      have hscope := within_inScope hrun o code
      exact .ite (fun _ => .after _ fun _ => hscope _) fun _ => hscope _

theorem within_runInPlace (body : Value) : Within (runInPlace run body) (runInPlace run' body) :=
  within_runScoped hrun _ _

theorem within_runPass (body : Value) : Within (runPass run body) (runPass run' body) :=
  .after _ fun _ => (within_runInPlace hrun body).bind fun _ => .refl _

theorem within_runUser (ref : FunctionRef) (f : UserFunction) :
    Within (runUser run ref f) (runUser run' ref f) :=
  .after _ fun _ => within_runScoped hrun _ _

/-! ## Control forms -/

theorem within_branch (operation : String) (wanted : Bool) :
    Within (branch run operation wanted) (branch run' operation wanted) := by
  refine .after _ fun (condition, body) => .after _ fun holds => ?_
  exact .ite (fun _ => within_runInPlace hrun body) fun _ => .refl _

theorem within_branchReport : Within (branchReport run) (branchReport run') := by
  refine .after _ fun (condition, body) => .after _ fun holds => ?_
  exact .ite (fun _ => (within_runInPlace hrun body).bind fun _ => .refl _) fun _ => .refl _

theorem within_runOrPush (v : Value) : Within (runOrPush run v) (runOrPush run' v) := by
  cases v with
  | block items dynamic => exact within_runInPlace hrun _
  | _ => exact .refl _

theorem within_choose : Within (choose run) (choose run') :=
  .after _ fun (_, _, _) => .after _ fun _ => within_runOrPush hrun _

theorem within_runValue : Within (runValue run) (runValue run') := by
  refine .after _ fun v => ?_
  cases v with
  | string source => exact .after _ fun _ => within_runInPlace hrun _
  | _ => exact within_runInPlace hrun _

/-- The body of a try that is out of fuel is not recovered from. -/
theorem within_attempt (report : Bool) : Within (attempt run report) (attempt run' report) := by
  refine .after _ fun body => .after _ fun base => ?_
  simp only [trying, bind_assoc, pure_bind]
  refine .after _ fun _ => ?_
  exact .observe (within_runInPlace hrun body) (fun _ => .refl _) fun _ => rfl

theorem within_ensure {fuel fuel' : Nat} (hle : fuel ≤ fuel') :
    Within (ensure run fuel) (ensure run' fuel') := by
  refine .after _ fun condition => ?_
  cases condition with
  | block items dynamic =>
    refine (within_runInPlace hrun _).bind fun flow => ?_
    split
    · exact .after _ fun result => within_demand hle _ result
    · exact .refl _
  | _ => exact within_demand hle _ _

theorem within_collectFrom (body : Value) :
    Within (collectFrom run body) (collectFrom run' body) :=
  .after _ fun _ => (within_runInPlace hrun body).bind fun _ => .refl _

theorem within_makeArray : Within (makeArray run) (makeArray run') := by
  refine .after _ fun v => ?_
  cases v with
  | block items dynamic => exact within_collectFrom hrun _
  | inline items => exact within_collectFrom hrun _
  | _ => exact .refl _

theorem within_makeDictionary : Within (makeDictionary run) (makeDictionary run') := by
  refine .after _ fun body => ?_
  cases body.items? with
  | none => exact .refl _
  | some items =>
    refine .after _ fun base => ?_
    refine (Within.protecting _ ?_).bind fun _ => .refl _
    exact (within_runInPlace hrun body).bind fun _ => .refl _

theorem within_testCondition (condition : Value) :
    Within (testCondition run condition) (testCondition run' condition) := by
  unfold testCondition
  split
  · exact .refl _
  · exact (within_runInPlace hrun condition).bind fun _ => .refl _

theorem within_repeatWhile {fuel fuel' : Nat} (hle : fuel ≤ fuel') (condition body : Value) :
    Within (repeatWhile run condition body fuel) (repeatWhile run' condition body fuel') := by
  induction fuel generalizing fuel' with
  | zero => exact .outOfFuel _
  | succ fuel ih =>
    obtain ⟨fuel', rfl⟩ : ∃ n, fuel' = n + 1 := ⟨fuel' - 1, by omega⟩
    refine (within_testCondition hrun condition).bind fun r => ?_
    rcases r with flow | holds
    · exact .refl _
    cases holds with
    | false => exact .refl _
    | true =>
      refine (within_runPass hrun body).bind fun pass => ?_
      cases pass with
      | stop flow => exact .refl _
      | value _ | skipped => exact ih (Nat.le_of_succ_le_succ hle)

theorem within_runWhile {fuel fuel' : Nat} (hle : fuel ≤ fuel') :
    Within (runWhile run fuel) (runWhile run' fuel') :=
  .after _ fun (condition, body) => within_repeatWhile hrun hle condition body

theorem within_passes (kind : Traversal) (params : List String) (body : Value) (count : Nat)
    (items collected : List Value) :
    Within (passes run kind params body count items collected)
      (passes run' kind params body count items collected) := by
  induction count generalizing items collected with
  | zero => exact .refl _
  | succ count ih =>
    cases items with
    | nil => exact .refl _
    | cons item items =>
      refine .after _ fun _ => (within_runPass hrun body).bind fun pass => ?_
      cases pass with
      | stop flow => exact .refl _
      | skipped => exact ih _ _
      | value result? => exact .after _ fun _ => ih _ _

theorem within_traverse (kind : Traversal) : Within (traverse run kind) (traverse run' kind) := by
  refine .after _ fun (collection, params, body) => .after _ fun params => .after _ fun heap => ?_
  refine .after _ fun items => ?_
  exact (Within.protecting _ (within_passes hrun _ _ _ _ _ _)).bind fun _ => .refl _

end

/-! ## Instructions -/

variable {run run' : CodeRef → Exec Flow} {fuel fuel' : Nat}

theorem within_plain {x y : Exec Unit} (h : Within x y) : Within (plain x) (plain y) :=
  h.bind fun _ => .refl _

theorem within_perform (hrun : ∀ code, Within (run code) (run' code)) (hle : fuel ≤ fuel')
    (b : Builtin) : Within (perform fuel run b) (perform fuel' run' b) := by
  cases b
  case eq => exact within_plain (within_compareEqual hle true)
  case ne => exact within_plain (within_compareEqual hle false)
  case ifTrue => exact within_branch hrun "if" true
  case ifFalse => exact within_branch hrun "unless" false
  case ifElse => exact within_branch hrun "else" false
  case ifReport => exact within_branchReport hrun
  case switchOn => exact within_choose hrun
  case whileTrue => exact within_runWhile hrun hle
  case run => exact within_runValue hrun
  case attempt => exact within_attempt hrun false
  case attemptReport => exact within_attempt hrun true
  case ensure => exact within_ensure hrun hle
  case raise => exact within_plain (within_raiseTop hle)
  case convert => exact within_plain (within_convert hle)
  case string => exact within_plain (within_toText hle)
  case array => exact within_makeArray hrun
  case dictionary => exact within_makeDictionary hrun
  case loop => exact within_traverse hrun .loop
  case map => exact within_traverse hrun .map
  case select => exact within_traverse hrun .select
  case replace => exact within_plain (within_replaceItems hle)
  case join => exact within_plain (within_joinItems hle)
  case append => exact within_plain (within_appendItems hle)
  case print => exact within_plain (within_printTop hle)
  all_goals exact .refl _

theorem within_callBuiltin (hrun : ∀ code, Within (run code) (run' code)) (hle : fuel ≤ fuel')
    (b : Builtin) : Within (callBuiltin fuel run b) (callBuiltin fuel' run' b) :=
  .afterwards (within_perform hrun hle b) _

theorem within_callFunction (hrun : ∀ code, Within (run code) (run' code)) (hle : fuel ≤ fuel')
    (ref : FunctionRef) : Within (callFunction fuel run ref) (callFunction fuel' run' ref) := by
  refine .after _ fun heap => ?_
  cases heap.callable? ref with
  | none => exact .refl _
  | some callable =>
    refine .after _ fun available => .ite (fun _ => .after _ fun _ => ?_) fun _ => ?_
    all_goals
      cases callable with
      | builtin b => exact within_callBuiltin hrun hle b
      | user f _ => exact .after _ fun _ => within_runUser hrun ref f

theorem within_callValue (hrun : ∀ code, Within (run code) (run' code)) (hle : fuel ≤ fuel')
    (target : Value) : Within (callValue fuel run target) (callValue fuel' run' target) := by
  cases target with
  | function ref => exact within_callFunction hrun hle ref
  | word name =>
    refine .after _ fun v => ?_
    cases v with
    | function ref => exact within_callFunction hrun hle ref
    | _ => exact .refl _
  | _ => exact .refl _

theorem within_runIndexed (hrun : ∀ code, Within (run code) (run' code)) (hle : fuel ≤ fuel')
    (pos : Nat) (family : Family) (v : Value) :
    Within (runIndexed fuel run pos family v) (runIndexed fuel' run' pos family v) := by
  cases family with
  | call => exact within_callValue hrun hle v
  | _ => exact .refl _

theorem within_runOpcode (hrun : ∀ code, Within (run code) (run' code)) (hle : fuel ≤ fuel')
    (pos : Nat) (o : Opcode) : Within (runOpcode fuel run pos o) (runOpcode fuel' run' pos o) := by
  unfold runOpcode
  split
  · exact .refl _
  · split
    · exact .refl _
    · exact .refl _
    · exact .refl _
    · exact .refl _
    · exact .refl _
    · split
      · exact within_callBuiltin hrun hle _
      · exact .refl _

theorem within_runInstruction (hrun : ∀ code, Within (run code) (run' code)) (hle : fuel ≤ fuel')
    (unit : CodeUnit) (pos : Nat) (i : Instruction) :
    Within (runInstruction fuel run unit pos i) (runInstruction fuel' run' unit pos i) := by
  cases i with
  | indexed family index =>
    unfold runInstruction
    dsimp only
    cases unit.constants[index]? with
    | none => exact .refl _
    | some v => exact within_runIndexed hrun hle pos family v
  | op o => exact within_runOpcode hrun hle pos o
  | jump => exact .refl _

/-! ## Units -/

/-- **More fuel changes no outcome.** -/
theorem within_execute (hle : fuel ≤ fuel') (unit : CodeUnit) (pos : Nat) :
    Within (execute fuel unit pos) (execute fuel' unit pos) := by
  induction fuel generalizing fuel' unit pos with
  | zero => exact .outOfFuel _
  | succ fuel ih =>
    obtain ⟨fuel', rfl⟩ : ∃ n, fuel' = n + 1 := ⟨fuel' - 1, by omega⟩
    have hle : fuel ≤ fuel' := Nat.le_of_succ_le_succ hle
    have hrun (code : CodeRef) : Within (do execute fuel (← unitOf code) 0)
        (do execute fuel' (← unitOf code) 0) := .after _ fun unit => ih hle unit 0
    unfold execute
    dsimp only
    split
    · exact .refl _
    · exact .refl _
    · exact .after _ fun taken => ih hle unit _
    · next i _ _ _ =>
      refine (within_runInstruction hrun hle unit pos i).bind fun flow => ?_
      cases flow with
      | done => exact ih hle unit _
      | _ => exact .refl _

/-- With some amount of fuel, the piece ends or fails in the given way. -/
def Exec.Ends (x : Nat → Exec α) (m : Machine) (r : Except Halt α × Machine) : Prop :=
  r.1 ≠ .error .outOfFuel ∧ ∃ fuel, (x fuel).run.run m = r

namespace Exec.Ends

variable {x y : Nat → Exec α} {m m' : Machine} {r r' : Except Halt α × Machine}

theorem of_le (hx : ∀ {fuel fuel'}, fuel ≤ fuel' → Within (x fuel) (x fuel')) (h : Ends x m r) :
    ∃ least, ∀ fuel, least ≤ fuel → (x fuel).run.run m = r := by
  obtain ⟨hr, least, rfl⟩ := h
  exact ⟨least, fun fuel hle => (hx hle m hr).symm⟩

/-- **There is one outcome at most.** -/
theorem unique (hx : ∀ {fuel fuel'}, fuel ≤ fuel' → Within (x fuel) (x fuel')) (h : Ends x m r)
    (h' : Ends x m r') : r = r' := by
  obtain ⟨n, hn⟩ := h.of_le hx
  obtain ⟨n', hn'⟩ := h'.of_le hx
  rw [← hn (max n n') (Nat.le_max_left ..), hn' (max n n') (Nat.le_max_right ..)]

end Exec.Ends

end BlockLang
