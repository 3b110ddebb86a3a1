import BlockLang.Proofs.Machine.Control
import BlockLang.Proofs.Machine.OrderlyBlocks
import BlockLang.Proofs.Machine.Running

/-!
# Operations keep order

An operation pushes what it makes of its operands, and that refers to no other functions than they do. Only
`function` makes one, and it is there from then on. The forms bind names through the rules for bindings, put
them back through those for scopes, and leave the rest to the bodies that they run.
-/

namespace BlockLang.Exec

variable {α β : Type} {m : Machine}

/-! ## Operations that run no code -/

theorem keepsOrder_apply {f : Value → Except RuntimeError Value}
    (hf : ∀ {A B} {a v : Value}, a.RefersIn A B → f a = .ok v → v.RefersIn A B) :
    KeepsOrder (apply f) := fun _ =>
  keeps_pop.bind fun _ a _ ha => (keeps_answer (f a)).bind fun _ _ hn hv =>
    keeps_push (hf (ha.later hn) hv)

theorem keepsOrder_apply₂ {f : Value → Value → Except RuntimeError Value}
    (hf : ∀ {A B} {a b v : Value}, a.RefersIn A B → b.RefersIn A B → f a b = .ok v →
      v.RefersIn A B) :
    KeepsOrder (apply₂ f) := fun _ =>
  keeps_pop₂.bind fun _ (a, b) _ ⟨ha, hb⟩ => (keeps_answer (f a b)).bind fun _ _ hn hv =>
    keeps_push (hf (ha.later hn) (hb.later hn) hv)

theorem keepsOrder_compareEqual (fuel : Nat) (expected : Bool) :
    KeepsOrder (compareEqual fuel expected) := fun _ =>
  keeps_pop₂.bind fun n (a, b) _ _ => (keepsOrder_areEqual fuel a b n).bind fun _ _ _ _ =>
    keeps_push trivial

theorem keepsOrder_getPart : KeepsOrder getPart := by
  refine fun m => keeps_pop₂.bind fun n (a, b) _ ⟨ha, _⟩ => .heap fun hheap => ?_
  refine (keeps_answer _).bind fun k v hk hv => keeps_push (Machine.Knows.later ?_ hk)
  exact Value.refersIn_of_part hv ha fun ref _ _ hkey =>
    hheap.entries ref _ (NameTable.mem_of_get? hkey)

theorem keepsOrder_setPart : KeepsOrder setPart := by
  refine fun m => keeps_pop₃.bind fun n (collection, key, value) _ ⟨_, _, hv⟩ => ?_
  cases collection with
  | dictionary ref =>
    refine (keeps_answer (key.keyName "set")).bind fun k name hk _ => .modify fun hm => ?_
    have hlater : k.Later { k with world.heap := k.world.heap.insertEntry ref name value } :=
      .of_callables rfl rfl
    exact ⟨hm.congr hlater (hm.scope.later hlater) (hm.heap.insertEntry (hv.later hk) ref name)
      hm.results rfl rfl, hlater, trivial⟩
  | _ => exact keeps_fail _

theorem keepsOrder_countItems : KeepsOrder countItems := by
  refine fun m => keeps_pop.bind fun n v _ _ => .heap fun _ => ?_
  exact (keeps_answer _).bind fun _ _ _ hv => keeps_push (Value.refersIn_of_itemCount hv)

theorem keeps_mapM {f : α → Exec β} {Q : Machine → β → Prop}
    (hQ : ∀ {n k b}, n.Later k → Q n b → Q k b) (l : List α)
    (hf : ∀ a ∈ l, ∀ n, m.Later n → Keeps (f a) Q n) :
    Keeps (l.mapM f) (fun n r => ∀ b ∈ r, Q n b) m := by
  induction l generalizing m with
  | nil =>
    rw [List.mapM_nil]
    exact .pure (by simp)
  | cons a l ih =>
    obtain ⟨ha, hl⟩ := List.forall_mem_cons.1 hf
    rw [List.mapM_cons]
    refine (ha m (.refl m)).bind fun n b hn hb => ?_
    refine (ih fun a ha k hk => hl a ha k (hn.trans hk)).bind fun k r hk hr => .pure ?_
    exact List.forall_mem_cons.2 ⟨hQ hk hb, hr⟩

theorem keepsOrder_replaceItems (fuel : Nat) : KeepsOrder (replaceItems fuel) := by
  refine fun m => keeps_pop₃.bind fun n (whole, old, new) _ ⟨hw, _, hnew⟩ => ?_
  cases whole with
  | block items dynamic =>
    refine (keeps_mapM (Q := Machine.Knows) (fun h hv => hv.later h) items
      fun v hv k hk => ?_).bind fun k l _ hl => keeps_push (Machine.knows_block.2 hl)
    refine (keepsOrder_areEqual fuel v old k).bind fun j equal hj _ => ?_
    exact .ite (fun _ => .pure ((hnew.later hk).later hj)) fun _ =>
      .pure (((Machine.knows_block.1 hw v hv).later hk).later hj)
  | string s =>
    cases old with
    | string pattern =>
      cases new with
      | string replacement => exact keeps_push trivial
      | _ => exact keeps_fail _
    | _ => exact keeps_fail _
  | _ => exact keeps_fail _

theorem keepsOrder_joinItems (fuel : Nat) : KeepsOrder (joinItems fuel) := by
  refine fun m => keeps_pop.bind fun n v _ _ => ?_
  cases v with
  | block items dynamic =>
    refine (keeps_mapM (Q := fun _ _ => True) (fun _ _ => trivial) items
      fun v _ k _ => keepsOrder_shown fuel v k).bind fun _ _ _ _ => keeps_push trivial
  | _ => exact keeps_fail _

theorem keepsOrder_appendItems (fuel : Nat) : KeepsOrder (appendItems fuel) := by
  refine fun m => keeps_pop₂.bind fun n (a, b) _ ⟨ha, hb⟩ => ?_
  cases a with
  | string s => exact (keepsOrder_shown fuel b n).bind fun _ _ _ _ => keeps_push trivial
  | block items dynamic =>
    have hitems : ∀ v ∈ items, n.Knows v := Machine.knows_block.1 ha
    cases b with
    | block others dynamic' =>
      refine keeps_push (Machine.knows_block.2 (List.forall_mem_append.2 ⟨hitems, ?_⟩))
      exact Machine.knows_block.1 hb
    | _ =>
      refine keeps_push (Machine.knows_block.2 (List.forall_mem_append.2 ⟨hitems, ?_⟩))
      exact List.forall_mem_singleton.2 hb
  | _ => exact keeps_fail _

theorem keeps_convertTo (fuel : Nat) (type : String) {v : Value} (hv : m.Knows v) :
    Keeps (convertTo fuel type v) Machine.Knows m := by
  have answer {r : Except RuntimeError Value} (hr : ∀ {A B} {v : Value}, r = .ok v → v.RefersIn A B) :
      Keeps (liftM r : Exec Value) Machine.Knows m := (keeps_answer r).mono fun _ _ h => hr h
  unfold convertTo
  split
  · exact (keepsOrder_shown fuel v m).bind fun _ _ _ _ => .pure trivial
  · exact answer Value.refersIn_of_toInteger
  · exact answer Value.refersIn_of_toFloating
  · exact answer Value.refersIn_of_toLogical
  · cases v with
    | block items dynamic => exact .pure hv
    | string s => exact (keeps_read s).bind fun _ _ _ hl => .pure (Machine.knows_block.2 hl)
    | _ => exact .pure (Machine.knows_block.2 (List.forall_mem_singleton.2 hv))
  · exact keeps_fail _

theorem keepsOrder_convert (fuel : Nat) : KeepsOrder (convert fuel) := by
  refine fun m => keeps_pop₂.bind fun n (type, v) _ ⟨_, hv⟩ => ?_
  refine (keeps_answer type.typeName).bind fun k name hk _ => ?_
  exact (keeps_convertTo fuel name (hv.later hk)).bind fun _ _ _ hr => keeps_push hr

theorem keeps_stringOf (fuel : Nat) (v : Value) : Keeps (stringOf fuel v) Machine.Knows m :=
  (keepsOrder_shown fuel v m).bind fun _ _ _ _ => .pure trivial

theorem keepsOrder_toText (fuel : Nat) : KeepsOrder (toText fuel) := fun _ =>
  keeps_pop.bind fun _ v _ _ => (keeps_stringOf fuel v).bind fun _ _ _ hs => keeps_push hs

/-! ## Functions -/

theorem keeps_captured (names : List String) :
    Keeps (captured names) (fun n l => ∀ e ∈ l, n.Knows e.2) m := by
  refine .get fun hm => .pure fun e he => ?_
  obtain ⟨name, -, hn⟩ := List.mem_filterMap.1 he
  obtain ⟨v, hv, rfl⟩ := Option.map_eq_some_iff.1 hn
  exact hm.scope.get? hv

theorem keepsOrder_namesOfAttr (name : String) : KeepsOrder (namesOfAttr name) := by
  refine (keepsOrder_attr? name).bind fun v? n => ?_
  cases v? with
  | some v => exact (keeps_answer _).mono fun _ _ _ => trivial
  | none => exact .pure trivial

theorem keeps_functionOf (params : List String) {main : Value} (hmain : m.Knows main) :
    Keeps (functionOf params main)
      (fun n f => n.Knows f.main ∧ ∀ e ∈ f.imports, n.Knows e.2) m := by
  refine (keepsOrder_hasFlag "memoize" m).bind fun n₁ _ h₁ _ => ?_
  refine (keepsOrder_hasFlag "exportable" n₁).bind fun n₂ _ h₂ _ => ?_
  refine (keepsOrder_namesOfAttr "export" n₂).bind fun n₃ _ h₃ _ => ?_
  refine (keepsOrder_namesOfAttr "import" n₃).bind fun n₄ names h₄ _ => ?_
  refine (keeps_captured names).bind fun n₅ imports h₅ hi => .pure ⟨?_, hi⟩
  exact hmain.later ((((h₁.trans h₂).trans h₃).trans h₄).trans h₅)

theorem keepsOrder_makeFunction : KeepsOrder makeFunction := by
  refine fun m => keeps_pop₂.bind fun n (params, main) _ ⟨_, hmain⟩ => ?_
  refine (keeps_answer (params.parameterNames "function")).bind fun k names hk _ => ?_
  have hadd : Keeps (do push (← inWorld (·.addUser (← functionOf names main)))) (fun _ _ => True) k := by
    refine (keeps_functionOf names (hmain.later hk)).bind fun j f _ ⟨hf, hi⟩ => ?_
    refine Keeps.bind (Q := Machine.Knows) (.inWorld fun hj => ?_) fun _ _ _ hv => keeps_push hv
    have hlater : j.Later { j with world := (j.world.addUser f).2 } :=
      ⟨j.world.heap.grown_addCallable _, fun _ _ => id⟩
    have hclosed : (j.world.heap.addUser f).2.Closed :=
      hj.heap.addCallable fun g c? hg => by cases hg; exact ⟨hf, hi⟩
    exact ⟨hj.congr hlater (hj.scope.later hlater) hclosed
      (fun e he => (hj.results e he).later hlater) rfl rfl, hlater, j.world.heap.knows_addCallable _⟩
  cases main with
  | block items dynamic => exact hadd
  | bytecode ref => exact hadd
  | _ => exact keeps_fail _

/-! ## Output and errors -/

theorem keepsOrder_printTop (fuel : Nat) : KeepsOrder (printTop fuel) := fun _ =>
  keeps_pop.bind fun n v _ _ => (keepsOrder_shown fuel v n).bind fun k _ _ _ =>
    keepsOrder_print _ k

theorem keepsOrder_raiseTop (fuel : Nat) : KeepsOrder (raiseTop fuel) := fun _ =>
  keeps_pop.bind fun n v _ _ => (keepsOrder_shown fuel v n).bind fun _ _ _ _ => .throw _

/-! ## Branches -/

/-- Forms that report end so. -/
theorem keepsOrder_report {c : Prop} [Decidable c] (done : Bool) (flow : Flow) :
    KeepsOrder (if c then do
      push (.logical done)
      return flow
    else return flow) := fun _ =>
  .ite (fun _ => (keeps_push (v := .logical done) trivial).bind fun _ _ _ _ => .pure trivial)
    fun _ => .pure trivial

section

variable {run : CodeRef → Exec Flow} (hrun : ∀ code, KeepsOrder (run code))

include hrun

theorem keepsOrder_branch (operation : String) (wanted : Bool) :
    KeepsOrder (branch run operation wanted) := fun _ =>
  keeps_pop₂.bind fun _ (condition, _) _ ⟨_, hb⟩ =>
    (keeps_answer (condition.expectLogical operation)).bind fun _ _ hn _ =>
      .ite (fun _ => keeps_runInPlace hrun (hb.later hn)) fun _ => .pure trivial

theorem keepsOrder_branchReport : KeepsOrder (branchReport run) := by
  refine fun m => keeps_pop₂.bind fun n (condition, body) _ ⟨_, hb⟩ => ?_
  refine (keeps_answer (condition.expectLogical "if?")).bind fun k holds hk _ => ?_
  cases holds with
  | false => exact (keeps_push (v := .logical false) trivial).bind fun _ _ _ _ => .pure trivial
  | true => exact (keeps_runInPlace hrun (hb.later hk)).bind fun j flow _ _ =>
      keepsOrder_report _ flow j

theorem keeps_runOrPush {v : Value} (hv : m.Knows v) : Keeps (runOrPush run v) (fun _ _ => True) m := by
  cases v with
  | block items dynamic => exact keeps_runInPlace hrun hv
  | _ => exact (keeps_push hv).bind fun _ _ _ _ => .pure trivial

theorem keepsOrder_choose : KeepsOrder (choose run) := by
  refine fun m => keeps_pop₃.bind fun n (condition, yes, no) _ ⟨_, hy, hno⟩ => ?_
  refine (keeps_answer (condition.expectLogical "switch")).bind fun k holds hk _ => ?_
  cases holds with
  | false => exact keeps_runOrPush hrun (hno.later hk)
  | true => exact keeps_runOrPush hrun (hy.later hk)

/-! ## Running code as it is -/

theorem keepsOrder_runValue : KeepsOrder (runValue run) := by
  refine fun m => keeps_pop.bind fun n v _ hv => ?_
  cases v with
  | string source =>
    exact (keeps_read source).bind fun _ _ _ hl => keeps_runInPlace hrun (Machine.knows_block.2 hl)
  | _ => exact keeps_runInPlace hrun hv

theorem keeps_trying {body : Value} (hb : m.Knows body) :
    Keeps (trying run body) (fun _ _ => True) m := by
  refine (keepsOrder_count id (· + 1) m).bind fun n _ hn _ => ?_
  refine (keeps_runInPlace hrun (hb.later hn)).observe.bind fun k r _ _ => ?_
  exact (keepsOrder_count id (· - 1) k).bind fun _ _ _ _ => .pure trivial

theorem keepsOrder_attempt (report : Bool) : KeepsOrder (attempt run report) := by
  refine fun m => keeps_pop.bind fun n body _ hb => ?_
  refine (keepsOrder_height n).bind fun k base hk _ => ?_
  refine (keeps_trying hrun (hb.later hk)).bind fun j r _ _ => ?_
  rcases r with (cause | _) | flow
  · exact (keepsOrder_cutTo base j).bind fun i _ _ _ => keepsOrder_report _ _ i
  · exact .throw _
  · exact keepsOrder_report _ flow j

omit hrun in
theorem keepsOrder_demand (fuel : Nat) (condition result : Value) :
    KeepsOrder (demand fuel condition result) := by
  refine fun m => (keeps_answer (result.expectLogical "ensure")).bind fun n holds _ _ => ?_
  refine .ite (fun _ => .pure trivial) fun _ => ?_
  exact (keepsOrder_shown fuel condition n).bind fun _ _ _ _ => .throw _

theorem keepsOrder_ensure (fuel : Nat) : KeepsOrder (ensure run fuel) := by
  refine fun m => keeps_pop.bind fun n condition _ hc => ?_
  cases condition with
  | block items dynamic =>
    refine (keeps_runInPlace hrun hc).bind fun k flow _ _ => .ite (fun _ => ?_) fun _ => .pure trivial
    exact keeps_pop.bind fun j result _ _ => keepsOrder_demand fuel _ result j
  | _ => exact keepsOrder_demand fuel _ _ n

/-! ## Collecting -/

theorem keeps_collectFrom {body : Value} (hb : m.Knows body) :
    Keeps (collectFrom run body) (fun _ _ => True) m := by
  refine (keepsOrder_height m).bind fun n base hn _ => ?_
  refine (keeps_runInPlace hrun (hb.later hn)).bind fun k flow _ _ => ?_
  refine .ite (fun _ => ?_) fun _ => .pure trivial
  refine (keeps_takeAbove base).bind fun j items _ hi => ?_
  exact (keeps_push (Machine.knows_block.2 hi)).bind fun _ _ _ _ => .pure trivial

theorem keepsOrder_makeArray : KeepsOrder (makeArray run) := by
  refine fun m => keeps_pop.bind fun n v _ hv => ?_
  cases v with
  | block items dynamic => exact keeps_collectFrom hrun hv
  | inline items => exact keeps_collectFrom hrun hv
  | _ =>
    refine (keeps_push (Machine.knows_block.2 ?_)).bind fun _ _ _ _ => .pure trivial
    exact List.forall_mem_singleton.2 hv

omit hrun in
theorem knows_entriesOf (hm : m.Orderly) (names : List String) :
    ∀ e ∈ entriesOf m.world names, m.Knows e.2 := by
  have hput (entries : NameTable Value) (he : ∀ e ∈ entries, m.Knows e.2) :
      ∀ e ∈ names.foldl (fun entries name => entries.put name (m.world.get? name)) entries,
        m.Knows e.2 := by
    induction names generalizing entries with
    | nil => exact he
    | cons name names ih =>
      exact ih _ (NameTable.forall_put he fun _ hv => hm.scope.get? hv)
  exact hput [] (by simp)

theorem keepsOrder_makeDictionary : KeepsOrder (makeDictionary run) := by
  refine fun m => keeps_pop.bind fun n body _ hb => ?_
  dsimp only
  cases body.items? with
  | none => exact keeps_fail _
  | some items =>
    refine (keepsOrder_height n).bind fun k base hk _ => ?_
    refine (keeps_protecting (Q := fun n (r : Flow × NameTable Value) =>
      r.2.names.Nodup ∧ ∀ e ∈ r.2, n.Knows e.2) _ ?_ fun h hr =>
        hr.imp_right fun hr e he => (hr e he).later h).bind fun j ⟨flow, entries⟩ _ ⟨hkeys, he⟩ => ?_
    · refine (keeps_runInPlace hrun (hb.later hk)).bind fun i flow _ _ => .get fun hi => .pure ?_
      exact ⟨nodup_entriesOf _ _, knows_entriesOf hi _⟩
    · refine (keepsOrder_cutTo base j).bind fun i _ hi _ => .ite (fun _ => ?_) fun _ => .pure trivial
      refine Keeps.bind (Q := Machine.Knows) (.inWorld fun hm => ?_) fun _ _ _ hv =>
        (keeps_push hv).bind fun _ _ _ _ => .pure trivial
      have hlater : i.Later { i with world := (i.world.addDictionary entries).2 } :=
        .of_callables rfl rfl
      exact ⟨hm.congr hlater (hm.scope.later hlater)
        (hm.heap.addDictionary (fun e hm => (he e hm).later hi) hkeys) hm.results rfl rfl, hlater, trivial⟩

/-! ## Loops -/

theorem keeps_testCondition {condition : Value} (hc : m.Knows condition) :
    Keeps (testCondition run condition) (fun _ _ => True) m := by
  refine .ite (fun _ => .pure trivial) fun _ => ?_
  refine (keeps_runInPlace hrun hc).bind fun n flow _ _ => .ite (fun _ => ?_) fun _ => .pure trivial
  refine keeps_pop.bind fun k v _ _ => ?_
  exact (keeps_answer (v.expectLogical "while")).bind fun _ _ _ _ => .pure trivial

theorem keeps_repeatWhile {condition body : Value} (hc : m.Knows condition) (hb : m.Knows body)
    (fuel : Nat) : Keeps (repeatWhile run condition body fuel) (fun _ _ => True) m := by
  induction fuel generalizing m with
  | zero => exact .throw _
  | succ fuel ih =>
    refine (keeps_testCondition hrun hc).bind fun n r hn _ => ?_
    rcases r with flow | (_ | _)
    · exact .pure trivial
    · exact .pure trivial
    · refine (keeps_runPass hrun (hb.later hn)).bind fun k pass hk _ => ?_
      have hlater := hn.trans hk
      cases pass with
      | stop flow => exact .pure trivial
      | _ => exact ih (hc.later hlater) (hb.later hlater)

theorem keepsOrder_runWhile (fuel : Nat) : KeepsOrder (runWhile run fuel) := fun _ =>
  keeps_pop₂.bind fun _ (_, _) _ ⟨hc, hb⟩ => keeps_repeatWhile hrun hc hb fuel

theorem keeps_passes (kind : Traversal) (params : List String) {body : Value} (hb : m.Knows body)
    (count : Nat) {items collected : List Value} (hi : ∀ v ∈ items, m.Knows v)
    (hc : ∀ v ∈ collected, m.Knows v) :
    Keeps (passes run kind params body count items collected) (fun n r => ∀ v ∈ r.2, n.Knows v) m := by
  induction count generalizing m items collected with
  | zero => exact .pure hc
  | succ count ih =>
    cases items with
    | nil => exact .pure hc
    | cons item items =>
      have hnow : ∀ v ∈ (item :: items).take (max params.length 1), m.Knows v :=
        fun v hv => hi v (List.mem_of_mem_take hv)
      refine (keeps_bindAll fun e he => hnow _ (List.of_mem_zip he).2).bind fun n _ hn _ => ?_
      refine (keeps_runPass hrun (hb.later hn)).bind fun k pass hk hpass => ?_
      have hlater := hn.trans hk
      have hrest : ∀ v ∈ (item :: items).drop (max params.length 1), k.Knows v :=
        fun v hv => (hi v (List.mem_of_mem_drop hv)).later hlater
      have hc : ∀ v ∈ collected, k.Knows v := fun v hv => (hc v hv).later hlater
      cases pass with
      | stop flow => exact .pure hc
      | skipped => exact ih (hb.later hlater) hrest hc
      | value result? =>
        refine (keeps_answer _).bind fun j more hj hmore => ?_
        have hmore : ∀ v ∈ more, k.Knows v := Pairing.refersIn_collect hmore
          (fun v hv => (hnow v hv).later hlater) fun v hv => hpass v (congrArg _ hv)
        refine ih (hb.later (hlater.trans hj)) (fun v hv => (hrest v hv).later hj) fun v hv => ?_
        exact ((List.mem_append.1 hv).elim (hmore v) (hc v)).later hj

theorem keepsOrder_traverse (kind : Traversal) : KeepsOrder (traverse run kind) := by
  refine fun m => keeps_pop₃.bind fun n (collection, params, body) _ ⟨hcol, _, hb⟩ => ?_
  refine (keeps_answer (params.parameterNames kind.name)).bind fun k params hk _ => ?_
  refine .heap fun hheap => (keeps_answer _).bind fun j items hj hitems => ?_
  have hitems : ∀ v ∈ items, k.Knows v :=
    Value.refersIn_of_elements hitems (hcol.later hk) hheap.entries
  have hnone : ∀ v ∈ ([] : List Value), j.Knows v := List.forall_mem_nil _
  have hpasses := keeps_passes hrun kind params (hb.later (hk.trans hj)) items.length
    (fun v hv => (hitems v hv).later hj) hnone
  refine (keeps_protecting params hpasses fun h hr v hv => (hr v hv).later h).bind
    fun i ⟨flow, collected⟩ _ hc => .ite (fun _ => ?_) fun _ => .pure trivial
  refine (keeps_push (Machine.knows_block.2 ?_)).bind fun _ _ _ _ => .pure trivial
  simpa using hc

end

end BlockLang.Exec
