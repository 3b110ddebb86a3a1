import BlockLang.Machine.Operation
import BlockLang.Proofs.Machine.Rules

/-!
# Operations that run no code, in paired machines

What an operation pushes refers to no code but that of its operands, and it looks at no part of the
heap that may differ.
-/

namespace BlockLang.Pairing

open Exec

variable {S : Pairing} {α β : Type}

theorem sim_apply (hS : S.Lawful) {f : Value → Except RuntimeError Value}
    (he : ∀ a, SparesCode (f a)) (hf : ∀ {a v}, a.CodesIn S.known → f a = .ok v → v.CodesIn S.known) :
    Sim S.coupling Eq (apply f) (apply f) := by
  refine (sim_pop hS).bindSame fun a ha => ?_
  exact (sim_answer (he a) fun _ => hf ha).bindSame fun _ hv => sim_push hv

theorem sim_apply₂ (hS : S.Lawful) {f : Value → Value → Except RuntimeError Value}
    (he : ∀ a b, SparesCode (f a b))
    (hf : ∀ {a b v}, a.CodesIn S.known → b.CodesIn S.known → f a b = .ok v → v.CodesIn S.known) :
    Sim S.coupling Eq (apply₂ f) (apply₂ f) := by
  refine (sim_pop₂ hS).bindSame fun (a, b) ⟨ha, hb⟩ => ?_
  exact (sim_answer (he a b) fun _ => hf ha hb).bindSame fun _ hv => sim_push hv

theorem sim_compareEqual (hS : S.Lawful) (fuel : Nat) (expected : Bool) :
    Sim S.coupling Eq (compareEqual fuel expected) (compareEqual fuel expected) := by
  refine (sim_pop₂ hS).bindSame fun (a, b) _ => ?_
  refine (sim_areEqual fuel a b).bindEq fun equal => ?_
  exact sim_push trivial

/-! ## Collections -/

theorem sim_getPart (hS : S.Lawful) : Sim S.coupling Eq getPart getPart := by
  refine (sim_pop₂ hS).bindSame fun (a, b) ⟨ha, _⟩ => ?_
  refine sim_heap.bind fun h h' ⟨hh, hin⟩ => ?_
  rw [← hh.part]
  exact (sim_answer (Value.sparesCode_part _ _ _) fun _ => hin.part ha).bindSame fun _ hv =>
    sim_push hv

theorem sim_setPart (hS : S.Lawful) : Sim S.coupling Eq setPart setPart := by
  refine (sim_pop₃ hS).bindSame fun (collection, key, value) ⟨_, _, hv⟩ => ?_
  cases collection with
  | dictionary ref =>
    refine (sim_ask (Value.sparesCode_keyName _ _)).bindEq fun name => ?_
    exact sim_modifyWorld fun w w' hw => hw.insertEntry hS ref _ hv
  | _ => exact sim_fail (.usual rfl)

theorem sim_countItems (hS : S.Lawful) : Sim S.coupling Eq countItems countItems := by
  refine (sim_pop hS).bindSame fun a _ => ?_
  refine sim_heap.bind fun h h' ⟨hh, _⟩ => ?_
  rw [← hh.itemCount]
  exact (sim_answer (Value.sparesCode_itemCount h a) fun _ => Value.refersIn_of_itemCount).bindSame
    fun _ hv => sim_push hv

theorem sim_mapM {f : α → Exec β} {Q : β → Prop} (l : List α)
    (hf : ∀ a ∈ l, Sim S.coupling (fun b b' => b = b' ∧ Q b) (f a) (f a)) :
    Sim S.coupling (fun r q => r = q ∧ ∀ b ∈ r, Q b) (l.mapM f) (l.mapM f) := by
  induction l with
  | nil =>
    rw [List.mapM_nil]
    exact Sim.pure ⟨rfl, by simp⟩
  | cons a l ih =>
    obtain ⟨ha, hl⟩ := List.forall_mem_cons.1 hf
    rw [List.mapM_cons]
    refine ha.bindSame fun b hb => (ih hl).bindSame fun r hr => Sim.pure ?_
    exact ⟨rfl, List.forall_mem_cons.2 ⟨hb, hr⟩⟩

theorem sim_replaceItems (hS : S.Lawful) (fuel : Nat) :
    Sim S.coupling Eq (replaceItems fuel) (replaceItems fuel) := by
  refine (sim_pop₃ hS).bindSame fun (whole, old, new) ⟨hw, _, hn⟩ => ?_
  cases whole with
  | block items dynamic =>
    refine (sim_mapM (Q := (·.CodesIn S.known)) items fun v hv => ?_).bindSame fun l hl => ?_
    · refine (sim_areEqual fuel v old).bindEq fun equal => ?_
      cases equal
      · exact Sim.pure ⟨rfl, Value.refersIn_block.1 hw v hv⟩
      · exact Sim.pure ⟨rfl, hn⟩
    · exact sim_push (Value.refersIn_block.2 hl)
  | string s =>
    cases old with
    | string pattern =>
      cases new with
      | string replacement => exact sim_push trivial
      | _ => exact sim_fail (.usual rfl)
    | _ => exact sim_fail (.usual rfl)
  | _ => exact sim_fail (.usual rfl)

theorem sim_joinItems (hS : S.Lawful) (fuel : Nat) :
    Sim S.coupling Eq (joinItems fuel) (joinItems fuel) := by
  refine (sim_pop hS).bindSame fun v _ => ?_
  cases v with
  | block items dynamic =>
    refine (sim_mapM (Q := fun _ => True) items fun v _ => ?_).bindSame fun l _ => ?_
    · exact (sim_shown fuel v).mono fun _ _ h => ⟨h, trivial⟩
    · exact sim_push trivial
  | _ => exact sim_fail (.usual rfl)

theorem sim_appendItems (hS : S.Lawful) (fuel : Nat) :
    Sim S.coupling Eq (appendItems fuel) (appendItems fuel) := by
  refine (sim_pop₂ hS).bindSame fun (a, b) ⟨ha, hb⟩ => ?_
  cases a with
  | string s =>
    refine (sim_shown fuel b).bindEq fun text => ?_
    exact sim_push trivial
  | block items dynamic =>
    have ha := Value.refersIn_block.1 ha
    cases b <;> exact sim_push (by simp_all [Value.refersIn_block, or_imp])
  | _ => exact sim_fail (.usual rfl)

/-! ## Conversions -/

theorem sim_stringOf (fuel : Nat) (v : Value) :
    Sim S.coupling S.SameValue (stringOf fuel v) (stringOf fuel v) := by
  refine (sim_shown fuel v).bindEq fun text => ?_
  exact Sim.pure ⟨rfl, trivial⟩

theorem sim_blockOf (hS : S.Lawful) {v : Value} (hv : v.CodesIn S.known) :
    Sim S.coupling S.SameValue (blockOf v) (blockOf v) := by
  cases v with
  | block items dynamic => exact Sim.pure ⟨rfl, hv⟩
  | string s =>
    refine (sim_read hS s).bindSame fun items hi => ?_
    exact Sim.pure ⟨rfl, Value.refersIn_block.2 hi⟩
  | _ => exact Sim.pure ⟨rfl, Value.refersIn_block.2 (List.forall_mem_singleton.2 hv)⟩

theorem sim_convertTo (hS : S.Lawful) (fuel : Nat) (type : String) {v : Value}
    (hv : v.CodesIn S.known) :
    Sim S.coupling S.SameValue (convertTo fuel type v) (convertTo fuel type v) := by
  generalize hx : convertTo fuel type v = x
  unfold convertTo at hx
  split at hx <;> subst hx
  · exact sim_stringOf fuel v
  · exact sim_answer v.sparesCode_toInteger fun _ => Value.refersIn_of_toInteger
  · exact sim_answer v.sparesCode_toFloating fun _ => Value.refersIn_of_toFloating
  · exact sim_answer v.sparesCode_toLogical fun _ => Value.refersIn_of_toLogical
  · exact sim_blockOf hS hv
  · exact sim_fail (.usual rfl)

theorem sim_convert (hS : S.Lawful) (fuel : Nat) :
    Sim S.coupling Eq (convert fuel) (convert fuel) := by
  refine (sim_pop₂ hS).bindSame fun (type, v) ⟨_, hv⟩ => ?_
  refine (sim_ask type.sparesCode_typeName).bindEq fun name => ?_
  exact (sim_convertTo hS fuel name hv).bindSame fun _ h => sim_push h

theorem sim_toText (hS : S.Lawful) (fuel : Nat) :
    Sim S.coupling Eq (toText fuel) (toText fuel) := by
  refine (sim_pop hS).bindSame fun v _ => ?_
  exact (sim_stringOf fuel v).bindSame fun _ hs => sim_push hs

/-! ## Functions -/

theorem sim_captured (names : List String) :
    Sim S.coupling (fun r q => r = q ∧ ∀ e ∈ r, e.2.CodesIn S.known) (captured names)
      (captured names) := by
  refine Sim.get.bind fun m n h => Sim.pure ⟨?_, fun e he => ?_⟩
  · simp only [h.world.alike.get?]
  · obtain ⟨name, -, hn⟩ := List.mem_filterMap.1 he
    obtain ⟨v, hv, rfl⟩ := Option.map_eq_some_iff.1 hn
    exact h.world.scope.value hv

theorem sim_namesOfAttr (name : String) :
    Sim S.coupling Eq (namesOfAttr name) (namesOfAttr name) := by
  refine (sim_attr? name).bindSame fun v? _ => ?_
  cases v? with
  | some v => exact sim_ask (v.sparesCode_parameterNames _)
  | none => exact Sim.pure rfl

/-- The functions are the same, and hold what the pairing admits. -/
def SameFunction (S : Pairing) (f g : UserFunction) : Prop :=
  f = g ∧ f.main.CodesIn S.known ∧ ∀ e ∈ f.imports, e.2.CodesIn S.known

theorem sim_functionOf (params : List String) {main : Value} (hm : main.CodesIn S.known) :
    Sim S.coupling S.SameFunction (functionOf params main) (functionOf params main) := by
  refine (sim_hasFlag _).bindEq fun memoize => ?_
  refine (sim_hasFlag _).bindEq fun exportable => ?_
  refine (sim_namesOfAttr _).bindEq fun exports => ?_
  refine (sim_namesOfAttr _).bindEq fun names => ?_
  refine (sim_captured names).bindSame fun imports hi => ?_
  exact Sim.pure ⟨rfl, hm, hi⟩

theorem sim_addFunction (hS : S.Lawful) (params : List String) {main : Value}
    (hm : main.CodesIn S.known) :
    Sim S.coupling Eq (do push (← inWorld (·.addUser (← functionOf params main))))
      (do push (← inWorld (·.addUser (← functionOf params main)))) := by
  refine (sim_functionOf params hm).bindSame fun f ⟨hm, hi⟩ => ?_
  refine (sim_inWorld fun w w' hw => ?_).bindSame fun _ hv => sim_push hv
  exact (hw.addUser hS hm hi).imp_right fun hv => ⟨hv, trivial⟩

theorem sim_makeFunction (hS : S.Lawful) : Sim S.coupling Eq makeFunction makeFunction := by
  refine (sim_pop₂ hS).bindSame fun (params, main) ⟨_, hm⟩ => ?_
  refine (sim_ask (params.sparesCode_parameterNames _)).bindEq fun params => ?_
  cases main with
  | block items dynamic => exact sim_addFunction hS params hm
  | bytecode ref => exact sim_addFunction hS params hm
  | _ => exact sim_fail (.usual rfl)

/-! ## Output and errors -/

theorem sim_printTop (hS : S.Lawful) (fuel : Nat) :
    Sim S.coupling Eq (printTop fuel) (printTop fuel) := by
  refine (sim_pop hS).bindSame fun v _ => ?_
  refine (sim_shown fuel v).bindEq fun line => ?_
  exact sim_print _

theorem sim_raiseTop (hS : S.Lawful) (fuel : Nat) :
    Sim S.coupling Eq (raiseTop fuel) (raiseTop fuel) := by
  refine (sim_pop hS).bindSame fun v _ => ?_
  refine (sim_shown fuel v).bindEq fun message => ?_
  exact Sim.throw trivial

end BlockLang.Pairing
