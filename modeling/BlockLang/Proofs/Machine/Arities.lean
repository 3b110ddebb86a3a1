import BlockLang.Proofs.CallTree.Forms
import BlockLang.Proofs.Machine.Gathering
import BlockLang.Proofs.Machine.LateBinding
import BlockLang.Proofs.Machine.Marking

/-!
# Declared arities are those of the functions

Calls are built by what a label in front of a function form has said about the arity of its name, before there
is a function.

**Theorem (`FunctionForm.declared_arity_eq`).** Where the form is read as it is written
(`FunctionForm.Reads`), the label declares the number of names in the block of the parameters, and is read
as the binding of the function. Whenever a run comes to that binding, with a function made of the operands
of the form, the function has just as many parameters, and once it is bound the arity of the name is the
declared one.

The condition is about what the declaration does not see: it skips one item for the value of an attribute, and
the value may be a call (`declared_arity_differs`).

The run is followed from the block of the parameters to the store. A constant is pushed as a value that is the
same (`Place.Awaits.stack_constant`), the function is made of the two operands on top
(`Place.Awaits.makesFunction`), and the next node is the store (`FunctionForm.exists_split`).
-/

namespace BlockLang

open CallTree Exec

variable {fuel : Nat} {m : Machine} {p q r start : Place} {ps ps' : List Place} {n : Located}
  {later : List Located} {place : List Nat} {v c : Value} {name : String} {arity : Nat}
  {children trees : List CallTree}

/-! ## Parameters -/

/-- Only a parameter has a parameter's name. -/
theorem isParameter_of_parameterName {op : String} (h : v.parameterName op = .ok name) :
    World.isParameter v := by
  cases v <;> first | rfl | cases h

theorem isParameter_of_isNewline (h : v.isNewline) : World.isParameter v = false := by
  cases v <;> first | rfl | cases h

/-- A block that lists names lists as many as it has parameters in it; apart from them there are only line
breaks. -/
theorem length_of_parameterNames {items : List Value} {dynamic : Bool} {op : String} {names : List String}
    (h : (Value.block items dynamic).parameterNames op = .ok names) :
    names.length = items.countP World.isParameter := by
  unfold Value.parameterNames at h
  dsimp only at h
  induction items generalizing names with
  | nil =>
    cases h
    rfl
  | cons v items ih =>
    rw [List.filter_cons] at h
    by_cases hv : v.isNewline
    · rw [hv] at h
      rw [ih h, List.countP_cons, isParameter_of_isNewline hv]
      rfl
    · rw [Bool.eq_false_iff.2 hv, if_pos (by rfl), List.mapM_cons] at h
      obtain ⟨name, hname, h⟩ := exists_of_bind_ok h
      obtain ⟨names, hnames, h⟩ := exists_of_bind_ok h
      cases h
      rw [List.length_cons, ih hnames, List.countP_cons, isParameter_of_parameterName hname]
      rfl

theorem isParameter_of_same {v v' : Value} (h : Value.same v v') :
    World.isParameter v = World.isParameter v' := by
  cases v <;> cases v' <;> first | rfl | cases h

theorem countP_of_sameAll {items items' : List Value} (h : Value.sameAll items items') :
    items.countP World.isParameter = items'.countP World.isParameter := by
  induction items generalizing items' with
  | nil =>
    cases items' with
    | nil => rfl
    | cons => cases h
  | cons v items ih =>
    cases items' with
    | nil => cases h
    | cons v' items' =>
      rw [Value.sameAll, Bool.and_eq_true] at h
      rw [List.countP_cons, List.countP_cons, ih h.2, isParameter_of_same h.1]

/-- A constant that is the same as a block lists as many names as the block has parameters in it. -/
theorem length_of_same {items : List Value} {dynamic : Bool} {op : String} {names : List String}
    (hs : Value.same c (.block items dynamic)) (h : c.parameterNames op = .ok names) :
    names.length = items.countP World.isParameter := by
  cases c with
  | block items' dynamic' =>
    rw [length_of_parameterNames h]
    exact countP_of_sameAll hs
  | _ => cases hs

/-- The parameters of a function are those that its operand names. -/
theorem parameterNames_of_functionMade {params main : Value} {f : UserFunction}
    (h : m.functionMade params main = .ok f) : params.parameterNames "function" = .ok f.params := by
  obtain ⟨names, hnames, h⟩ := exists_of_bind_ok h
  have hgiven : m.functionGiven names main = .ok f := by
    cases main <;> first | exact h | cases h
  obtain ⟨exports, -, h⟩ := exists_of_bind_ok hgiven
  obtain ⟨imports, -, h⟩ := exists_of_bind_ok h
  cases h
  exact hnames

/-! ## Single nodes -/

namespace Place

theorem length_of_walk? {count : Nat} (h : p.walk? count = some (ps, r)) : ps.length = count := by
  induction count generalizing p ps with
  | zero =>
    cases h
    rfl
  | succ count ih =>
    obtain ⟨q, -, h⟩ := Option.bind_eq_some_iff.1 h
    obtain ⟨⟨ps, r⟩, hr, h⟩ := Option.map_eq_some_iff.1 h
    cases h
    exact congrArg (· + 1) (ih hr)

/-- The first of the nodes that are awaited is evaluated on the way to the next place. -/
theorem Awaits.instruction (hp : p.Awaits (n :: later)) (h : p.next? = some q) :
    ∃ fuel i, Becomes p.unit.constants n i ∧
      (decode p.unit.code p.pos).instruction? = some i ∧
      (runInstruction fuel (runCode fuel) p.unit p.pos i).run.run p.machine = (.ok .done, q.machine) := by
  obtain ⟨-, body, stop, next, hd, hb, -⟩ := hp
  cases hb with
  | @cons _ i _ _ hn _ =>
    cases hd with
    | cons hi _ =>
      have hj : ∀ condition target, i ≠ .jump condition target := by
        rintro condition target rfl
        cases hn
      obtain ⟨fuel, -, -, -, hrun⟩ := exists_of_next? hi hj h
      exact ⟨fuel, i, hn, by rw [hi], hrun⟩

/-- A constant is pushed. -/
theorem Awaits.stack_constant (hp : p.Awaits (⟨place, .constant v⟩ :: later)) (h : p.next? = some q) :
    ∃ c, Value.same c v ∧ q.machine.stack = c :: p.machine.stack := by
  obtain ⟨fuel, i, hb, -, hrun⟩ := hp.instruction h
  cases hb with
  | @immediate _ _ c o hc hs =>
    refine ⟨c, hs, ?_⟩
    simp only [runInstruction, runOpcode, hc] at hrun
    exact congrArg (·.2.stack) hrun.symm
  | push hc =>
    obtain ⟨c, hc, hs⟩ := hc
    refine ⟨c, hs, ?_⟩
    rw [run_indexed hc] at hrun
    exact congrArg (·.2.stack) hrun.symm

/-- A variable is looked up, and what it is bound to is pushed. -/
theorem Awaits.stack_load (hp : p.Awaits (⟨place, .load name⟩ :: later)) (h : p.next? = some q) :
    ∃ c, q.machine.stack = c :: p.machine.stack := by
  obtain ⟨fuel, i, hb, -, hrun⟩ := hp.instruction h
  cases hb with
  | load hc =>
    obtain ⟨c, hc, hs⟩ := hc
    obtain rfl := Value.eq_word_of_same hs
    rw [run_indexed hc] at hrun
    have hload : runIndexed fuel (runCode fuel) p.pos .load (.word name) =
        (do plain (push (← valueOf name))) := rfl
    rw [hload, valueOf, bind_assoc, run_bind_of_ok (run_get _)] at hrun
    dsimp only at hrun
    cases hv : p.machine.world.get? name with
    | none =>
      rw [hv] at hrun
      cases hrun
    | some v =>
      rw [hv] at hrun
      exact ⟨v, congrArg (·.2.stack) hrun.symm⟩

/-- A function is made of the two operands on top, with as many parameters as the lower one names. -/
theorem Awaits.makesFunction {params main : Value} {stack : List Value}
    (hp : p.Awaits (⟨place, .call (.operation .function) arity children⟩ :: later))
    (hs : p.machine.stack = main :: params :: stack) (h : p.next? = some q) :
    ∃ ref names, params.parameterNames "function" = .ok names ∧
      q.machine.stack = .function ref :: stack ∧ q.machine.world.heap.arity ref = names.length := by
  obtain ⟨fuel, i, hb, -, hrun⟩ := hp.instruction h
  cases hb with
  | operation =>
    have hfunction : Builtin.function.opcode? = some .function := rfl
    have hperform : perform fuel (runCode fuel) .function = plain makeFunction := rfl
    have hm : p.machine = { p.machine with stack := main :: params :: stack } := by rw [← hs]
    rw [runInstruction, CodeUnit.runOpcode_builtin hfunction, Exec.callBuiltin, run_afterwards, hperform, plain,
      run_bind, hm, run_makeFunction] at hrun
    cases hf : p.machine.functionMade params main with
    | error e =>
      rw [hf] at hrun
      cases hrun
    | ok f =>
      rw [hf] at hrun
      obtain ⟨c?, hcallable⟩ := exists_callable?_addUser p.machine.world.heap f
      refine ⟨(p.machine.world.heap.addUser f).1, f.params, parameterNames_of_functionMade hf,
        congrArg (·.2.stack) hrun.symm, ?_⟩
      have hheap : q.machine.world.heap = (p.machine.world.heap.addUser f).2 :=
        congrArg (·.2.world.heap) hrun.symm
      rw [Heap.arity, hheap, hcallable]
      rfl

theorem Awaits.isStore (hp : p.Awaits (⟨place, .call (.store name) arity children⟩ :: later)) :
    ∃ family index, (decode p.unit.code p.pos).instruction? = some (.indexed family index) ∧
      (family = .store ∨ family = .storeKeep) ∧ p.unit.constants[index]? = some (.word name) := by
  obtain ⟨-, body, stop, next, hd, hb, -⟩ := hp
  cases hb with
  | @cons _ i _ _ hn _ =>
    cases hd with
    | cons hi _ =>
      have hinstruction : (decode p.unit.code p.pos).instruction? = some i := by rw [hi]
      cases hn with
      | store h =>
        obtain ⟨c, hc, hsame⟩ := h
        obtain rfl := Value.eq_word_of_same hsame
        exact ⟨.store, _, hinstruction, .inl rfl, hc⟩
      | storeKeep _ h =>
        obtain ⟨c, hc, hsame⟩ := h
        obtain rfl := Value.eq_word_of_same hsame
        exact ⟨.storeKeep, _, hinstruction, .inr rfl, hc⟩

/-- The operand on top is stored. -/
theorem Awaits.stores (hp : p.Awaits (⟨place, .call (.store name) arity children⟩ :: later))
    (hs : p.machine.stack.head? = some v) : p.Stores name v := by
  obtain ⟨family, index, hi, hf, hc⟩ := hp.isStore
  exact ⟨⟨family, index, .word name, hi, hf, hc, rfl⟩, hs⟩

/-- Behind a store, the name is bound to the operand. -/
theorem Awaits.binds (hp : p.Awaits (⟨place, .call (.store name) arity children⟩ :: later))
    (hs : p.machine.stack.head? = some v) (h : p.next? = some q) :
    q.machine.world = p.machine.world.set name v := by
  obtain ⟨fuel, i, -, hi, hrun⟩ := hp.instruction h
  obtain ⟨family, index, hi', hf, hc⟩ := hp.isStore
  obtain rfl := Option.some.inj (hi.symm.trans hi')
  obtain ⟨stack, hstack⟩ := List.head?_eq_some_iff.1 hs
  have hm : p.machine = { p.machine with stack := v :: stack } := by rw [← hstack]
  rw [run_indexed hc, hm] at hrun
  obtain rfl | rfl := hf
  · exact congrArg (·.2.world) hrun.symm
  · exact congrArg (·.2.world) hrun.symm

end Place

/-! ## The run through a form -/

namespace FunctionForm

variable {form : FunctionForm} {w inner after : World} {rest : List Value}

/-- A run comes from the beginning of a unit to the binding of a form: at `r` the block of the parameters has
just been evaluated, at `q` the function is made, and at `p` it is stored. -/
structure StoredAt (form : FunctionForm) (name : String) (trees : List CallTree) (start r q p : Place) :
    Prop where
  way : ∃ ps ps' place, start.Passes ps r ∧ r.Passes ps' q ∧ q.next? = some p ∧
    ps'.length = sizeAll form.behind ∧
    (postorder trees)[ps.length + ps'.length + 1]? = some ⟨place, .call (.store name) 1 [form.tree]⟩

/-- The function is made of the operands of the form: what lies behind the parameters leaves a single operand
on top of them. So it does if it is a block or a variable, without more attributes. -/
def LeavesMain (form : FunctionForm) (r q : Place) : Prop :=
  (form.moreAttrs = [] ∧ ∃ l : Leaf, form.main = l.tree) ∨ q.machine.stack.tail = r.machine.stack

/-- The nodes around the binding of a form. -/
theorem exists_split {i : Nat}
    (h : (postorder trees)[i]? = some ⟨place, .call (.store name) 1 [form.tree]⟩) :
    ∃ before paramsPlace behind later,
      postorder trees = before ++ ⟨paramsPlace, .constant (.block form.params form.dynamic)⟩ ::
        (behind ++ ⟨0 :: place, form.tree⟩ :: ⟨place, .call (.store name) 1 [form.tree]⟩ :: later) ∧
      (∃ j, behind = postorderFrom (0 :: place) j form.behind) ∧
      i = before.length + behind.length + 2 := by
  obtain ⟨hi, hnode⟩ := List.getElem?_eq_some_iff.1 h
  have hsplit : postorder trees = (postorder trees).take i ++
      ⟨place, .call (.store name) 1 [form.tree]⟩ :: (postorder trees).drop (i + 1) := by
    rw [← hnode, List.getElem_cons_drop, List.take_append_drop]
  have hlength : ((postorder trees).take i).length = i := List.length_take_of_le (Nat.le_of_lt hi)
  obtain ⟨outer, houter⟩ := before_postorderFrom [] 0 trees hsplit
  have htree : postorderFrom place 0 [form.tree] =
      postorderFrom (0 :: place) 0
        (form.attrTrees ++ .constant (.block form.params form.dynamic) :: form.behind) ++
          [⟨0 :: place, form.tree⟩] := List.append_nil _
  have houter : (postorder trees).take i = outer ++ postorderFrom place 0 [form.tree] := houter
  rw [htree, postorderFrom_append] at houter
  rw [houter] at hlength hsplit
  generalize hlater : (postorder trees).drop (i + 1) = later at hsplit
  refine ⟨outer ++ postorderFrom (0 :: place) 0 form.attrTrees, (0 + form.attrTrees.length) :: 0 :: place,
    postorderFrom (0 :: place) (0 + form.attrTrees.length + 1) form.behind, later, ?_, ⟨_, rfl⟩, ?_⟩
  · rw [hsplit]
    simp only [postorderFrom, postorderAt, List.append_assoc, List.cons_append, List.nil_append]
  · rw [← hlength]
    simp only [postorderFrom, postorderAt, List.length_append, List.length_cons, List.length_nil]
    omega

/-- A leaf leaves a single operand. -/
theorem stack_leaf {l : Leaf} (hp : p.Awaits (⟨place, l.tree⟩ :: later)) (h : p.next? = some q) :
    ∃ c, q.machine.stack = c :: p.machine.stack := by
  cases l with
  | constant v hv =>
    obtain ⟨c, -, hc⟩ := Place.Awaits.stack_constant hp h
    exact ⟨c, hc⟩
  | load x => exact Place.Awaits.stack_load hp h

/-- What lies behind the parameters leaves a single operand. -/
theorem LeavesMain.stack_eq {i : Nat} (h : form.LeavesMain r q) (hpasses : r.Passes ps q)
    (hr : r.Awaits (postorderFrom place i form.behind ++ later)) (hlength : ps.length = sizeAll form.behind)
    (hne : r.machine.stack ≠ []) : ∃ main, q.machine.stack = main :: r.machine.stack := by
  obtain ⟨hnone, l, hl⟩ | htail := h
  · have hbehind : form.behind = [l.tree] := by rw [behind, hnone, hl, List.nil_append]
    have hnodes : postorderFrom place i [l.tree] = [⟨i :: place, l.tree⟩] := by cases l <;> rfl
    have hsize : sizeAll [l.tree] = 1 := by cases l <;> rfl
    rw [hbehind, hnodes] at hr
    rw [hbehind, hsize] at hlength
    obtain ⟨x, rfl⟩ := List.length_eq_one_iff.1 hlength
    cases hpasses with
    | next hn hrest =>
      cases hrest
      exact stack_leaf hr hn
  · cases hs : q.machine.stack with
    | nil =>
      rw [hs] at htail
      exact absurd htail.symm hne
    | cons main stack =>
      rw [hs] at htail
      exact ⟨main, congrArg _ htail⟩

/-- A function with a number of parameters is about to be bound, and then its name is called with that many
operands. -/
structure BindsFunction (p : Place) (name : String) (paramCount : Nat) : Prop where
  stores : ∃ ref, p.Stores name (.function ref) ∧ p.machine.world.heap.arity ref = paramCount
  bound {q : Place} (h : p.next? = some q) :
    ∃ ref, q.machine.world.get? name = some (.function ref) ∧ q.machine.world.heap.arity ref = paramCount ∧
      q.machine.world.arity? name = some paramCount

theorem bindsFunction_of_awaits {ref : FunctionRef} {k : Nat}
    (hp : p.Awaits (⟨place, .call (.store name) arity children⟩ :: later))
    (hs : p.machine.stack.head? = some (.function ref)) (hk : p.machine.world.heap.arity ref = k) :
    BindsFunction p name k where
  stores := ⟨ref, hp.stores hs, hk⟩
  bound h := by
    rw [hp.binds hs h]
    refine ⟨ref, (World.get?_set ..).trans (if_pos rfl), hk, ?_⟩
    have himplied : p.machine.world.impliedArity? (.function ref) = some k := congrArg some hk
    have hput : (p.machine.world.scope.arities.put name (some k)).get? name = some k :=
      NameTable.get?_put_self
    rw [World.arity?, World.set, Scope.assign, himplied]
    exact hput

/-- **The function that a form binds** has as many parameters as the block in the form. -/
theorem StoredAt.bindsFunction (h : form.StoredAt name trees start r q p)
    (hstart : start.Awaits (postorder trees)) (hmain : form.LeavesMain r q) :
    BindsFunction p name form.paramCount := by
  obtain ⟨ps, ps', place, hr, hq, hp, hlength, hnode⟩ := h.way
  obtain ⟨before, paramsPlace, behind, later, hsplit, ⟨j, hbehind⟩, hi⟩ := exists_split hnode
  have hbehindLength : behind.length = ps'.length := by rw [hbehind, length_postorderFrom, hlength]
  have hne : ps ≠ [] := by
    rintro rfl
    simp only [List.length_nil] at hi
    omega
  obtain ⟨ps, x, rfl⟩ := (List.eq_nil_or_concat ps).resolve_left hne
  rw [List.concat_eq_append] at hr hi
  rw [List.length_append, List.length_singleton] at hi
  obtain ⟨o, ho, hor⟩ := hr.split
  cases hor with
  | next hn hrest =>
    cases hrest
    have hparams := (ho.pending_of_length (hsplit ▸ hstart) (by omega)).2
    obtain ⟨c, hsame, hstack⟩ := hparams.stack_constant hn
    obtain ⟨_, _, hnodes, -, hr⟩ := hparams.next hn
    cases hnodes
    have hmade := (hq.pending_of_length hr hbehindLength).2
    have hne : r.machine.stack ≠ [] := by rw [hstack]; exact List.cons_ne_nil _ _
    obtain ⟨main, hoperands⟩ := hmain.stack_eq hq (hbehind ▸ hr) hlength hne
    rw [hstack] at hoperands
    obtain ⟨ref, names, hnames, hfunction, harity⟩ := hmade.makesFunction hoperands hp
    obtain ⟨_, _, hnodes, -, hstore⟩ := hmade.next hp
    cases hnodes
    refine bindsFunction_of_awaits hstore (by rw [hfunction]; rfl) ?_
    rw [harity, length_of_same hsame hnames, paramCount]

/-- **Declared arities are those of the functions.** A label in front of a form declares the number of its
parameters, is read as the binding of the function, and binds a function of that arity in every unit. -/
theorem declared_arity_eq (h : form.Reads (w.declare name (form.items ++ rest)) inner after rest) :
    (w.declare name (form.items ++ rest)).arity? name = some form.paramCount ∧
    w.ReadsAs (.label name :: form.items) rest [.call (.store name) 1 [form.tree]] after ∧
    ∀ {v v' : World} {items : List Value} {trees : List CallTree} {u : CodeUnit} {fuel : Nat} {m : Machine}
      {r q p : Place}, v.callTrees items = (.ok trees, v') → CodeUnit.ofCalls trees = .ok u →
      form.StoredAt name trees ⟨fuel, u, 0, m⟩ r q p → form.LeavesMain r q →
      BindsFunction p name form.paramCount := by
  refine ⟨h.arity?_declare w name, h.readsAs_binding, fun {_ _ _ _ _ fuel m _ _ _} ht hu hs hmain => ?_⟩
  have hformed := World.wellFormed_of_callTrees ht fun v _ => v.codesIn_true
  exact hs.bindsFunction (Place.awaits_postorder (faithful_of_ofCalls hformed hu) hformed fuel m) hmain

/-- `function .memoize .export: (reverse [a]) [b c] [b + c]`, read. -/
def withInline : FunctionForm where
  head := .word "function"
  attrs := [.attr "memoize", .attrLabel "export", .inline [.word "reverse", .block [.word "a"] false]]
  params := [.word "b", .word "c"]
  dynamic := false
  body := [.block [.word "b", .symbol .plus, .word "c"] false]
  attrTrees := [.call (.attr "memoize") 1 [.constant (.logical true)],
    .call (.attr "export") 1 [.call (.operation .reverse) 1 [.constant (.block [.word "a"] false)]]]
  moreAttrs := []
  main := .constant (.block [.word "b", .symbol .plus, .word "c"] false)

theorem reads_withInline :
    let w := (World.initial {}).declare "f" (withInline.items ++ [])
    withInline.Reads w w w [] := by
  intro w
  have hreverse : w.callHead "reverse" false = .operation .reverse := by
    have hop : w.opcodeOf? "reverse" = some .reverse := by decide +kernel
    unfold World.callHead
    simp only [hop]
  have hblock : w.ReadsAs [.block [.word "a"] false] [] ([] ++ [.constant (.block [.word "a"] false)]) w :=
    World.readsAs_constant rfl rfl
  have hcall := World.readsAs_call (f := ⟨"reverse", rfl⟩) (by decide +kernel) hblock rfl
  rw [hreverse] at hcall
  exact {
    isHead := .inl rfl
    arity := by decide +kernel
    opcode := by decide +kernel
    attrs := .flag _ (.valued _ (World.readsAs_inline hcall rfl) rfl (.nil ..))
    alone := rfl
    body := World.readsAs_constant rfl rfl
    moreAttrs := nofun
    main := rfl }

/-- A value that is a call, in parentheses: two parameters are declared, and the function has two. -/
theorem declared_arity_eq_inline :
    let w := World.initial {}
    let trees : List CallTree := [.call (.store "f") 1 [withInline.tree]]
    ∃ u r q p, (w.callTrees (.label "f" :: withInline.items)).1 = .ok trees ∧
      CodeUnit.ofCalls trees = .ok u ∧ withInline.StoredAt "f" trees ⟨100, u, 0, { world := w }⟩ r q p ∧
      BindsFunction p "f" 2 := by
  intro w trees
  have hway : ∃ u ∈ (CodeUnit.ofCalls trees).toOption,
      ∃ toParams ∈ Place.walk? ⟨100, u, 0, { world := w }⟩ 6, ∃ toMaking ∈ toParams.2.walk? 1,
        toMaking.2.next?.isSome := by
    decide +kernel
  obtain ⟨u, hu, ⟨ps, r⟩, hr, ⟨ps', q⟩, hq, hp⟩ := hway
  obtain ⟨p, hp⟩ := Option.isSome_iff_exists.1 hp
  have hu := ok_of_mem_toOption hu
  have hreads : withInline.Reads (w.declare "f" (withInline.items ++ [])) _ _ [] := reads_withInline
  obtain ⟨-, hread, hbinds⟩ := declared_arity_eq hreads
  have ht := hread.callTrees_eq
  have hlength := Place.length_of_walk? hr
  have hlength' := Place.length_of_walk? hq
  have hstored : withInline.StoredAt "f" trees ⟨100, u, 0, { world := w }⟩ r q p :=
    ⟨ps, ps', [0], Place.passes_of_walk? hr, Place.passes_of_walk? hq, hp, hlength',
      by rw [hlength, hlength']; rfl⟩
  exact ⟨u, r, q, p, congrArg Prod.fst ht, hu, hstored,
    hbinds ht hu hstored (.inl ⟨rfl, .constant _ rfl, rfl⟩)⟩

end FunctionForm

/-- The function that a value is. -/
def Value.functionRef? : Value → Option FunctionRef
  | .function ref => some ref
  | _ => none

theorem Value.eq_function_of_functionRef? {ref : FunctionRef} (h : v.functionRef? = some ref) :
    v = .function ref := by
  cases v <;> cases h
  rfl

/-- **The value of an attribute may be a call.** In `f: function .export: reverse [a] [b c] [b + c]`, the
declaration takes the operand of `reverse` for the parameters and declares one, and the function that is bound
has two. -/
theorem declared_arity_differs :
    let w := World.initial {}
    let items : List Value := [.label "f", .word "function", .attrLabel "export", .word "reverse",
      .block [.word "a"] false, .block [.word "b", .word "c"] false,
      .block [.word "b", .symbol .plus, .word "c"] false]
    let built := (w.callTrees items).2
    built.arity? "f" = some 1 ∧ ∃ trees u ps p ref, w.callTrees items = (.ok trees, built) ∧
      CodeUnit.ofCalls trees = .ok u ∧ Place.Passes ⟨100, u, 0, { world := built }⟩ ps p ∧
      p.Stores "f" (.function ref) ∧ p.machine.world.heap.arity ref = 2 := by
  intro w items built
  have hdeclared : built.arity? "f" = some 1 := by decide +kernel
  have hway : ∃ trees ∈ (w.callTrees items).1.toOption, ∃ u ∈ (CodeUnit.ofCalls trees).toOption,
      ∃ way ∈ Place.walk? ⟨100, u, 0, { world := built }⟩ 6,
        (∃ i < 8, (decode way.2.unit.code way.2.pos).instruction? = some (.indexed .store i) ∧
          ∃ c ∈ way.2.unit.constants[i]?, c.name? = some "f") ∧
        ∃ ref ∈ way.2.machine.stack.head?.bind Value.functionRef?,
          way.2.machine.world.heap.arity ref = 2 := by
    decide +kernel
  obtain ⟨trees, ht, u, hu, ⟨ps, p⟩, hr, ⟨i, -, hi, c, hc, hname⟩, ref, href, harity⟩ := hway
  obtain ⟨v, hv, href⟩ := Option.bind_eq_some_iff.1 href
  obtain rfl := Value.eq_function_of_functionRef? href
  exact ⟨hdeclared, trees, u, ps, p, ref, built_of_mem_toOption ht, ok_of_mem_toOption hu,
    Place.passes_of_walk? hr, ⟨⟨.store, i, c, hi, .inl rfl, hc, hname⟩, hv⟩, harity⟩

end BlockLang
