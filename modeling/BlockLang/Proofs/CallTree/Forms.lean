import BlockLang.Proofs.CallTree.Repeating
import BlockLang.Proofs.CallTree.Writing

/-!
# Function forms behind a label

A label in front of a function form declares the arity of its name before the form is read. The declaration
looks for the block of the parameters by skipping one item for a flag and two for an attribute with a value;
reading finds the operands of the form by arities, and the value of an attribute may be a call that takes
more items.

**Theorem (`FunctionForm.Reads.readsAs_binding`).** Where the value of every attribute is one item, and nothing
takes the block of the parameters away, the two agree: the label and the form are read as the binding of a call
whose first operand is the block that is counted (`FunctionForm.Reads.declaredArity?_eq`).

What some items are read as is said for every draft that they are added to (`World.ReadsAs`), so that it can
be put together item by item. The trees of the items then fill the innermost frame
(`foldl_put_enter_concat`).
-/

namespace BlockLang

open CallTree

namespace World

variable {w w₁ w' : World} {item v : Value} {items items' attrs rest : List Value} {t : CallTree}
  {trees trees' : List CallTree} {name : String}

/-! ## What items are read as -/

/-- With `rest` behind them, the items are read as the trees, whatever draft they are added to, and leave the
world `w'`. -/
def ReadsAs (w : World) (items rest : List Value) (trees : List CallTree) (w' : World) : Prop :=
  ∀ d used, (addItems false d 0 used (items ++ rest)).run.run w =
    (addItems false (trees.foldl Draft.put d) 0 (used + items.length) rest).run.run w'

theorem readsAs_nil (w : World) (rest : List Value) : w.ReadsAs [] rest [] w := fun _ _ => rfl

theorem ReadsAs.append (h : w.ReadsAs items (items' ++ rest) trees w₁)
    (h' : w₁.ReadsAs items' rest trees' w') : w.ReadsAs (items ++ items') rest (trees ++ trees') w' := by
  intro d used
  rw [List.append_assoc, h, h', List.foldl_append, List.length_append, Nat.add_assoc]

/-- An item that is a tree. -/
theorem readsAs_item (hi : ∀ items, item ≠ .inline items) (ha : item ≠ .symbol .arrow)
    (h : ∀ d, (placeItem d item rest).run.run w = (.ok (d.put t, 0), w')) : w.ReadsAs [item] rest [t] w' :=
  fun d used => run_addItems_cons used hi ha (h d)

/-- A tree behind which no operator stands is added as it is. -/
theorem attach_eq_put (hq : w.operator? rest = none) (d : Draft) (t : CallTree) :
    w.attach d t rest = (d.put t, 0) := by
  rw [attach, hq]

theorem readsAs_constant (hv : v.isLeaf) (hq : w.operator? rest = none) :
    w.ReadsAs [v] rest [.constant v] w := by
  refine readsAs_item ?_ ?_ fun d => ?_
  · rintro items rfl
    cases hv
  · rintro rfl
    cases hv
  · rw [← attach_eq_put hq]
    cases v <;> first | rfl | cases hv

theorem readsAs_flag (w : World) (name : String) (rest : List Value) :
    w.ReadsAs [.attr name] rest [call (.attr name) 1 [.constant (.logical true)]] w :=
  readsAs_item (by simp) (by simp) fun _ => rfl

/-- Items that nothing follows are read to their end. -/
theorem ReadsAs.run_addItems (h : w.ReadsAs items [] trees w') :
    (addItems false {} 0 0 items).run.run w = (.ok ({ done := trees.reverse }, items.length), w') := by
  have hrun := h {} 0
  rw [List.append_nil, foldl_put_settled, List.append_nil, Nat.zero_add] at hrun
  exact hrun

theorem ReadsAs.callTrees_eq (h : w.ReadsAs items [] trees w') : w.callTrees items = (.ok trees, w') := by
  rw [World.callTrees_eq, h.run_addItems]
  exact congrArg (fun l => (Except.ok l, w')) (List.reverse_reverse trees)

/-- An inline that stands for one tree. -/
theorem readsAs_inline (h : w.ReadsAs items [] [t] w') (hq : w'.operator? rest = none) :
    w.ReadsAs [.inline items] rest [t] w' := by
  intro d used
  have htrees : (inlineTrees (.inline items)).run.run w = (.ok [t], w') := by
    rw [inlineTrees, run_bind_of_ok h.run_addItems]
    rfl
  have hsplice : w'.splice d [t] rest = (d.put t, 0) := attach_eq_put hq d t
  rw [List.singleton_append, addItems, run_bind_of_ok htrees, run_get_bind, hsplice]
  rfl

/-! ## Calls -/

/-- An item that begins a call, and what it gets for its operands. -/
theorem readsAs_begin (item : Value) (head : Head) {arity : Nat} {last : CallTree}
    (hi : ∀ items, item ≠ .inline items) (ha : item ≠ .symbol .arrow)
    (hplace : ∀ d, (placeItem d item (items ++ rest)).run.run w = (.ok (d.begin head arity, 0), w₁))
    (h : w₁.ReadsAs items rest (trees ++ [last]) w') (hlast : last.isAttr = false)
    (hn : (operands trees).length + 1 = arity) :
    w.ReadsAs (item :: items) rest [(call head arity (trees ++ [last])).simplify] w' := by
  intro d used
  have hcount : (Frame.operandCount { head, arity }) + (operands trees).length + 1 = arity := by
    rw [← hn]
    exact congrArg (· + 1) (Nat.zero_add _)
  have hfill := foldl_put_enter_concat d trees hlast { head, arity } hcount
  rw [List.cons_append, run_addItems_cons used hi ha (hplace d), h, Draft.begin, hfill, List.length_cons,
    Nat.add_assoc used, Nat.add_comm 1]
  rfl

/-- An item that begins a call of one operand. -/
theorem readsAs_begin_one (item : Value) (head : Head) (hi : ∀ items, item ≠ .inline items)
    (ha : item ≠ .symbol .arrow)
    (hplace : ∀ d, (placeItem d item (items ++ rest)).run.run w = (.ok (d.begin head 1, 0), w₁))
    (h : w₁.ReadsAs items rest [t] w') (ht : t.isAttr = false) :
    w.ReadsAs (item :: items) rest [(call head 1 [t]).simplify] w' := by
  have h : w₁.ReadsAs items rest ([] ++ [t]) w' := h
  exact readsAs_begin item head hi ha hplace h ht rfl

theorem readsAs_valued (name : String) (hv : w.ReadsAs [v] rest [t] w') (ht : t.isAttr = false) :
    w.ReadsAs [.attrLabel name, v] rest [call (.attr name) 1 [t]] w' :=
  readsAs_begin_one (.attrLabel name) (.attr name) (by simp) (by simp) (fun _ => rfl) hv ht

theorem readsAs_label (name : String) (h : (declare w name (items ++ rest)).ReadsAs items rest [t] w')
    (ht : t.isAttr = false) : w.ReadsAs (.label name :: items) rest [call (.store name) 1 [t]] w' :=
  readsAs_begin_one (.label name) (.store name) (by simp) (by simp) (fun _ => rfl) h ht

theorem readsAs_call {f : PlainWord} {last : CallTree}
    (harity : w.arity? f.name = some ((operands trees).length + 1))
    (h : w.ReadsAs items rest (trees ++ [last]) w') (hlast : last.isAttr = false) :
    w.ReadsAs (.word f.name :: items) rest
      [(call (w.callHead f.name false) ((operands trees).length + 1) (trees ++ [last])).simplify] w' :=
  readsAs_begin (.word f.name) _ (by simp) (by simp)
    (fun d => run_placeItem_call harity (Nat.succ_ne_zero _) d _) h hlast rfl

/-! ## Attributes -/

/-- Attributes whose values, where they have one, are a single item that is read as a single operand. -/
inductive AttrsReadAs : World → List Value → List Value → List CallTree → World → Prop
  | nil (w : World) (rest : List Value) : AttrsReadAs w [] rest [] w
  | flag {w w' : World} {attrs rest : List Value} {trees : List CallTree} (name : String)
    (h : AttrsReadAs w attrs rest trees w') :
    AttrsReadAs w (.attr name :: attrs) rest
      (call (.attr name) 1 [.constant (.logical true)] :: trees) w'
  | valued {w w₁ w' : World} {v : Value} {t : CallTree} {attrs rest : List Value} {trees : List CallTree}
    (name : String) (hv : w.ReadsAs [v] (attrs ++ rest) [t] w₁) (ht : t.isAttr = false)
    (h : AttrsReadAs w₁ attrs rest trees w') :
    AttrsReadAs w (.attrLabel name :: v :: attrs) rest (call (.attr name) 1 [t] :: trees) w'

theorem AttrsReadAs.readsAs (h : AttrsReadAs w attrs rest trees w') : w.ReadsAs attrs rest trees w' := by
  induction h with
  | nil w rest => exact readsAs_nil w rest
  | flag name _ ih => exact (readsAs_flag _ name _).append ih
  | valued name hv ht _ ih => exact (readsAs_valued name hv ht).append ih

theorem AttrsReadAs.isAttr (h : AttrsReadAs w attrs rest trees w') : ∀ t ∈ trees, t.isAttr := by
  induction h with
  | nil => exact nofun
  | flag _ _ ih => exact List.forall_mem_cons.2 ⟨rfl, ih⟩
  | valued _ _ _ _ ih => exact List.forall_mem_cons.2 ⟨rfl, ih⟩

/-- The declaration skips the attributes, whatever comes behind them. -/
theorem AttrsReadAs.parameterCount?_append (h : AttrsReadAs w attrs rest trees w') (l : List Value) :
    parameterCount? (attrs ++ l) = parameterCount? l := by
  induction h with
  | nil => rfl
  | flag _ _ ih => exact ih
  | valued _ _ _ _ ih => exact ih

end World

/-! ## Forms -/

/-- A function form as it is written, with the trees that its attributes and its body are read as. -/
structure FunctionForm where
  /-- The word, or the symbol that stands for it. -/
  head : Value
  attrs : List Value
  params : List Value
  dynamic : Bool
  /-- All items behind the parameters: the body, and attributes in front of it. -/
  body : List Value
  attrTrees : List CallTree
  moreAttrs : List CallTree
  main : CallTree

namespace FunctionForm

variable (form : FunctionForm)

def items : List Value := form.head :: form.attrs ++ .block form.params form.dynamic :: form.body

/-- The number of parameters that the block of the parameters has. -/
def paramCount : Nat := form.params.countP World.isParameter

/-- The operands behind the parameters, with the attributes among them. -/
def behind : List CallTree := form.moreAttrs ++ [form.main]

/-- The call that makes the function. -/
def tree : CallTree :=
  .call (.operation .function) 2
    (form.attrTrees ++ .constant (.block form.params form.dynamic) :: form.behind)

/-- With `rest` behind it, the form is read as it is written: `function` has its arity and its opcode, the
value of every attribute is one item, nothing takes the block of the parameters away, and the body is read
as one operand. -/
structure Reads (w inner after : World) (rest : List Value) : Prop where
  isHead : form.head = .word "function" ∨ form.head = .symbol .dollar
  arity : w.arity? "function" = some 2
  opcode : w.opcodeOf? "function" = some .function
  attrs : w.AttrsReadAs form.attrs (.block form.params form.dynamic :: (form.body ++ rest)) form.attrTrees inner
  alone : inner.operator? (form.body ++ rest) = none
  body : inner.ReadsAs form.body rest form.behind after
  moreAttrs : ∀ t ∈ form.moreAttrs, t.isAttr
  main : form.main.isAttr = false

variable {form} {w inner after : World} {rest : List Value} {name : String}

theorem operands_eq_nil {l : List CallTree} (h : ∀ t ∈ l, t.isAttr) : operands l = [] :=
  List.filter_eq_nil_iff.2 fun t ht => by rw [h t ht]; decide

/-- Making a function is not simplified. -/
theorem simplify_function (arity : Nat) (children : List CallTree) :
    (call (.operation .function) arity children).simplify =
      call (.operation .function) arity children := by
  unfold simplify
  dsimp only
  split
  · next hop _ => cases hop
  · rfl
  · rfl

/-- Both heads begin the same call. -/
theorem Reads.run_placeItem (h : form.Reads w inner after rest) (d : Draft) (l : List Value) :
    (World.placeItem d form.head l).run.run w = (.ok (d.begin (.operation .function) 2, 0), w) := by
  have hcallee (eager : Bool) : w.callHead "function" eager = .operation .function := by
    unfold World.callHead
    simp only [h.opcode]
  obtain hhead | hhead := h.isHead
  · have hplace : w.placeWord d "function" l = (d.begin (.operation .function) 2, 0) := by
      simp [World.placeWord, World.constantWord?, h.arity, World.beginCall, hcallee]
    rw [hhead]
    exact congrArg (fun r => (Except.ok r, w)) hplace
  · have hplace : w.placeSymbol d .dollar l = (d.begin (.operation .function) 2, 0) := by
      simp [World.placeSymbol, Symbol.alias?, h.arity, World.beginCall, hcallee]
    rw [hhead]
    exact congrArg (fun r => (Except.ok r, w)) hplace

/-- **A form is read as the call that makes the function**, with the block of the parameters as its first
operand. -/
theorem Reads.readsAs_tree (h : form.Reads w inner after rest) :
    w.ReadsAs form.items rest [form.tree] after := by
  have hparams : inner.ReadsAs [.block form.params form.dynamic] (form.body ++ rest)
      [.constant (.block form.params form.dynamic)] inner := World.readsAs_constant rfl h.alone
  have hattrs : w.ReadsAs form.attrs (([.block form.params form.dynamic] ++ form.body) ++ rest)
      form.attrTrees inner := h.attrs.readsAs
  have hall := hattrs.append (hparams.append h.body)
  have hoperands : operands (form.attrTrees ++ .constant (.block form.params form.dynamic) :: form.moreAttrs) =
      [.constant (.block form.params form.dynamic)] := by
    rw [operands_append, operands_eq_nil h.attrs.isAttr, operands_cons, operands_eq_nil h.moreAttrs]
    rfl
  have hsplit : form.attrTrees ++ ([.constant (.block form.params form.dynamic)] ++ form.behind) =
      (form.attrTrees ++ .constant (.block form.params form.dynamic) :: form.moreAttrs) ++ [form.main] := by
    simp [behind]
  rw [hsplit] at hall
  have hitem : (∀ items, form.head ≠ .inline items) ∧ form.head ≠ .symbol .arrow := by
    obtain hhead | hhead := h.isHead <;> rw [hhead] <;> simp
  have hread := World.readsAs_begin form.head (.operation .function) hitem.1 hitem.2
    (fun d => h.run_placeItem d _) hall h.main (congrArg (·.length + 1) hoperands)
  rw [simplify_function, ← hsplit] at hread
  exact hread

/-- **The declaration counts the parameters of that block.** -/
theorem Reads.declaredArity?_eq (h : form.Reads w inner after rest) :
    World.declaredArity? (form.items ++ rest) = some form.paramCount := by
  have hcount : World.parameterCount? (form.attrs ++ .block form.params form.dynamic :: (form.body ++ rest)) =
      some form.paramCount := h.attrs.parameterCount?_append _
  have hitems : form.items ++ rest =
      form.head :: (form.attrs ++ .block form.params form.dynamic :: (form.body ++ rest)) := by
    simp [items]
  rw [hitems, ← hcount]
  obtain hhead | hhead := h.isHead <;> rw [hhead, World.declaredArity?]

/-- A label in front of the form lets its name be called with that many operands. -/
theorem Reads.arity?_declare (h : form.Reads w inner after rest) (v : World) (name : String) :
    (v.declare name (form.items ++ rest)).arity? name = some form.paramCount := by
  rw [World.declare, h.declaredArity?_eq]
  exact NameTable.get?_insert_self

/-- The label and the form are read as the binding of the function. -/
theorem Reads.readsAs_binding (h : form.Reads (w.declare name (form.items ++ rest)) inner after rest) :
    w.ReadsAs (.label name :: form.items) rest [.call (.store name) 1 [form.tree]] after :=
  World.readsAs_label name h.readsAs_tree rfl

end FunctionForm

end BlockLang
