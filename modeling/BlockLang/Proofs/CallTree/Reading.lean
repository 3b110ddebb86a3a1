import BlockLang.CallTree.Build

/-!
# What building reads of a world

The builder of call trees looks at bindings, arities, the entries of dictionaries, and which callable
a function is. It never looks at code, so worlds that differ only there are `Alike` to it: every
function of the builder gives the same answer in both.
-/

namespace BlockLang

/-- A callable without the code that its body was compiled to. -/
def Callable.bare : Callable → Callable
  | .builtin b => .builtin b
  | .user f _ => .user f none

@[simp] theorem Callable.arity_bare (c : Callable) : c.bare.arity = c.arity := by cases c <;> rfl

@[simp] theorem Callable.description_bare (c : Callable) : c.bare.description = c.description := by
  cases c <;> rfl

/-- What building can tell of a callable. -/
def Callable.shape : Callable → Builtin ⊕ Nat
  | .builtin b => .inl b
  | .user f _ => .inr f.params.length

theorem Callable.shape_bare (c : Callable) : c.bare.shape = c.shape := by cases c <;> rfl

/-- Building reads the same of both heaps. -/
structure Heap.SameShape (h h' : Heap) : Prop where
  dictionaries : h.dictionaries = h'.dictionaries
  shapes : h.callables.map Callable.shape = h'.callables.map Callable.shape

namespace Heap.SameShape

variable {h h' : Heap}

protected theorem refl (h : Heap) : h.SameShape h := ⟨rfl, rfl⟩

theorem dictionary (hh : h.SameShape h') (ref : DictionaryRef) :
    h.dictionary ref = h'.dictionary ref := by
  rw [Heap.dictionary, Heap.dictionary, hh.dictionaries]

theorem callable? (hh : h.SameShape h') (ref : FunctionRef) :
    (h.callable? ref).map Callable.shape = (h'.callable? ref).map Callable.shape := by
  have := congrArg (·[ref.index]?) hh.shapes
  simp only [Array.getElem?_map] at this
  exact this

theorem arity (hh : h.SameShape h') (ref : FunctionRef) : h.arity ref = h'.arity ref := by
  have hc := hh.callable? ref
  unfold Heap.arity
  revert hc
  rcases h.callable? ref with _ | (_ | _) <;> rcases h'.callable? ref with _ | (_ | _) <;>
    simp +contextual [Callable.shape, Callable.arity]

theorem builtin? (hh : h.SameShape h') (ref : FunctionRef) :
    (h.callable? ref).map Callable.builtin? = (h'.callable? ref).map Callable.builtin? := by
  have hc := hh.callable? ref
  revert hc
  rcases h.callable? ref with _ | (_ | _) <;> rcases h'.callable? ref with _ | (_ | _) <;>
    simp +contextual [Callable.shape, Callable.builtin?]

theorem displayWithin (hh : h.SameShape h') (depth : Nat) (nested : Bool) (v : Value) :
    v.displayWithin h depth nested = v.displayWithin h' depth nested := by
  induction depth generalizing nested v with
  | zero => rfl
  | succ depth ih =>
    have hf : Value.displayWithin h depth true = Value.displayWithin h' depth true :=
      funext fun v => ih true v
    cases v with
    | function ref =>
      have hc := hh.callable? ref
      simp only [Value.displayWithin]
      revert hc
      rcases h.callable? ref with _ | (_ | _) <;> rcases h'.callable? ref with _ | (_ | _) <;>
        simp +contextual [Callable.shape, Callable.arity]
    | _ => simp only [Value.displayWithin, hf, hh.dictionary]

end Heap.SameShape

/-- The same dictionaries and callables, compiled code aside. -/
structure Heap.Alike (h h' : Heap) : Prop where
  dictionaries : h.dictionaries = h'.dictionaries
  callables : h.callables.map Callable.bare = h'.callables.map Callable.bare

namespace Heap.Alike

variable {h h' : Heap}

protected theorem refl (h : Heap) : h.Alike h := ⟨rfl, rfl⟩

theorem dictionary (hh : h.Alike h') (ref : DictionaryRef) :
    h.dictionary ref = h'.dictionary ref := by
  rw [Heap.dictionary, Heap.dictionary, hh.dictionaries]

theorem bare (hh : h.Alike h') (ref : FunctionRef) :
    (h.callable? ref).map Callable.bare = (h'.callable? ref).map Callable.bare := by
  have := congrArg (·[ref.index]?) hh.callables
  simp only [Array.getElem?_map] at this
  exact this

theorem sameShape (hh : h.Alike h') : h.SameShape h' := by
  refine ⟨hh.dictionaries, ?_⟩
  have hshape : Callable.shape ∘ Callable.bare = Callable.shape := funext Callable.shape_bare
  simpa only [Array.map_map, hshape] using congrArg (Array.map Callable.shape) hh.callables

theorem arity (hh : h.Alike h') (ref : FunctionRef) : h.arity ref = h'.arity ref :=
  hh.sameShape.arity ref

theorem display? (hh : h.Alike h') (depth : Nat) (nested : Bool) (v : Value) :
    v.displayWithin h depth nested = v.displayWithin h' depth nested :=
  hh.sameShape.displayWithin depth nested v

end Heap.Alike

/-- Building reads the same of both worlds, the arities of names aside. -/
structure World.SameReading (w w' : World) : Prop where
  bindings : w.scope.bindings = w'.scope.bindings
  heap : w.heap.SameShape w'.heap

namespace World.SameReading

open CallTree

variable {w w' : World}

theorem get? (h : w.SameReading w') (name : String) : w.get? name = w'.get? name := by
  rw [World.get?, World.get?, h.bindings]

theorem opcodeOf? (h : w.SameReading w') (name : String) :
    w.opcodeOf? name = w'.opcodeOf? name := by
  have hb (v : Value) :
      (w.callable? v).map Callable.builtin? = (w'.callable? v).map Callable.builtin? := by
    cases v with
    | function ref => exact h.heap.builtin? ref
    | _ => rfl
  unfold World.opcodeOf?
  rw [h.get? name]
  cases Builtin.ofName? name with
  | none => rfl
  | some b =>
    cases w'.get? name with
    | none => rfl
    | some v =>
      have := hb v
      simp only [Option.bind_eq_bind, Option.bind_some]
      cases hc : w.callable? v <;> cases hc' : w'.callable? v <;> simp_all

theorem callHead (h : w.SameReading w') : w.callHead = w'.callHead := by
  funext name eager
  simp only [World.callHead, h.opcodeOf?, h.get?]

theorem pathFunction? (h : w.SameReading w') : w.pathFunction? = w'.pathFunction? := by
  funext segments
  simp only [World.pathFunction?, h.get?, h.heap.dictionary]

theorem check (h : w.SameReading w') (d : Draft) : d.check w.heap = d.check w'.heap := by
  have ht (head : Head) : head.text w.heap = head.text w'.heap := by
    cases head with
    | other target => simp only [Head.text, Value.display?, h.heap.displayWithin]
    | _ => rfl
  simp only [Draft.check, Frame.missing, ht]

end World.SameReading

/-- Worlds that building cannot tell apart. -/
structure World.Alike (w w' : World) : Prop where
  bindings : w.scope.bindings = w'.scope.bindings
  arity? : ∀ name, w.arity? name = w'.arity? name
  heap : w.heap.Alike w'.heap

namespace World.Alike

open CallTree

variable {w w' : World}

protected theorem refl (w : World) : w.Alike w := ⟨rfl, fun _ => rfl, .refl _⟩

theorem sameReading (h : w.Alike w') : w.SameReading w' := ⟨h.bindings, h.heap.sameShape⟩

theorem get? (h : w.Alike w') (name : String) : w.get? name = w'.get? name := h.sameReading.get? name

theorem callHead (h : w.Alike w') : w.callHead = w'.callHead := h.sameReading.callHead

theorem operator? (h : w.Alike w') : w.operator? = w'.operator? := by
  funext rest
  simp only [World.operator?, h.callHead, h.arity?]

theorem attach (h : w.Alike w') : w.attach = w'.attach := by
  funext d t rest
  simp only [World.attach, h.operator?]

theorem attachConstant (h : w.Alike w') : w.attachConstant = w'.attachConstant := by
  funext d v rest
  simp only [World.attachConstant, h.attach]

theorem beginCall (h : w.Alike w') : w.beginCall = w'.beginCall := by
  funext d head arity rest
  simp only [World.beginCall, h.attach]

theorem placeWord (h : w.Alike w') : w.placeWord = w'.placeWord := by
  funext d name rest
  simp only [World.placeWord, h.attachConstant, h.attach, h.beginCall, h.callHead, h.arity?]

theorem placePath (h : w.Alike w') : w.placePath = w'.placePath := by
  funext d segments rest
  simp only [World.placePath, h.sameReading.pathFunction?, h.attach, h.beginCall, h.heap.arity]

theorem placeholderForm? (h : w.Alike w') : w.placeholderForm? = w'.placeholderForm? := by
  funext rest
  simp only [World.placeholderForm?, h.arity?]

theorem pipe? (h : w.Alike w') : w.pipe? = w'.pipe? := by
  funext d rest
  simp only [World.pipe?, h.arity?, h.callHead]

theorem placeSymbol (h : w.Alike w') : w.placeSymbol = w'.placeSymbol := by
  funext d s rest
  simp only [World.placeSymbol, h.attachConstant, h.beginCall, h.arity?, h.callHead]

theorem splice (h : w.Alike w') : w.splice = w'.splice := by
  funext d trees rest
  simp only [World.splice, h.attach]

theorem check (h : w.Alike w') (d : Draft) : d.check w.heap = d.check w'.heap := h.sameReading.check d

end World.Alike

end BlockLang
