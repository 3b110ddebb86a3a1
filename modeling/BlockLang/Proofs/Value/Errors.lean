import BlockLang.Arith
import BlockLang.Value.Bits
import BlockLang.Value.Collection
import BlockLang.Value.Comparison
import BlockLang.Value.Convert

/-!
# Errors of operations on values

Operations that only look at values have no part in finding code invalid: whatever they fail with, it
is another error.
-/

namespace BlockLang

variable {α β : Type}

/-- The error that code is found invalid with. -/
def RuntimeError.isInvalidBytecode : RuntimeError → Bool
  | invalidBytecode _ => true
  | _ => false

/-- If this is a failure, then it does not find code invalid. -/
def SparesCode (r : Except RuntimeError α) : Prop :=
  ∀ e, r = .error e → e.isInvalidBytecode = false

namespace SparesCode

protected theorem ok {a : α} : SparesCode (.ok a) := nofun

protected theorem error {e : RuntimeError} (he : e.isInvalidBytecode = false) :
    SparesCode (.error e : Except RuntimeError α) := fun _ h => Except.error.inj h ▸ he

protected theorem bind {x : Except RuntimeError α} {f : α → Except RuntimeError β}
    (hx : SparesCode x) (hf : ∀ a, SparesCode (f a)) : SparesCode (x >>= f) := by
  cases x with
  | error e => exact .error (hx e rfl)
  | ok a => exact hf a

protected theorem map {x : Except RuntimeError α} (hx : SparesCode x) (f : α → β) :
    SparesCode (x.map f) := hx.bind fun _ => .ok

protected theorem mapM {f : α → Except RuntimeError β} (hf : ∀ a, SparesCode (f a)) (l : List α) :
    SparesCode (l.mapM f) := by
  induction l with
  | nil => exact .ok
  | cons a l ih =>
    rw [List.mapM_cons]
    exact (hf a).bind fun _ => ih.bind fun _ => .ok

end SparesCode

/-! ## Numbers and truth values -/

theorem Arith.sparesCode_onFloats (op : Arith) (x y : Binary64) : SparesCode (op.onFloats x y) := by
  unfold onFloats
  split
  · exact .error rfl
  · exact .ok

theorem Arith.sparesCode_onRationals (op : Arith) (x y : Rational) :
    SparesCode (op.onRationals x y) := by
  cases op with
  | add | sub | mul =>
    unfold onRationals
    dsimp only
    split
    · exact .ok
    · exact .error rfl
  | div =>
    unfold onRationals
    dsimp only
    split
    · exact .error rfl
    · split
      · exact .ok
      · exact .error rfl
  | fdiv | mod | pow => exact sparesCode_onFloats _ _ _

theorem Arith.sparesCode_apply (op : Arith) (a b : Value) : SparesCode (op.apply a b) := by
  unfold apply
  split
  · exact .error rfl
  · split
    · split
      · exact .ok
      · exact .error rfl
    · exact sparesCode_onRationals _ _ _
    · exact sparesCode_onRationals _ _ _
    · exact sparesCode_onRationals _ _ _
    · split
      · exact sparesCode_onFloats _ _ _
      · exact .error rfl
      · exact .error rfl

theorem sparesCode_negate (v : Value) : SparesCode (negate v) := by
  unfold negate
  split
  · split
    · exact .ok
    · exact .error rfl
  · exact .ok
  · split
    · exact .ok
    · exact .error rfl
  · exact .error rfl

namespace Value

theorem sparesCode_expectInteger (operation : String) (v : Value) :
    SparesCode (v.expectInteger operation) := by
  cases v with
  | integer => exact .ok
  | _ => exact .error rfl

theorem sparesCode_expectLogical (operation : String) (v : Value) :
    SparesCode (v.expectLogical operation) := by
  cases v with
  | logical => exact .ok
  | _ => exact .error rfl

end Value

theorem BitOperation.sparesCode_apply (op : BitOperation) (a b : Value) :
    SparesCode (op.apply a b) := by
  refine (a.sparesCode_expectInteger _).bind fun x => (b.sparesCode_expectInteger _).bind fun y => ?_
  split
  · exact .ok
  · exact .error rfl

theorem Comparison.sparesCode_apply (c : Comparison) (a b : Value) : SparesCode (c.apply a b) := by
  unfold apply
  split
  · exact .ok
  · exact .error rfl

namespace Value

theorem sparesCode_complement (v : Value) : SparesCode v.complement :=
  (v.sparesCode_expectInteger _).bind fun _ => .ok

theorem sparesCode_opposite (v : Value) : SparesCode v.opposite :=
  (v.sparesCode_expectLogical _).bind fun _ => .ok

theorem sparesCode_combine (operation : String) (f : Bool → Bool → Bool) (a b : Value) :
    SparesCode (combine operation f a b) :=
  (a.sparesCode_expectLogical _).bind fun _ => (b.sparesCode_expectLogical _).bind fun _ => .ok

/-! ## Conversions -/

theorem sparesCode_spelled {read? : List Char → Option α} {type text : String} :
    SparesCode (spelled read? type text) := by
  unfold spelled
  split
  · exact .ok
  · exact .error rfl

theorem sparesCode_toInteger (v : Value) : SparesCode v.toInteger := by
  unfold toInteger
  dsimp only
  split
  · exact .ok
  · split
    · exact .ok
    · exact .error rfl
  · exact .ok
  · exact .ok
  · exact sparesCode_spelled.map _
  · exact .error rfl

theorem sparesCode_toFloating (v : Value) : SparesCode v.toFloating := by
  unfold toFloating
  split
  · exact sparesCode_spelled.map _
  · split
    · exact .ok
    · exact .error rfl

theorem sparesCode_toLogical (v : Value) : SparesCode v.toLogical := by
  unfold toLogical
  split
  · exact .ok
  · exact .ok
  · exact .ok
  · exact .ok
  · exact .error rfl

theorem sparesCode_typeName (v : Value) : SparesCode v.typeName := by
  unfold typeName
  split
  · exact .ok
  · split
    · exact .ok
    · exact .error rfl

/-! ## Collections -/

theorem sparesCode_keyName (operation : String) (v : Value) : SparesCode (v.keyName operation) := by
  unfold keyName
  split
  · exact .ok
  · exact .ok
  · split
    · exact .ok
    · exact .error rfl

theorem sparesCode_itemAt (items : List Value) (index : Int64) : SparesCode (itemAt items index) := by
  unfold itemAt
  dsimp only
  split
  · exact .error rfl
  · split
    · exact .ok
    · exact .error rfl

theorem sparesCode_entry (entries : NameTable Value) (key : String) :
    SparesCode (entry entries key) := by
  unfold entry
  split
  · exact .ok
  · exact .error rfl

theorem sparesCode_part (heap : Heap) (collection key : Value) :
    SparesCode (part heap collection key) := by
  unfold part
  split
  · exact sparesCode_itemAt _ _
  · exact sparesCode_itemAt _ _
  · exact (sparesCode_keyName _ _).bind fun _ => sparesCode_entry _ _
  · exact .error rfl

theorem sparesCode_itemCount (heap : Heap) (v : Value) : SparesCode (itemCount heap v) := by
  unfold itemCount
  split
  · exact .ok
  · exact .ok
  · exact .ok
  · exact .error rfl

theorem sparesCode_reversed (v : Value) : SparesCode v.reversed := by
  unfold reversed
  split
  · exact .ok
  · exact .ok
  · exact .error rfl

theorem sparesCode_splitUp (v : Value) : SparesCode v.splitUp := by
  unfold splitUp
  split
  · exact .ok
  · exact .error rfl

theorem sparesCode_range (a b : Value) : SparesCode (range a b) :=
  (a.sparesCode_expectInteger _).bind fun _ => (b.sparesCode_expectInteger _).bind fun _ => .ok

theorem sparesCode_elements (heap : Heap) (operation : String) (v : Value) :
    SparesCode (elements heap operation v) := by
  unfold elements
  split
  · exact .ok
  · exact .ok
  · exact .ok
  · exact .ok
  · exact .error rfl

theorem sparesCode_parameterNames (operation : String) (v : Value) :
    SparesCode (v.parameterNames operation) := by
  have hname (v : Value) : SparesCode (v.parameterName operation) := by
    unfold parameterName
    split
    · exact .ok
    · exact .ok
    · exact .error rfl
  unfold parameterNames
  split
  · exact .mapM hname _
  · exact .ok
  · exact .ok
  · exact .ok
  · exact .error rfl

end Value

end BlockLang
