import BlockLang.Arith
import BlockLang.Reading
import BlockLang.Value.Bits
import BlockLang.Value.Collection
import BlockLang.Value.Comparison
import BlockLang.Value.Convert

/-!
# What values refer to

Values reach compiled code only through `Value.bytecode` and functions only through `Value.function`, on
their own or inside blocks, inlines and paths. `Value.RefersIn A B` says that all references to code in a
value lie in `A`, and all references to functions in `B`. The operations of the language hand such
references on and never make new ones, and source text holds none.
-/

namespace BlockLang.Value

mutual

/-- All code that the value refers to lies in `A`, and all functions in `B`. -/
def RefersIn (A : CodeRef → Prop) (B : FunctionRef → Prop) : Value → Prop
  | path items | pathLabel items | block items _ | inline items => AllReferIn A B items
  | bytecode ref => A ref
  | function ref => B ref
  | _ => True

/-- All code that the values refer to lies in `A`, and all functions in `B`. -/
def AllReferIn (A : CodeRef → Prop) (B : FunctionRef → Prop) : List Value → Prop
  | [] => True
  | v :: l => RefersIn A B v ∧ AllReferIn A B l

end

/-- All code that the value refers to lies in `A`. -/
abbrev CodesIn (A : CodeRef → Prop) (v : Value) : Prop := RefersIn A (fun _ => True) v

/-- All functions that the value refers to lie in `B`. -/
abbrev FunctionsIn (B : FunctionRef → Prop) (v : Value) : Prop := RefersIn (fun _ => True) B v

variable {A A' : CodeRef → Prop} {B B' : FunctionRef → Prop}

theorem allReferIn_iff {l : List Value} : AllReferIn A B l ↔ ∀ v ∈ l, RefersIn A B v := by
  induction l with
  | nil => simp [AllReferIn]
  | cons v l ih => simp [AllReferIn, ih]

section

variable {items : List Value} {dynamic b : Bool} {n : Int64} {x : Binary64} {q : Rational}
  {s : String} {sym : Symbol} {line : Nat}

@[simp] theorem refersIn_null : RefersIn A B null := trivial
@[simp] theorem refersIn_logical : RefersIn A B (logical b) := trivial
@[simp] theorem refersIn_integer : RefersIn A B (integer n) := trivial
@[simp] theorem refersIn_floating : RefersIn A B (floating x) := trivial
@[simp] theorem refersIn_rational : RefersIn A B (rational q) := trivial
@[simp] theorem refersIn_string : RefersIn A B (string s) := trivial
@[simp] theorem refersIn_word : RefersIn A B (word s) := trivial
@[simp] theorem refersIn_literal : RefersIn A B (literal s) := trivial
@[simp] theorem refersIn_label : RefersIn A B (label s) := trivial
@[simp] theorem refersIn_attr : RefersIn A B (attr s) := trivial
@[simp] theorem refersIn_attrLabel : RefersIn A B (attrLabel s) := trivial
@[simp] theorem refersIn_symbol : RefersIn A B (symbol sym) := trivial
@[simp] theorem refersIn_newline : RefersIn A B (newline line) := trivial
@[simp] theorem refersIn_dictionary {ref : DictionaryRef} : RefersIn A B (dictionary ref) := trivial
@[simp] theorem refersIn_function {ref : FunctionRef} : RefersIn A B (function ref) ↔ B ref := Iff.rfl
@[simp] theorem refersIn_bytecode {ref : CodeRef} : RefersIn A B (bytecode ref) ↔ A ref := Iff.rfl

@[simp] theorem refersIn_path : RefersIn A B (path items) ↔ ∀ v ∈ items, RefersIn A B v :=
  allReferIn_iff

@[simp] theorem refersIn_pathLabel : RefersIn A B (pathLabel items) ↔ ∀ v ∈ items, RefersIn A B v :=
  allReferIn_iff

@[simp] theorem refersIn_block : RefersIn A B (block items dynamic) ↔ ∀ v ∈ items, RefersIn A B v :=
  allReferIn_iff

@[simp] theorem refersIn_inline : RefersIn A B (inline items) ↔ ∀ v ∈ items, RefersIn A B v :=
  allReferIn_iff

end

theorem refersIn_of_isNumeric {v : Value} (h : v.isNumeric) : RefersIn A B v := by
  cases v <;> simp_all [isNumeric]

mutual

/-- A value that refers to less than is allowed refers to no more than that. -/
theorem RefersIn.mono (hA : ∀ c, A c → A' c) (hB : ∀ f, B f → B' f) :
    (v : Value) → RefersIn A B v → RefersIn A' B' v
  | path items, h | pathLabel items, h | block items _, h | inline items, h =>
    AllReferIn.mono hA hB items h
  | bytecode ref, h => hA ref h
  | function ref, h => hB ref h
  | null, _ | logical _, _ | integer _, _ | floating _, _ | rational _, _ | string _, _ | word _, _
  | literal _, _ | label _, _ | attr _, _ | attrLabel _, _ | symbol _, _ | dictionary _, _
  | newline _, _ => trivial

theorem AllReferIn.mono (hA : ∀ c, A c → A' c) (hB : ∀ f, B f → B' f) :
    (l : List Value) → AllReferIn A B l → AllReferIn A' B' l
  | [], _ => trivial
  | v :: l, ⟨hv, hl⟩ => ⟨RefersIn.mono hA hB v hv, AllReferIn.mono hA hB l hl⟩

end

mutual

/-- Every value meets the condition that excludes nothing. -/
theorem codesIn_true : (v : Value) → CodesIn (fun _ => True) v
  | path items | pathLabel items | block items _ | inline items => allCodesIn_true items
  | bytecode _ | function _ => trivial
  | null | logical _ | integer _ | floating _ | rational _ | string _ | word _ | literal _
  | label _ | attr _ | attrLabel _ | symbol _ | dictionary _ | newline _ => trivial

theorem allCodesIn_true : (l : List Value) → AllReferIn (fun _ => True) (fun _ => True) l
  | [] => trivial
  | v :: l => ⟨codesIn_true v, allCodesIn_true l⟩

end

end Value

/-! ## Numbers -/

theorem Rational.isNumeric_toValue (q : Rational) : q.toValue.isNumeric := by
  unfold Rational.toValue
  split <;> rfl

theorem Rational.isNumeric_of_quotient? {n d : Int} {v : Value} (h : quotient? n d = some v) :
    v.isNumeric := by
  simp only [quotient?, Option.bind_eq_bind, Option.bind_eq_some_iff, Option.pure_def,
    Option.some.injEq] at h
  obtain ⟨_, _, _, _, q, _, rfl⟩ := h
  exact q.isNumeric_toValue

namespace Arith

variable {op : Arith} {a b v : Value}

theorem isNumeric_of_onIntegers? {x y : Int64} (h : op.onIntegers? x y = some v) :
    v.isNumeric := by
  cases op <;> simp only [onIntegers?, Option.map_eq_some_iff, Option.bind_eq_some_iff,
    Option.some.injEq] at h
  case pow =>
    split at h
    · cases h; rfl
    · split at h
      · obtain ⟨_, _, rfl⟩ := Option.map_eq_some_iff.1 h
        rfl
      · cases h
  case mod => obtain ⟨_, _, _, _, rfl⟩ := h; rfl
  case fdiv => subst h; rfl
  all_goals obtain ⟨_, _, rfl⟩ := h; rfl

theorem isNumeric_of_onFloats {x y : Binary64} (h : op.onFloats x y = .ok v) : v.isNumeric := by
  unfold onFloats at h
  split at h
  · cases h
  · cases h; rfl

theorem isNumeric_of_sumOfFractions? {f : Int → Int → Int} {x y : Rational}
    (h : sumOfFractions? f x y = some v) : v.isNumeric := by
  simp only [sumOfFractions?, Option.bind_eq_bind, Option.bind_eq_some_iff] at h
  obtain ⟨_, _, _, _, h⟩ := h
  exact Rational.isNumeric_of_quotient? h

theorem isNumeric_of_onRationals {x y : Rational} (h : op.onRationals x y = .ok v) :
    v.isNumeric := by
  cases op <;> simp only [onRationals] at h
  case fdiv | mod | pow => exact isNumeric_of_onFloats h
  case div =>
    split at h
    · cases h
    · split at h
      · cases h; exact Rational.isNumeric_of_quotient? ‹_›
      · cases h
  case mul =>
    split at h
    · cases h; exact Rational.isNumeric_of_quotient? ‹_›
    · cases h
  all_goals
    split at h
    · cases h; exact isNumeric_of_sumOfFractions? ‹_›
    · cases h

theorem isNumeric_of_apply (h : op.apply a b = .ok v) : v.isNumeric := by
  unfold apply at h
  split at h
  · cases h
  split at h
  · split at h
    · cases h; exact isNumeric_of_onIntegers? ‹_›
    · cases h
  · exact isNumeric_of_onRationals h
  · exact isNumeric_of_onRationals h
  · exact isNumeric_of_onRationals h
  · split at h
    · exact isNumeric_of_onFloats h
    · cases h
    · cases h

end Arith

theorem isNumeric_of_negate {a v : Value} (h : negate a = .ok v) : v.isNumeric := by
  unfold negate at h
  split at h
  · split at h <;> cases h
    rfl
  · cases h; rfl
  · split at h <;> cases h
    rfl
  · cases h

end BlockLang
