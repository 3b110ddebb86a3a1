import BlockLang.Value.Equality

/-!
# Identity of constants is an equivalence

Whether a block is static or dynamic is the one thing that `Value.same` does not look at.

**Theorem (`same_iff`).** Two values are the same exactly if they are equal once every block in them is
taken as static.

So sameness is an equivalence, and lists of values inherit it.
-/

namespace BlockLang.Value

mutual

/-- The value with every block in it taken as static. -/
def static : Value → Value
  | block items _ => block (staticAll items) false
  | inline items => inline (staticAll items)
  | path segments => path (staticAll segments)
  | pathLabel segments => pathLabel (staticAll segments)
  | v => v

def staticAll : List Value → List Value
  | [] => []
  | v :: l => v.static :: staticAll l

end

mutual

/-- **The same values are equal but for the kinds of their blocks.** -/
theorem same_iff : (a b : Value) → (same a b ↔ a.static = b.static)
  | path l, b | pathLabel l, b | inline l, b | block l _, b => by
    all_goals cases b <;> simp [same, static, sameAll_iff l]
  | null, b | logical _, b | integer _, b | floating _, b | rational _, b | string _, b
  | word _, b | literal _, b | label _, b | attr _, b | attrLabel _, b | symbol _, b
  | dictionary _, b | function _, b | bytecode _, b | newline _, b => by
    all_goals cases b <;> simp [same, static]

theorem sameAll_iff : (l m : List Value) → (sameAll l m ↔ staticAll l = staticAll m)
  | [], m => by cases m <;> simp [sameAll, staticAll]
  | v :: l, [] => by simp [sameAll, staticAll]
  | v :: l, u :: m => by simp [sameAll, staticAll, same_iff v u, sameAll_iff l m]

end

theorem same_refl (v : Value) : same v v := (same_iff v v).2 rfl

theorem same_symm {a b : Value} (h : same a b) : same b a :=
  (same_iff b a).2 ((same_iff a b).1 h).symm

theorem same_trans {a b c : Value} (h : same a b) (h' : same b c) : same a c :=
  (same_iff a c).2 (((same_iff a b).1 h).trans ((same_iff b c).1 h'))

theorem same_comm (a b : Value) : same a b = same b a :=
  Bool.eq_iff_iff.2 ⟨same_symm, same_symm⟩

end BlockLang.Value
