import BlockLang.Value.Expect
import BlockLang.Value.Order

/-!
# Comparisons by order
-/

namespace BlockLang

/-- A comparison by order. -/
inductive Comparison where
  | gt | ge | lt | le
deriving DecidableEq, Repr, Inhabited

namespace Comparison

def name : Comparison → String
  | gt => "greater?"
  | ge => "greaterOrEqual?"
  | lt => "less?"
  | le => "lessOrEqual?"

/-- The comparison holds of values in the given order. -/
def accepts : Comparison → Ordering → Bool
  | gt, o => o.isGT
  | ge, o => o.isGE
  | lt, o => o.isLT
  | le, o => o.isLE

/-- The result of a comparison. Values without an order are reported by the second. -/
def apply (c : Comparison) (a b : Value) : Except RuntimeError Value :=
  match Value.compare? a b with
  | some o => .ok (.logical (c.accepts o))
  | none => .error (Value.wrongType c.name "comparable values" b)

end Comparison

end BlockLang
