import BlockLang.Error

/-!
# Kinds that operations insist on
-/

namespace BlockLang.Value

/-- The error of an operation that got a value of another kind than it takes. -/
def wrongType (operation expected : String) (found : Value) : RuntimeError :=
  .wrongType operation expected found.kind

/-- The integer that an operation needs. -/
def expectInteger (operation : String) (v : Value) : Except RuntimeError Int64 :=
  match v with
  | integer n => .ok n
  | v => .error (wrongType operation "an integer" v)

/-- The truth value that an operation needs. -/
def expectLogical (operation : String) (v : Value) : Except RuntimeError Bool :=
  match v with
  | logical b => .ok b
  | v => .error (wrongType operation "a logical" v)

end BlockLang.Value
