import BlockLang.CallTree.Build
import BlockLang.Code.OfCalls

/-!
# Compiling blocks

A block is compiled in the world as it stands. A block written in source is compiled once only: the
code is kept under its items, and found again wherever the same items come up. Blocks that a running
program has put together are compiled anew every time.
-/

namespace BlockLang.World

/-- Compiles a sequence of items. -/
def compileNew (w : World) (items : List Value) : Except Error CodeRef × World :=
  match w.callTrees items with
  | (.error e, w) => (.error (.building e), w)
  | (.ok trees, w) =>
    match CodeUnit.ofCalls trees with
    | .error e => (.error (.generating e), w)
    | .ok unit =>
      let (code, w) := w.addUnit unit
      (.ok code, w)

/-- The code of a block: the code that is kept for it, or else new code. -/
def compile (w : World) (items : List Value) (dynamic : Bool) : Except Error CodeRef × World :=
  if w.config.cacheUnits && !dynamic then
    match w.cached? items with
    | some code => (.ok code, w)
    | none =>
      match w.compileNew items with
      | (.ok code, w) => (.ok code, w.keep items code)
      | (.error e, w) => (.error e, w)
  else w.compileNew items

/-- No code is kept for the block, so that its call trees have to be built. -/
def Builds (w : World) (items : List Value) (dynamic : Bool) : Prop :=
  w.config.cacheUnits && !dynamic → w.cached? items = none

/-- Compiling a block gives the code that compiling it anew gives, or fails alike, and leaves the same
arities behind. -/
def CompilesAfresh (w : World) (items : List Value) (dynamic : Bool) : Prop :=
  let (code, kept) := w.compile items dynamic
  let (code', new) := w.compileNew items
  code.map kept.heap.unit? = code'.map new.heap.unit? ∧
    ∀ name, kept.arity? name = new.arity? name

end BlockLang.World
