import BlockLang.Proofs.CallTree.Repeating

/-!
# What labels say while items are built

A label in front of a function form gives its name an arity, and one in front of a plain value takes the
arity away, ahead of the binding that the label makes. That is all that building does to a world, apart from
the names that it has seen.

**Theorem (`World.relabelled_callTrees`).** While items are built, the bindings stay, and the arity of a name is
what it was or what a label among the items says; this holds after every item, also of a build that fails.

**Theorem (`World.calls_callTrees`).** So a property of calls holds of all calls in the trees if it holds of the
calls that those worlds let begin (`World.Admits`), and functions in constants are those of the items.
-/

namespace BlockLang

open CallTree

namespace World

/-! ## What labels say while items are built -/

/-- A label among the items says that the name has this arity, or none. -/
def Says (items : List Value) (name : String) (arity? : Option Nat) : Prop :=
  ∃ rest, LabelledIn name rest items ∧ labelSays rest = some arity?

/-- A world while items are built in another one: the bindings are the same, and the arity of a name is
the same or what a label says. -/
structure RelabelledBy (items : List Value) (w₀ w : World) : Prop where
  rebuilt : w₀.Rebuilt w
  arity? : ∀ name, w.arity? name = w₀.arity? name ∨ Says items name (w.arity? name)

variable {items rest : List Value} {w₀ w : World} {P : Head → Nat → Prop} {A : CodeRef → Prop}
  {B : FunctionRef → Prop}

protected theorem RelabelledBy.refl (items : List Value) (w : World) : RelabelledBy items w w :=
  ⟨⟨_, _, rfl⟩, fun _ => .inl rfl⟩

theorem RelabelledBy.names (h : RelabelledBy items w₀ w) (names : List String) :
    RelabelledBy items w₀ { w with names } := ⟨h.rebuilt.names names, h.arity?⟩

theorem RelabelledBy.declare {name : String} (h : RelabelledBy items w₀ w)
    (hl : LabelledIn name rest items) : RelabelledBy items w₀ (w.declare name rest) where
  rebuilt := h.rebuilt.declare name rest
  arity? other := by
    rw [arity?_declare]
    unfold saidAt
    split
    · next hn =>
      subst hn
      cases hs : labelSays rest with
      | none => exact h.arity? name
      | some a => exact .inr ⟨rest, hl, hs⟩
    · exact h.arity? other

/-- Building items in one world, of which only that is known. -/
def relabelling (items : List Value) (w₀ : World) : Coupling BuildError World World where
  alike w w' := w = w' ∧ RelabelledBy items w₀ w

theorem accompanies_relabelling (hA : ∀ w, RelabelledBy items w₀ w → w.Admits P) :
    Accompanies (relabelling items w₀) P items where
  alike h := h.1 ▸ .refl _
  admits h := hA _ h.2
  learnAll {w _} names h := by
    obtain ⟨rfl, hw⟩ := h
    obtain ⟨known, he⟩ := learnAll_eq w names
    exact ⟨rfl, he ▸ hw.names known⟩
  declare hl h := by
    obtain ⟨rfl, hw⟩ := h
    exact ⟨rfl, hw.declare hl⟩
  compares _ := id
  halts _ := trivial

/-! ## Call trees -/

/-- **A property of the calls that the labels let begin holds of all calls in the trees**, and code and
functions in constants come from the items. -/
theorem calls_callTrees {trees : List CallTree} (hP : Head.Lawful P)
    (hA : ∀ v, RelabelledBy items w v → v.Admits P) (hi : ∀ v ∈ items, v.RefersIn A B)
    (h : (w.callTrees items).1 = .ok trees) : ∀ t ∈ trees, t.Calls P A B := by
  have hanswer := ((accompanies_relabelling hA).agrees_callTrees hP hi ⟨rfl, .refl items w⟩).answer
  rw [h] at hanswer
  exact hanswer.2

/-- **Building changes no arity but those that the labels speak of**, and no binding; also when it fails. -/
theorem relabelled_callTrees (w : World) (items : List Value) :
    RelabelledBy items w (w.callTrees items).2 := by
  have hany : Accompanies (relabelling items w) Head.IsCall items :=
    accompanies_relabelling fun v _ => v.admits_isCall
  exact (hany.agrees_callTrees Head.lawful_isCall (fun v _ => v.codesIn_true)
    ⟨rfl, .refl items w⟩).alike.2

end World

end BlockLang
