import BlockLang.Proofs.CallTree.Reading
import BlockLang.Proofs.CallTree.WellFormed
import BlockLang.Proofs.Simulation

/-!
# What building does

**Theorem (`sim_addItems`).** Items are added to a draft in the same way in all worlds that are alike. A property
of calls that those worlds let begin (`Admits`) then holds of all calls in the draft, and exactly the items that
are there are used: never more, and all of them unless building stops behind the first expression.

Each function of the builder that places an item has one lemma. It says that the property holds of the calls
in the draft and that no more items are used than follow (`Placed`). How worlds change while items are built
is left to a coupling that goes along with building (`Accompanies`); the one for all worlds that are alike says
that only arities and known names change (`building`).
-/

namespace BlockLang.World

open CallTree

variable {P : Head → Nat → Prop} {A : CodeRef → Prop} {B : FunctionRef → Prop} {w : World} {d : Draft}
  {t : CallTree} {rest : List Value}

/-- The property holds of every call that the world lets begin, by a name or by a path. -/
structure Admits (P : Head → Nat → Prop) (w : World) : Prop where
  name : ∀ name eager arity, w.arity? name = some arity → P (w.callHead name eager) arity
  path : ∀ segments ref, w.pathFunction? segments = some ref →
    P (.other (.function ref)) (w.heap.arity ref)

/-- An item was placed: the property holds of the calls in the draft, and no more items are used than
follow. -/
def Placed (P : Head → Nat → Prop) (A : CodeRef → Prop) (B : FunctionRef → Prop) (rest : List Value)
    (r : Draft × Nat) : Prop :=
  r.1.Calls P A B ∧ r.2 ≤ rest.length

/-! ## Calls by name -/

/-- The name of a call that has an opcode is that of the operation. -/
theorem of_opcodeOf? {name : String} {op : Opcode} (h : w.opcodeOf? name = some op) :
    ∃ b : Builtin, b.name = name ∧ b.opcode? = some op := by
  simp only [opcodeOf?, Option.bind_eq_bind, Option.bind_eq_some_iff] at h
  obtain ⟨b, hname, _, -, _, -, h⟩ := h
  split at h
  · exact ⟨b, by simpa using List.find?_some hname, h⟩
  · cases h

/-- Every world lets calls begin that do something. -/
theorem admits_isCall (w : World) : w.Admits Head.IsCall where
  name name eager arity _ := by
    unfold callHead
    split
    · next h =>
      obtain ⟨b, -, hb⟩ := of_opcodeOf? h
      exact ⟨b, hb⟩
    · split <;> trivial
  path _ _ _ := trivial

theorem of_operator? (hw : w.Admits P) {head : Head} {arity : Nat}
    (h : w.operator? rest = some (head, arity)) : P head arity ∧ 1 ≤ rest.length := by
  unfold operator? at h
  split at h
  · simp only [Option.bind_eq_bind, Option.bind_eq_some_iff] at h
    obtain ⟨target, -, h⟩ := h
    split at h
    · cases h
    · obtain ⟨n, hn, h⟩ := Option.bind_eq_some_iff.1 h
      split at h
      · cases h
      · cases h
        exact ⟨hw.name _ _ _ hn, by simp⟩
  · cases h

theorem refersIn_constantWord {name : String} {v : Value} (h : constantWord? name = some v) :
    v.RefersIn A B := by
  unfold constantWord? at h
  split at h <;> cases h <;> trivial

theorem refersIn_segmentKey {v : Value} (hv : v.RefersIn A B) : (segmentKey v).RefersIn A B := by
  unfold segmentKey
  split
  · trivial
  · exact hv

section

variable (hP : Head.Lawful P) (hw : w.Admits P)

include hP hw

theorem placed_attach (hd : d.Calls P A B) (ht : t.Calls P A B) :
    Placed P A B rest (w.attach d t rest) := by
  unfold attach
  split
  · next head arity h =>
    obtain ⟨hh, hr⟩ := of_operator? hw h
    exact ⟨(hd.begin hh).put hP ht, hr⟩
  · exact ⟨hd.put hP ht, Nat.zero_le _⟩

theorem placed_attachConstant {v : Value} (hd : d.Calls P A B) (hv : v.RefersIn A B) :
    Placed P A B rest (w.attachConstant d v rest) := placed_attach hP hw hd (.constant hv)

theorem placed_beginCall {head : Head} {arity : Nat} (hd : d.Calls P A B) (hh : P head arity) :
    Placed P A B rest (w.beginCall d head arity rest) := by
  unfold beginCall
  split
  · next h =>
    subst h
    exact placed_attach hP hw hd (.call hh rfl (by simp))
  · exact ⟨hd.begin hh, Nat.zero_le _⟩

/-! ## Words and paths -/

theorem placed_placeWord (hd : d.Calls P A B) (name : String) :
    Placed P A B rest (w.placeWord d name rest) := by
  unfold placeWord
  split
  · exact placed_attachConstant hP hw hd (refersIn_constantWord ‹_›)
  · split
    · next h => exact placed_beginCall hP hw hd (hw.name _ _ _ h)
    · exact placed_attach hP hw hd (.load name)

omit hw in
theorem calls_pathTree {segments : List Value} (hs : ∀ v ∈ segments, v.RefersIn A B) :
    (pathTree segments).Calls P A B ∧ (pathTree segments).isAttr = false := by
  have keyed (keys : List Value) (hk : ∀ v ∈ keys, v.RefersIn A B) {start : CallTree}
      (hs : start.Calls P A B ∧ start.isAttr = false) :
      let t := keys.foldl
        (fun t key => .call (.operation .get) 2 [t, .constant (segmentKey key)]) start
      t.Calls P A B ∧ t.isAttr = false := by
    induction keys generalizing start with
    | nil => exact hs
    | cons key keys ih =>
      obtain ⟨hkey, hk⟩ := List.forall_mem_cons.1 hk
      refine ih hk ⟨.call (hP.operation (b := .get) rfl) ?_ ?_, rfl⟩
      · simp [operands_cons, hs.2]
      · simpa using And.intro hs.1 (Calls.constant (refersIn_segmentKey hkey))
  cases segments with
  | nil => exact ⟨.constant trivial, rfl⟩
  | cons head keys =>
    obtain ⟨hhead, hk⟩ := List.forall_mem_cons.1 hs
    refine keyed keys hk ?_
    split
    · exact ⟨.load _, rfl⟩
    · exact ⟨.constant hhead, rfl⟩

theorem placed_placePath {segments : List Value} (hd : d.Calls P A B)
    (hs : ∀ v ∈ segments, v.RefersIn A B) : Placed P A B rest (w.placePath d segments rest) := by
  unfold placePath
  split
  · exact placed_beginCall hP hw hd (hw.path _ _ ‹_›)
  · exact placed_attach hP hw hd (calls_pathTree hP hs).1

omit hw in
theorem calls_placePathLabel {segments : List Value} {d' : Draft}
    (h : placePathLabel d segments = .ok d') (hd : d.Calls P A B)
    (hs : ∀ v ∈ segments, v.RefersIn A B) : d'.Calls P A B := by
  unfold placePathLabel at h
  split at h
  · cases h
  · next last hlast =>
    cases h
    refine hd.enter ⟨hP.operation (b := .set) rfl, ?_⟩
    have hkey := refersIn_segmentKey (hs last (List.mem_of_getLast? hlast))
    have htarget := (calls_pathTree hP fun v hv => hs v (List.dropLast_subset _ hv)).1
    simpa using And.intro (Calls.constant hkey) htarget

/-! ## Symbols and inlines -/

theorem placed_placeSymbol (hd : d.Calls P A B) (s : Symbol) :
    Placed P A B rest (w.placeSymbol d s rest) := by
  unfold placeSymbol
  split
  · exact placed_attachConstant hP hw hd trivial
  · split
    · exact placed_attachConstant hP hw hd trivial
    · split
      · next h => exact placed_beginCall hP hw hd (hw.name _ _ _ h)
      · exact placed_attachConstant hP hw hd trivial

theorem of_pipe? {d' : Draft} (h : w.pipe? d rest = some d') (hd : d.Calls P A B) :
    d'.Calls P A B ∧ 1 ≤ rest.length := by
  unfold pipe? at h
  split at h
  · obtain ⟨arity, ha, h⟩ := Option.bind_eq_some_iff.1 h
    split at h
    · cases h
    · exact ⟨hd.pipe hP h (hw.name _ _ _ ha), by simp⟩
  · cases h

theorem placed_splice {trees : List CallTree} (hd : d.Calls P A B)
    (ht : ∀ t ∈ trees, t.Calls P A B) : Placed P A B rest (w.splice d trees rest) := by
  unfold splice
  split
  · exact ⟨hd, Nat.zero_le _⟩
  · next last hlast =>
    refine placed_attach hP hw ?_ (ht last (List.mem_of_getLast? hlast))
    exact List.foldlRecOn trees.dropLast Draft.putPlain hd fun d hd t hinit =>
      hd.putPlain hP (ht t (List.dropLast_subset _ hinit))

end

mutual

theorem refersIn_nameAmpersands (k : Nat) : (v : Value) → v.RefersIn A B →
    (nameAmpersands k v).1.RefersIn A B
  | .inline items, h => by
    simp only [nameAmpersands, Value.refersIn_inline]
    exact refersIn_nameAllAmpersands k items (Value.refersIn_inline.1 h)
  | .symbol s, h => by
    cases s <;> exact h
  | .null, h | .logical _, h | .integer _, h | .floating _, h | .rational _, h | .string _, h
  | .word _, h | .literal _, h | .label _, h | .attr _, h | .attrLabel _, h | .path _, h
  | .pathLabel _, h | .block .., h | .dictionary _, h | .function _, h | .bytecode _, h
  | .newline _, h => h

theorem refersIn_nameAllAmpersands (k : Nat) : (l : List Value) → (∀ v ∈ l, v.RefersIn A B) →
    ∀ v ∈ (nameAllAmpersands k l).1, v.RefersIn A B
  | [], _ => by simp [nameAllAmpersands]
  | v :: l, h => by
    obtain ⟨hv, hl⟩ := List.forall_mem_cons.1 h
    simp only [nameAllAmpersands, List.forall_mem_cons]
    exact ⟨refersIn_nameAmpersands k v hv, refersIn_nameAllAmpersands _ l hl⟩

end

theorem of_placeholderForm? {names : List String} {body : List Value}
    (h : w.placeholderForm? rest = some (names, body)) (hr : ∀ v ∈ rest, v.RefersIn A B) :
    (∀ v ∈ body, v.RefersIn A B) ∧ 1 ≤ rest.length := by
  unfold placeholderForm? at h
  split at h
  · obtain ⟨arity, -, h⟩ := Option.map_eq_some_iff.1 h
    cases h
    simp
  · cases h
    refine ⟨refersIn_nameAllAmpersands 0 _ ?_, by simp⟩
    exact Value.refersIn_block.1 (hr _ List.mem_cons_self)
  · cases h

/-! ## Worlds while items are built -/

/-- A label of the name stands among the items or in an inline among them, in front of `rest`. -/
inductive LabelledIn (name : String) (rest : List Value) : List Value → Prop
  | here : LabelledIn name rest (.label name :: rest)
  | behind {item : Value} {l : List Value} : LabelledIn name rest l → LabelledIn name rest (item :: l)
  | inside {items l : List Value} : LabelledIn name rest items →
      LabelledIn name rest (.inline items :: l)

/-- The labels among some items are among those of other items. -/
def LabelsWithin (l items : List Value) : Prop :=
  ∀ name rest, LabelledIn name rest l → LabelledIn name rest items

/-- The coupling goes along with the building of the items: worlds that it relates are alike and admit calls
with the property, and it relates them still when names are learned and when a label is declared. -/
structure Accompanies (C : Coupling BuildError World World) (P : Head → Nat → Prop) (items : List Value) :
    Prop where
  alike : ∀ {w w'}, C.alike w w' → w.Alike w'
  admits : ∀ {w w'}, C.alike w w' → w.Admits P
  learnAll : ∀ {w w'} names, C.alike w w' → C.alike (w.learnAll names) (w'.learnAll names)
  declare : ∀ {w w' name rest}, LabelledIn name rest items → C.alike w w' →
    C.alike (w.declare name rest) (w'.declare name rest)
  compares : ∀ w, ¬ C.lost w
  halts : ∀ e, C.halts e

/-- The world differs from the first one in arities and known names at most. -/
def Rebuilt (w₀ w : World) : Prop :=
  ∃ arities names, w = { w₀ with scope := { w₀.scope with arities }, names }

/-- Building the same items in two worlds that are alike. -/
def building (w₀ w₀' : World) : Coupling BuildError World World where
  alike w w' := w.Alike w' ∧ w₀.Rebuilt w ∧ w₀'.Rebuilt w'

variable {w₀ w₀' : World} {items l : List Value} {item : Value} {C : Coupling BuildError World World}

theorem LabelsWithin.tail (h : LabelsWithin (item :: l) items) : LabelsWithin l items :=
  fun name rest hl => h name rest hl.behind

theorem LabelsWithin.inline {inner : List Value} (h : LabelsWithin (.inline inner :: l) items) :
    LabelsWithin inner items := fun name rest hl => h name rest hl.inside

theorem learnAll_eq (w : World) (l : List String) : ∃ names, w.learnAll l = { w with names } := by
  induction l generalizing w with
  | nil => exact ⟨w.names, rfl⟩
  | cons name l ih =>
    obtain ⟨names, h⟩ := ih (w.learn name)
    refine ⟨names, h.trans ?_⟩
    unfold learn
    split <;> rfl

theorem Alike.names {w' : World} (h : w.Alike w') (names names' : List String) :
    Alike { w with names } { w' with names := names' } := ⟨h.bindings, h.arity?, h.heap⟩

theorem Rebuilt.names (h : w₀.Rebuilt w) (names : List String) :
    w₀.Rebuilt { w with names } := by
  obtain ⟨arities, -, rfl⟩ := h
  exact ⟨arities, names, rfl⟩

/-- A label says nothing about arities, or gives its name one, or takes it away; that depends on the
items behind it alone. -/
theorem declare_eq (name : String) (rest : List Value) :
    (∀ w, declare w name rest = w) ∨
      ∃ a, ∀ w, declare w name rest = { w with scope.arities := w.scope.arities.put name a } := by
  unfold declare
  cases declaredArity? rest with
  | some arity => exact .inr ⟨some arity, fun _ => rfl⟩
  | none =>
    by_cases hp : startsPlain rest
    · exact .inr ⟨none, fun _ => by simp [hp, forgetArity, NameTable.put]⟩
    · exact .inl fun _ => by simp [hp]

theorem Alike.declare {w' : World} (h : w.Alike w') (name : String) (rest : List Value) :
    Alike (w.declare name rest) (w'.declare name rest) := by
  rcases declare_eq name rest with he | ⟨a, he⟩
  · rw [he, he]
    exact h
  · rw [he, he]
    refine ⟨h.bindings, fun other => ?_, h.heap⟩
    have ha := h.arity? other
    simp only [World.arity?] at ha ⊢
    by_cases ho : other = name
    · subst ho
      rw [NameTable.get?_put_self, NameTable.get?_put_self]
    · rw [NameTable.get?_put_of_ne ho, NameTable.get?_put_of_ne ho, ha]

theorem Rebuilt.declare (h : w₀.Rebuilt w) (name : String) (rest : List Value) :
    w₀.Rebuilt (w.declare name rest) := by
  rcases declare_eq name rest with he | ⟨a, he⟩
  · rw [he]
    exact h
  · obtain ⟨arities, names, rfl⟩ := h
    rw [he]
    exact ⟨_, names, rfl⟩

theorem accompanies_building (w₀ w₀' : World) (items : List Value) :
    Accompanies (building w₀ w₀') Head.IsCall items where
  alike h := h.1
  admits _ := admits_isCall _
  learnAll {w w'} names h := by
    obtain ⟨known, he⟩ := learnAll_eq w names
    obtain ⟨known', he'⟩ := learnAll_eq w' names
    rw [he, he']
    exact ⟨h.1.names known known', h.2.1.names known, h.2.2.names known'⟩
  declare {w w' name rest} _ h := ⟨h.1.declare name rest, h.2.1.declare name rest, h.2.2.declare name rest⟩
  compares _ := id
  halts _ := trivial

namespace Accompanies

variable (hC : Accompanies C P items)

include hC

theorem sim_learnAll (names : List String) :
    Sim C Eq (modify (World.learnAll · names) : BuildM PUnit) (modify (World.learnAll · names)) :=
  Sim.modify rfl (fun _ _ => hC.learnAll names) fun w h => absurd h (hC.compares w)

theorem sim_declare {name : String} (hl : LabelledIn name rest items) :
    Sim C Eq (modify (World.declare · name rest) : BuildM PUnit) (modify (World.declare · name rest)) :=
  Sim.modify rfl (fun _ _ => hC.declare hl) fun w h => absurd h (hC.compares w)

end Accompanies

/-! ## Items -/

/-- Both runs placed the item in the same way. -/
def SamePlacement (P : Head → Nat → Prop) (A : CodeRef → Prop) (B : FunctionRef → Prop) (rest : List Value)
    (r q : Draft × Nat) : Prop :=
  r = q ∧ Placed P A B rest r

section

variable (hC : Accompanies C P items) (hP : Head.Lawful P)

include hC hP

theorem sim_placeThickArrow (hd : d.Calls P A B) (hr : ∀ v ∈ rest, v.RefersIn A B) :
    Sim C (SamePlacement P A B rest) (placeThickArrow d rest) (placeThickArrow d rest) := by
  unfold placeThickArrow
  refine Sim.get.bind fun w w' hw => ?_
  rw [← (hC.alike hw).placeholderForm?]
  split
  · next names body h =>
    obtain ⟨hbody, hlen⟩ := of_placeholderForm? h hr
    refine (hC.sim_learnAll _).bind fun _ _ _ => Sim.get.bind fun v v' hv => ?_
    rw [← (hC.alike hv).attachConstant]
    have hnames : (Value.block (names.map .word) false).RefersIn A B := by simp
    have hblock : (Value.block body false).RefersIn A B := Value.refersIn_block.2 hbody
    obtain ⟨hp, hn⟩ : Placed P A B rest.tail _ :=
      placed_attachConstant hP (hC.admits hv) (hd.put hP (.constant hnames)) hblock
    rw [List.length_tail] at hn
    exact Sim.pure ⟨rfl, hp, Nat.add_le_of_le_sub hlen hn⟩
  · refine Sim.get.bind fun v v' hv => ?_
    rw [← (hC.alike hv).attachConstant]
    exact Sim.pure ⟨rfl, placed_attachConstant hP (hC.admits hv) hd trivial⟩

/-- **An item is placed in the same way in worlds that are alike.** -/
theorem sim_placeItem (hd : d.Calls P A B) (hl : LabelsWithin (item :: rest) items)
    (hi : item.RefersIn A B) (hr : ∀ v ∈ rest, v.RefersIn A B) :
    Sim C (SamePlacement P A B rest) (placeItem d item rest) (placeItem d item rest) := by
  unfold placeItem
  refine Sim.get.bind fun w w' hw => ?_
  have halike := hC.alike hw
  have hadmits := hC.admits hw
  have attached {v : Value} (hv : v.RefersIn A B) : Sim C (SamePlacement P A B rest)
      (pure (w.attachConstant d v rest) : BuildM _) (pure (w'.attachConstant d v rest)) :=
    Sim.pure ⟨by rw [halike.attachConstant], placed_attachConstant hP hadmits hd hv⟩
  cases item with
  | word name => exact Sim.pure ⟨by rw [halike.placeWord], placed_placeWord hP hadmits hd name⟩
  | label name =>
    refine (hC.sim_declare (hl name rest .here)).bind fun _ _ _ => Sim.pure ⟨rfl, ?_, Nat.zero_le _⟩
    exact hd.begin (hP.store name)
  | attr name =>
    refine Sim.pure ⟨rfl, hd.put hP (.call (hP.attr name) rfl ?_), Nat.zero_le _⟩
    simpa using Calls.constant Value.refersIn_logical
  | attrLabel name => exact Sim.pure ⟨rfl, hd.begin (hP.attr name), Nat.zero_le _⟩
  | path segments =>
    refine Sim.pure ⟨by rw [halike.placePath], ?_⟩
    exact placed_placePath hP hadmits hd (Value.refersIn_path.1 hi)
  | pathLabel segments =>
    have labelled : Sim C (fun d d' => d = d' ∧ d.Calls P A B)
        (liftM (placePathLabel d segments) : BuildM Draft) (liftM (placePathLabel d segments)) := by
      refine Sim.liftM (.refl fun d' h => ⟨rfl, ?_⟩) fun e _ => hC.halts e
      exact calls_placePathLabel hP h hd (Value.refersIn_pathLabel.1 hi)
    exact labelled.bindSame fun d' hd' => Sim.pure ⟨rfl, hd', Nat.zero_le _⟩
  | symbol s =>
    cases s with
    | doubleColon =>
      refine Sim.pure ⟨by rw [halike.attachConstant], ?_, Nat.le_refl _⟩
      exact (placed_attachConstant hP hadmits hd (Value.refersIn_block.2 hr)).1
    | thickArrow => exact sim_placeThickArrow hC hP hd hr
    | pipe =>
      dsimp only
      rw [← halike.pipe?]
      split
      · next h => exact Sim.pure ⟨rfl, of_pipe? hP hadmits h hd⟩
      · exact attached trivial
    | _ => exact Sim.pure ⟨by rw [halike.placeSymbol], placed_placeSymbol hP hadmits hd _⟩
  | newline _ => exact Sim.pure ⟨rfl, hd, Nat.zero_le _⟩
  | _ => exact attached hi

end

/-! ## Sequences of items -/

/-- The draft at the end of some items, and the number of items that were used. With `one`, building
may have stopped early. -/
def SameEnd (P : Head → Nat → Prop) (A : CodeRef → Prop) (B : FunctionRef → Prop) (one : Bool) (count : Nat)
    (r q : Draft × Nat) : Prop :=
  r = q ∧ r.1.Calls P A B ∧ r.2 ≤ count ∧ (one = false → r.2 = count)

mutual

/-- **Items are added in the same way in worlds that are alike.** -/
theorem sim_addItems (hC : Accompanies C P items) (hP : Head.Lawful P) (one : Bool) (d : Draft)
    (skip used : Nat) : (l : List Value) → LabelsWithin l items → (∀ v ∈ l, v.RefersIn A B) →
    d.Calls P A B → skip ≤ l.length →
    Sim C (SameEnd P A B one (used + l.length)) (addItems one d skip used l)
      (addItems one d skip used l)
  | [], _, _, hd, _ => by
    rw [addItems]
    refine Sim.get.bind fun w w' hw => ?_
    rw [(hC.alike hw).check]
    refine (Sim.liftM (SameAnswer.refl (P := Eq) fun _ _ => rfl) fun e _ => hC.halts e).bind
      fun _ _ _ => ?_
    exact Sim.pure ⟨rfl, hd, Nat.le_refl _, fun _ => rfl⟩
  | item :: rest, hl, hi, hd, hskip => by
    obtain ⟨hitem, hr⟩ := List.forall_mem_cons.1 hi
    cases skip with
    | succ skip =>
      rw [addItems]
      have h := sim_addItems hC hP one d skip (used + 1) rest hl.tail hr hd (by simpa using hskip)
      simpa [Nat.add_assoc, Nat.add_comm 1] using h
    | zero =>
      -- what follows an item does not depend on how the item was placed
      have proceed (r : Draft × Nat) (h : Placed P A B rest r) :
          Sim C (SameEnd P A B one (used + (item :: rest).length))
            (if one && r.1.isSettled then pure (r.1, used + 1 + r.2)
              else addItems one r.1 r.2 (used + 1) rest)
            (if one && r.1.isSettled then pure (r.1, used + 1 + r.2)
              else addItems one r.1 r.2 (used + 1) rest) := by
        obtain ⟨hd, hn⟩ := h
        rw [List.length_cons]
        refine Sim.ite Iff.rfl (fun hone => ?_) fun _ => ?_
        · refine Sim.pure ⟨rfl, hd, by dsimp only; omega, fun h => ?_⟩
          rw [h] at hone
          cases hone
        · have h := sim_addItems hC hP one r.1 r.2 (used + 1) rest hl.tail hr hd hn
          simpa [Nat.add_assoc, Nat.add_comm 1] using h
      by_cases hin : ∃ inner, item = .inline inner
      · obtain ⟨inner, rfl⟩ := hin
        rw [addItems]
        refine (sim_inlineTrees hC hP _ hitem (by rintro _ ⟨⟩; exact hl.inline)).bindSame
          fun trees ht => ?_
        refine Sim.get.bind fun w w' hw => ?_
        rw [← (hC.alike hw).splice]
        exact (Sim.pure ⟨rfl, placed_splice hP (hC.admits hw) hd ht⟩).bindSame proceed
      · by_cases harrow : item = .symbol .arrow
        · subst harrow
          rw [addItems]
          refine (sim_addItems hC hP true {} 0 0 rest hl.tail hr .empty (Nat.zero_le _)).bindSame ?_
          rintro ⟨d₁, count⟩ ⟨-, hcount, -⟩
          refine Sim.get.bind fun w w' hw => ?_
          rw [← (hC.alike hw).attachConstant]
          have hbody : (Value.block (rest.take count) false).RefersIn A B :=
            Value.refersIn_block.2 fun v hv => hr v (List.mem_of_mem_take hv)
          have hp : Placed P A B (rest.drop count) _ :=
            placed_attachConstant hP (hC.admits hw) hd hbody
          have hn := hp.2
          rw [List.length_drop] at hn
          refine (Sim.pure ⟨rfl, hp.1, ?_⟩).bindSame proceed
          exact Nat.add_le_of_le_sub' (by simpa using hcount) hn
        · rw [addItems.eq_5 _ _ _ _ _ (fun items h => hin ⟨items, h⟩) harrow]
          exact (sim_placeItem hC hP hd hl hitem hr).bindSame proceed

theorem sim_inlineTrees (hC : Accompanies C P items) (hP : Head.Lawful P) : (v : Value) →
    v.RefersIn A B → (∀ inner, v = .inline inner → LabelsWithin inner items) →
    Sim C (fun r q => r = q ∧ ∀ t ∈ r, t.Calls P A B) (inlineTrees v) (inlineTrees v)
  | .inline inner, hv, hl => by
    rw [inlineTrees]
    refine (sim_addItems hC hP false {} 0 0 inner (hl inner rfl) (Value.refersIn_inline.1 hv) .empty
      (Nat.zero_le _)).bindSame ?_
    rintro ⟨d, n⟩ ⟨hd, -⟩
    exact Sim.pure ⟨rfl, hd.trees⟩
  | .null, _, _ | .logical _, _, _ | .integer _, _, _ | .floating _, _, _ | .rational _, _, _
  | .string _, _, _ | .word _, _, _ | .literal _, _, _ | .label _, _, _ | .attr _, _, _
  | .attrLabel _, _, _ | .symbol _, _, _ | .path _, _, _ | .pathLabel _, _, _ | .block .., _, _
  | .dictionary _, _, _ | .function _, _, _ | .bytecode _, _, _ | .newline _, _, _ => by
    all_goals exact Sim.pure ⟨rfl, by simp⟩

end

/-! ## Call trees -/

theorem callTrees_eq (w : World) (items : List Value) :
    w.callTrees items =
      (((addItems false {} 0 0 items).run.run w).1.map fun r => r.1.trees,
        ((addItems false {} 0 0 items).run.run w).2) := run_map ..

/-- **Worlds that building goes along with get the same call trees**, with the property. -/
theorem Accompanies.agrees_callTrees {w w' : World} (hC : Accompanies C P items) (hP : Head.Lawful P)
    (hi : ∀ v ∈ items, v.RefersIn A B) (h : C.alike w w') :
    C.Agrees (fun l q => l = q ∧ ∀ t ∈ l, t.Calls P A B) (w.callTrees items) (w'.callTrees items) := by
  obtain ⟨hs, hr, -⟩ := (sim_addItems hC hP false {} 0 0 items (fun _ _ => id) hi .empty
    (Nat.zero_le _)).agrees h (hC.compares _)
  rw [callTrees_eq, callTrees_eq]
  refine ⟨hs, ?_, fun e _ => hC.halts e⟩
  revert hr
  rcases ((addItems false {} 0 0 items).run.run w).1 with e | r <;>
    rcases ((addItems false {} 0 0 items).run.run w').1 with e' | q <;> intro hr
  · exact hr
  · exact hr
  · exact hr
  · obtain ⟨rfl, hd, -⟩ := hr
    exact ⟨rfl, hd.trees⟩

theorem callTrees_alike {w w' : World} (h : w.Alike w') {items : List Value}
    (hi : ∀ v ∈ items, v.CodesIn A) :
    (building w w').Agrees (fun l q => l = q ∧ ∀ t ∈ l, t.WellFormed A) (w.callTrees items)
      (w'.callTrees items) := by
  have hw (w : World) : w.Rebuilt w := ⟨_, _, rfl⟩
  exact (accompanies_building w w' items).agrees_callTrees Head.lawful_isCall hi ⟨h, hw w, hw w'⟩

/-- **Building makes well-formed trees.** -/
theorem wellFormed_of_callTrees {items : List Value} {trees : List CallTree} {w' : World}
    (h : w.callTrees items = (.ok trees, w')) (hi : ∀ v ∈ items, v.CodesIn A) :
    ∀ t ∈ trees, t.WellFormed A := by
  have := (callTrees_alike (.refl w) hi).answer
  rw [h] at this
  exact this.2

end BlockLang.World
