import BlockLang.Proofs.CallTree.Building

/-!
# Building the same items again

Building reads the arities of names and changes them: a label declares the arity of its name, or that it has
none. So the items may be built differently the second time, if a name is used in front of the label that
declares it.

* `said` — what the labels among some items say about a name in the end. It depends on the items alone.
* `usesEarly` — the items use a name before a label has said anything about it.

**Theorem (`steps_addItems`).** In two worlds that agree on the arities of all names that are used early, the
same items are added in the same way. Afterwards the arity of a name is what the labels have said about it,
or what it was.

The induction is on the items, for all worlds that agree on what the items that remain use early.
-/

namespace BlockLang

open CallTree

/-! ## What labels say -/

namespace World

/-- What a label in front of the items says about its name: its arity, or that it has none. -/
def labelSays (rest : List Value) : Option (Option Nat) :=
  match declaredArity? rest with
  | some arity => some (some arity)
  | none => if startsPlain rest then some none else none

mutual

/-- What the labels among the items say about a name in the end, if anything. Behind `::` there are no
labels, only what becomes a block. -/
def said (name : String) : List Value → Option (Option Nat)
  | [] => none
  | .symbol .doubleColon :: _ => none
  | item :: rest => said name rest <|> saidAt name rest item
termination_by structural l => l

/-- What an item in front of others says about a name. -/
def saidAt (name : String) (rest : List Value) : Value → Option (Option Nat)
  | .label other => if other = name then labelSays rest else none
  | .inline items => said name items
  | _ => none
termination_by structural v => v

end

mutual

/-- The items use a name before a label has said anything about it. -/
def usesEarly (name : String) : List Value → Bool
  | [] => false
  | .symbol .doubleColon :: _ => false
  | item :: rest => usesAt name item || (saidAt name rest item).isNone && usesEarly name rest
termination_by structural l => l

/-- An item uses a name, by itself or through a symbol that stands for it. -/
def usesAt (name : String) : Value → Bool
  | .word other => other == name
  | .symbol s => s.alias?.any (·.name == name)
  | .inline items => usesEarly name items
  | _ => false
termination_by structural v => v

end

variable {name : String} {item : Value} {rest : List Value}

theorem said_cons (hi : item ≠ .symbol .doubleColon) :
    said name (item :: rest) = (said name rest <|> saidAt name rest item) :=
  said.eq_3 name item rest hi

theorem usesEarly_cons (hi : item ≠ .symbol .doubleColon) : usesEarly name (item :: rest) =
    (usesAt name item || (saidAt name rest item).isNone && usesEarly name rest) :=
  usesEarly.eq_3 name item rest hi

/-- A label changes an arity to what it says about it. -/
theorem arity?_declare (w : World) (label : String) (rest : List Value) (name : String) :
    (declare w label rest).arity? name = (saidAt name rest (.label label)).getD (w.arity? name) := by
  unfold declare saidAt labelSays
  by_cases hn : label = name
  · subst hn
    rw [if_pos rfl]
    cases declaredArity? rest with
    | some arity => exact NameTable.get?_insert_self
    | none =>
      by_cases hp : startsPlain rest
      · simp only [hp, if_true, Option.getD_some]
        exact NameTable.get?_erase_self
      · simp [hp]
  · rw [if_neg hn, Option.getD_none]
    cases declaredArity? rest with
    | some arity => exact NameTable.get?_insert_of_ne (Ne.symm hn)
    | none =>
      by_cases hp : startsPlain rest
      · simp only [hp, if_true]
        exact NameTable.get?_erase_of_ne (Ne.symm hn)
      · simp [hp]

/-- The second of two sequences of items is what remains of the first, where nothing was said in
between. -/
structure Drops (l l' : List Value) : Prop where
  early : ∀ name, usesEarly name l' → usesEarly name l
  said : ∀ name, said name l' = said name l

protected theorem Drops.refl (l : List Value) : Drops l l := ⟨fun _ => id, fun _ => rfl⟩

protected theorem Drops.trans {l l' l'' : List Value} (h : Drops l l') (h' : Drops l' l'') :
    Drops l l'' :=
  ⟨fun name hn => h.early name (h'.early name hn), fun name => (h'.said name).trans (h.said name)⟩

/-- An item that says nothing about any name. -/
def IsSilent (item : Value) : Prop :=
  item ≠ .symbol .doubleColon ∧ ∀ name rest, saidAt name rest item = none

theorem drops_silent (hi : IsSilent item) : Drops (item :: rest) rest := by
  refine ⟨fun name hn => ?_, fun name => ?_⟩
  · rw [usesEarly_cons hi.1, hi.2, hn]
    simp
  · rw [said_cons hi.1, hi.2]
    simp

end World

/-! ## What building reads -/

/-- Worlds that building cannot tell apart by some items: they agree on the arities of the names that the
items use early, or of all names if that is asked for. -/
structure World.AlikeFor (full : Prop) (l : List Value) (w w' : World) : Prop where
  bindings : w.scope.bindings = w'.scope.bindings
  heap : w.heap.SameShape w'.heap
  arity? : ∀ name, full ∨ World.usesEarly name l → w.arity? name = w'.arity? name

namespace World.AlikeFor

variable {full : Prop} {l l' rest : List Value} {w w' : World}

theorem drops (h : AlikeFor full l w w') (hl : Drops l l') : AlikeFor full l' w w' :=
  ⟨h.bindings, h.heap, fun name hn => h.arity? name (hn.imp_right (hl.early name))⟩

theorem sameReading (h : AlikeFor full l w w') : w.SameReading w' := ⟨h.bindings, h.heap⟩

theorem callHead (h : AlikeFor full l w w') : w.callHead = w'.callHead := h.sameReading.callHead

/-- The worlds agree on the arity of a name that the next item uses. -/
theorem arity?_next {item : Value} {name : String} (h : AlikeFor full (item :: rest) w w')
    (hi : item ≠ .symbol .doubleColon) (hn : usesAt name item) : w.arity? name = w'.arity? name := by
  refine h.arity? name (.inr ?_)
  rw [usesEarly_cons hi, hn, Bool.true_or]

theorem arity?_word {name : String} (h : AlikeFor full (.word name :: rest) w w') :
    w.arity? name = w'.arity? name := h.arity?_next (by simp) (by simp [usesAt])

theorem arity?_symbol {s : Symbol} {target : Alias} (h : AlikeFor full (.symbol s :: rest) w w')
    (hs : s.alias? = some target) : w.arity? target.name = w'.arity? target.name := by
  refine h.arity?_next (fun hi => ?_) (by simp [usesAt, hs])
  cases hi
  cases hs

theorem operator? (h : AlikeFor full l w w') : w.operator? l = w'.operator? l := by
  unfold World.operator?
  split
  · next s rest =>
    cases hs : s.alias? with
    | none => rfl
    | some target => simp only [Option.bind_eq_bind, Option.bind_some, h.callHead, h.arity?_symbol hs]
  · rfl

theorem attach (h : AlikeFor full l w w') (d : Draft) (t : CallTree) :
    w.attach d t l = w'.attach d t l := by
  simp only [World.attach, h.operator?]

theorem attachConstant (h : AlikeFor full l w w') (d : Draft) (v : Value) :
    w.attachConstant d v l = w'.attachConstant d v l := h.attach d _

theorem beginCall (h : AlikeFor full l w w') (d : Draft) (head : Head) (arity : Nat) :
    w.beginCall d head arity l = w'.beginCall d head arity l := by
  simp only [World.beginCall, h.attach]

theorem placePath (h : AlikeFor full l w w') (d : Draft) (segments : List Value) :
    w.placePath d segments l = w'.placePath d segments l := by
  simp only [World.placePath, h.sameReading.pathFunction?, h.attach, h.beginCall, h.heap.arity]

theorem splice (h : AlikeFor full l w w') (d : Draft) (trees : List CallTree) :
    w.splice d trees l = w'.splice d trees l := by
  simp only [World.splice, h.attach]

theorem placeholderForm? (h : AlikeFor full l w w') : w.placeholderForm? l = w'.placeholderForm? l := by
  unfold World.placeholderForm?
  split
  · rw [h.arity?_word]
  · rfl
  · rfl

theorem pipe? (h : AlikeFor full l w w') (d : Draft) : w.pipe? d l = w'.pipe? d l := by
  unfold World.pipe?
  split
  · simp only [h.callHead, h.arity?_word]
  · rfl

end World.AlikeFor

namespace World

variable {full : Prop} {α β : Type} {l l' rest : List Value} {item : Value} {w w' v v' : World}
  {d : Draft} {t : CallTree}

/-! ## Items that are used up -/

theorem isSilent_symbol {s : Symbol} (hs : s ≠ .doubleColon) : IsSilent (.symbol s) :=
  ⟨fun h => hs (Value.symbol.inj h), fun _ _ => rfl⟩

theorem isSilent_word (name : String) : IsSilent (.word name) := ⟨by simp, fun _ _ => rfl⟩

/-- A placement uses up items that follow, and those say nothing about any name. -/
def UsesUp (rest : List Value) (r : Draft × Nat) : Prop :=
  r.2 ≤ rest.length ∧ Drops rest (rest.drop r.2)

theorem usesUp_zero (d : Draft) : UsesUp rest (d, 0) := ⟨Nat.zero_le _, .refl rest⟩

theorem usesUp_one (hi : IsSilent item) (d : Draft) : UsesUp (item :: rest) (d, 1) :=
  ⟨by simp, drops_silent hi⟩

theorem usesUp_attach (w : World) (d : Draft) (t : CallTree) (rest : List Value) :
    UsesUp rest (w.attach d t rest) := by
  unfold attach
  cases ho : w.operator? rest with
  | none => exact usesUp_zero _
  | some r =>
    unfold operator? at ho
    split at ho
    · next s rest =>
      refine usesUp_one (isSilent_symbol fun hs => ?_) _
      subst hs
      cases ho
    · cases ho

theorem usesUp_beginCall (w : World) (d : Draft) (head : Head) (arity : Nat) (rest : List Value) :
    UsesUp rest (w.beginCall d head arity rest) := by
  unfold beginCall
  split
  · exact usesUp_attach ..
  · exact usesUp_zero _

theorem usesUp_placeWord (w : World) (d : Draft) (name : String) (rest : List Value) :
    UsesUp rest (w.placeWord d name rest) := by
  unfold placeWord
  split
  · exact usesUp_attach ..
  · split
    · exact usesUp_beginCall ..
    · exact usesUp_attach ..

theorem usesUp_placePath (w : World) (d : Draft) (segments rest : List Value) :
    UsesUp rest (w.placePath d segments rest) := by
  unfold placePath
  split
  · exact usesUp_beginCall ..
  · exact usesUp_attach ..

theorem usesUp_placeSymbol (w : World) (d : Draft) (s : Symbol) (rest : List Value) :
    UsesUp rest (w.placeSymbol d s rest) := by
  unfold placeSymbol
  split
  · exact usesUp_attach ..
  · split
    · exact usesUp_attach ..
    · split
      · exact usesUp_beginCall ..
      · exact usesUp_attach ..

theorem usesUp_splice (w : World) (d : Draft) (trees : List CallTree) (rest : List Value) :
    UsesUp rest (w.splice d trees rest) := by
  unfold splice
  split
  · exact usesUp_zero _
  · exact usesUp_attach ..

/-! ## Two builds side by side -/

/-- Going from the items `l` to those that remain of them, the arity that a name will have in the end
has stayed the same: what is still to be said about it, or what it is. -/
def Foretells (l l' : List Value) (w v : World) : Prop :=
  ∀ name, (said name l').getD (v.arity? name) = (said name l).getD (w.arity? name)

/-- Two builds of the items `l` have come to the items `l'` that remain of them. -/
structure Moves (full : Prop) (l l' : List Value) (w w' v v' : World) : Prop where
  alike : AlikeFor full l' v v'
  left : Foretells l l' w v
  right : Foretells l l' w' v'

/-- Two builds have the same result, and what remains of the items is given by it; or they fail
alike. -/
def Together (full : Prop) (l : List Value) (remains : α → List Value) (P : α → Prop) (w w' : World) :
    Except BuildError α × World → Except BuildError α × World → Prop
  | (.ok a, v), (.ok a', v') => a = a' ∧ P a ∧ Moves full l (remains a) w w' v v'
  | (.error e, v), (.error e', v') => e = e' ∧ AlikeFor full [] v v'
  | _, _ => False

/-- A piece of a build does the same in all worlds that are alike for the items. -/
def Steps (full : Prop) (l : List Value) (remains : α → List Value) (P : α → Prop) (x : BuildM α) :
    Prop :=
  ∀ w w', AlikeFor full l w w' → Together full l remains P w w' (x.run.run w) (x.run.run w')

theorem Moves.trans {l'' : List Value} {u u' : World} (h : Moves full l l' w w' v v')
    (h' : Moves full l' l'' v v' u u') : Moves full l l'' w w' u u' :=
  ⟨h'.alike, fun name => (h'.left name).trans (h.left name),
    fun name => (h'.right name).trans (h.right name)⟩

theorem Drops.moves (hl : Drops l l') (h : AlikeFor full l w w') : Moves full l l' w w' w w' :=
  ⟨h.drops hl, fun name => by rw [hl.said], fun name => by rw [hl.said]⟩

namespace Steps

variable {remains : α → List Value} {P : α → Prop} {x : BuildM α} {remains' : β → List Value}
  {P' : β → Prop} {f : α → BuildM β}

protected theorem pure {a : α} (ha : P a) (hl : Drops l (remains a)) :
    Steps full l remains P (pure a) := fun _ _ h => ⟨rfl, ha, hl.moves h⟩

protected theorem bind (hx : Steps full l remains P x)
    (hf : ∀ a, P a → Steps full (remains a) remains' P' (f a)) :
    Steps full l remains' P' (x >>= f) := by
  intro w w' h
  have hxw := hx w w' h
  rw [run_bind, run_bind]
  revert hxw
  rcases x.run.run w with ⟨e | a, v⟩ <;> rcases x.run.run w' with ⟨e' | a', v'⟩ <;> intro hxw
  · exact hxw
  · exact hxw.elim
  · exact hxw.elim
  · obtain ⟨rfl, ha, hm⟩ := hxw
    have hfa := hf a ha v v' hm.alike
    dsimp only
    revert hfa
    rcases (f a).run.run v with ⟨e | b, u⟩ <;> rcases (f a).run.run v' with ⟨e' | b', u'⟩ <;> intro hfa
    · exact hfa
    · exact hfa.elim
    · exact hfa.elim
    · exact ⟨hfa.1, hfa.2.1, hm.trans hfa.2.2⟩

/-- What building does next is what it does in any world that is alike. -/
theorem get_bind {f : World → BuildM β} (hf : ∀ w w', AlikeFor full l w w' → f w = f w')
    (h : ∀ w, Steps full l remains' P' (f w)) : Steps full l remains' P' (get >>= f) := by
  intro w w' hw
  change Together full l remains' P' w w' ((f w).run.run w) ((f w').run.run w')
  rw [← hf w w' hw]
  exact h w w w' hw

theorem drops (hl : Drops l l') (h : Steps full l' remains P x) : Steps full l remains P x := by
  intro w w' hw
  have hx := h w w' (hw.drops hl)
  revert hx
  rcases x.run.run w with ⟨e | a, v⟩ <;> rcases x.run.run w' with ⟨e' | a', v'⟩ <;> intro hx
  · exact hx
  · exact hx
  · exact hx
  · exact ⟨hx.1, hx.2.1, (hl.moves hw).trans hx.2.2⟩

protected theorem mono {remains'' : α → List Value} {P'' : α → Prop} (h : Steps full l remains P x)
    (hP : ∀ a, P a → P'' a ∧ remains a = remains'' a) : Steps full l remains'' P'' x := by
  intro w w' hw
  have hx := h w w' hw
  revert hx
  rcases x.run.run w with ⟨e | a, v⟩ <;> rcases x.run.run w' with ⟨e' | a', v'⟩ <;> intro hx
  · exact hx
  · exact hx
  · exact hx
  · obtain ⟨ha, hr⟩ := hP a hx.2.1
    exact ⟨hx.1, ha, hr ▸ hx.2.2⟩

end Steps

/-- After an item, the arities of names are what it has said about them, or what they were. -/
theorem moves_said (hi : item ≠ .symbol .doubleColon) (h : AlikeFor full (item :: rest) w w')
    (hv : ∀ name, v.arity? name = (saidAt name rest item).getD (w.arity? name))
    (hv' : ∀ name, v'.arity? name = (saidAt name rest item).getD (w'.arity? name))
    (hb : v.scope.bindings = v'.scope.bindings) (hh : v.heap.SameShape v'.heap) :
    Moves full (item :: rest) rest w w' v v' := by
  have hforetells {w v : World}
      (hv : ∀ name, v.arity? name = (saidAt name rest item).getD (w.arity? name)) :
      Foretells (item :: rest) rest w v := by
    intro name
    rw [said_cons hi, hv]
    cases said name rest <;> rfl
  refine ⟨⟨hb, hh, fun name hn => ?_⟩, hforetells hv, hforetells hv'⟩
  rw [hv, hv']
  cases hs : saidAt name rest item with
  | some arity? => rfl
  | none =>
    refine h.arity? name (hn.imp_right fun he => ?_)
    rw [usesEarly_cons hi, hs, he]
    simp

/-! ## Items -/

/-- A label says what it says, and begins a binding. -/
theorem steps_label (name : String) (d : Draft) :
    Steps full (.label name :: rest) (rest.drop ·.2) (·.2 ≤ rest.length)
      (do modify (declare · name rest); return (d.begin (.store name) 1, 0)) := by
  intro w w' h
  have hkeeps (w : World) : (declare w name rest).scope.bindings = w.scope.bindings ∧
      (declare w name rest).heap = w.heap := by
    rcases declare_eq name rest with he | ⟨a, he⟩ <;> rw [he] <;> exact ⟨rfl, rfl⟩
  refine ⟨rfl, Nat.zero_le _, moves_said (by simp) h (arity?_declare w name rest)
    (arity?_declare w' name rest) ?_ ?_⟩
  · exact (hkeeps w).1.trans (h.bindings.trans (hkeeps w').1.symm)
  · rw [(hkeeps w).2, (hkeeps w').2]
    exact h.heap

theorem steps_learnAll (names : List String) :
    Steps full l (fun _ => l) (fun _ => True) (modify (learnAll · names) : BuildM PUnit) := by
  intro w w' h
  obtain ⟨names₁, he⟩ := learnAll_eq w names
  obtain ⟨names₂, he'⟩ := learnAll_eq w' names
  have hsame : AlikeFor full l (w.learnAll names) (w'.learnAll names) := by
    rw [he, he']
    exact ⟨h.bindings, h.heap, h.arity?⟩
  refine ⟨rfl, trivial, hsame, fun name => ?_, fun name => ?_⟩
  · dsimp only
    rw [he]
    rfl
  · dsimp only
    rw [he']
    rfl

theorem steps_placeThickArrow (d : Draft) :
    Steps full rest (rest.drop ·.2) (·.2 ≤ rest.length) (placeThickArrow d rest) := by
  unfold placeThickArrow
  refine Steps.get_bind (fun w w' h => by rw [h.placeholderForm?]) fun w => ?_
  split
  · next names body hform =>
    -- the form is a word or a block, which says nothing
    obtain ⟨item, tail, rfl, hsilent⟩ : ∃ item tail, rest = item :: tail ∧ IsSilent item := by
      unfold placeholderForm? at hform
      split at hform
      · exact ⟨_, _, rfl, isSilent_word _⟩
      · exact ⟨_, _, rfl, by simp, fun _ _ => rfl⟩
      · cases hform
    refine (steps_learnAll names).bind fun _ _ => Steps.drops (drops_silent hsilent) ?_
    refine Steps.get_bind (fun w w' h => by rw [List.tail_cons, h.attachConstant]) fun w => ?_
    obtain ⟨hn, hl⟩ := usesUp_attach w (d.put (.constant (.block (names.map .word) false)))
      (.constant (.block body false)) tail
    exact Steps.pure (Nat.succ_le_succ hn) hl
  · refine Steps.get_bind (fun w w' h => by rw [h.attachConstant]) fun w => ?_
    have hu := usesUp_attach w d (.constant (.symbol .thickArrow)) rest
    exact Steps.pure hu.1 hu.2

/-- **An item is placed in the same way in worlds that are alike for it and the items behind it.** -/
theorem steps_placeItem (hi : ∀ items, item ≠ .inline items) (d : Draft) :
    Steps full (item :: rest) (rest.drop ·.2) (·.2 ≤ rest.length) (placeItem d item rest) := by
  have placed (hs : IsSilent item) {g : World → Draft × Nat}
      (hg : ∀ w w', AlikeFor full (item :: rest) w w' → AlikeFor full rest w w' → g w = g w')
      (hu : ∀ w, UsesUp rest (g w)) :
      Steps full (item :: rest) (rest.drop ·.2) (·.2 ≤ rest.length)
        (do let w ← get; pure (g w) : BuildM _) := by
    refine Steps.get_bind (fun w w' h => ?_) fun w => ?_
    · rw [hg w w' h (h.drops (drops_silent hs))]
    · exact Steps.pure (hu w).1 ((drops_silent hs).trans (hu w).2)
  have attached (hs : IsSilent item) (v : Value) :
      Steps full (item :: rest) (rest.drop ·.2) (·.2 ≤ rest.length)
        (do let w ← get; pure (w.attachConstant d v rest) : BuildM _) :=
    placed hs (fun _ _ _ h => h.attachConstant d v) fun w => usesUp_attach w d _ rest
  cases item with
  | word name =>
    refine placed (isSilent_word name) (fun w w' hname h => ?_) fun w => usesUp_placeWord w d name rest
    simp only [placeWord, h.attachConstant, h.attach, h.beginCall, h.callHead, hname.arity?_word]
  | label name => exact steps_label name d
  | attr name => exact placed ⟨by simp, fun _ _ => rfl⟩ (fun _ _ _ _ => rfl) fun _ => usesUp_zero _
  | attrLabel name => exact placed ⟨by simp, fun _ _ => rfl⟩ (fun _ _ _ _ => rfl) fun _ => usesUp_zero _
  | path segments =>
    exact placed ⟨by simp, fun _ _ => rfl⟩ (fun _ _ _ h => h.placePath d segments)
      fun w => usesUp_placePath w d segments rest
  | pathLabel segments =>
    unfold placeItem
    refine Steps.get_bind (fun _ _ _ => rfl) fun _ => ?_
    dsimp only
    cases placePathLabel d segments with
    | error e => exact fun w w' h => ⟨rfl, h.bindings, h.heap, fun name hn => h.arity? name (.inl (by simpa [usesEarly] using hn))⟩
    | ok d' => exact Steps.pure (Nat.zero_le _) (drops_silent ⟨by simp, fun _ _ => rfl⟩)
  | newline line => exact placed ⟨by simp, fun _ _ => rfl⟩ (fun _ _ _ _ => rfl) fun _ => usesUp_zero _
  | inline items => exact absurd rfl (hi items)
  | symbol s =>
    cases s with
    | doubleColon =>
      -- all items that remain become a block, so none of them is looked at
      have hblock : Drops (.symbol .doubleColon :: rest) [] :=
        ⟨fun _ hn => Bool.noConfusion hn, fun _ => rfl⟩
      unfold placeItem
      refine Steps.get_bind (fun w w' h => ?_) fun w => Steps.pure (Nat.le_refl _) ?_
      · dsimp only
        rw [(h.drops hblock).attachConstant]
      · rwa [List.drop_length]
    | thickArrow =>
      exact Steps.get_bind (fun _ _ _ => rfl) fun _ =>
        Steps.drops (drops_silent (isSilent_symbol (by decide))) (steps_placeThickArrow d)
    | pipe =>
      have hpipe : Drops (.symbol .pipe :: rest) rest := drops_silent (isSilent_symbol (by decide))
      unfold placeItem
      refine Steps.get_bind (fun w w' h => ?_) fun w => ?_
      · dsimp only
        rw [(h.drops hpipe).pipe?, (h.drops hpipe).attachConstant]
      · dsimp only
        cases hp : w.pipe? d rest with
        | none =>
          have hu := usesUp_attach w d (.constant (.symbol .pipe)) rest
          exact Steps.pure hu.1 (hpipe.trans hu.2)
        | some d' =>
          unfold World.pipe? at hp
          split at hp
          · exact Steps.pure (by simp) (hpipe.trans (drops_silent (isSilent_word _)))
          · cases hp
    | _ =>
      refine placed (isSilent_symbol (by decide)) (fun w w' hs h => ?_)
        fun w => usesUp_placeSymbol w d _ rest
      unfold placeSymbol
      split
      · exact h.attachConstant d _
      · next target hs' => simp only [h.attachConstant, h.beginCall, h.callHead, hs.arity?_symbol hs']
  | _ => exact attached ⟨by simp, fun _ _ => rfl⟩ _

/-! ## Sequences of items -/

/-- No more items are used than there are, and all of them unless building stops behind the first
expression. -/
def Counts (one : Bool) (used : Nat) (l : List Value) (r : Draft × Nat) : Prop :=
  used ≤ r.2 ∧ r.2 ≤ used + l.length ∧ (one = false → r.2 = used + l.length)

theorem steps_placed {r : Draft × Nat} (hr : r.2 ≤ rest.length) (hl : Drops l (rest.drop r.2)) :
    Steps full l (rest.drop ·.2) (·.2 ≤ rest.length) (pure r : BuildM _) := Steps.pure hr hl

theorem steps_finish (d : Draft) (used : Nat) :
    Steps full [] (fun _ => []) (Counts false used []) (finish d used) := by
  refine Steps.get_bind (fun w w' h => by rw [h.sameReading.check]) fun w => ?_
  cases d.check w.heap with
  | ok _ => exact Steps.pure ⟨Nat.le_refl _, Nat.le_refl _, fun _ => rfl⟩ (.refl [])
  | error e => exact fun w w' h => ⟨rfl, h⟩

/-- An inline says what its items say. -/
theorem steps_of_inline {items : List Value} {x : BuildM α}
    (h : Steps full items (fun _ => []) (fun _ => True) x) :
    Steps full (.inline items :: rest) (fun _ => rest) (fun _ => True) x := by
  intro w w' hw
  have hitems : AlikeFor full items w w' := by
    refine ⟨hw.bindings, hw.heap, fun name hn => hw.arity? name (hn.imp_right fun he => ?_)⟩
    rw [usesEarly_cons (by simp), usesAt, he, Bool.true_or]
  have hx := h w w' hitems
  revert hx
  rcases x.run.run w with ⟨e | a, v⟩ <;> rcases x.run.run w' with ⟨e' | a', v'⟩ <;> intro hx
  · exact hx
  · exact hx
  · exact hx
  · obtain ⟨ha, -, hm⟩ := hx
    exact ⟨ha, trivial, moves_said (by simp) hw hm.left hm.right hm.alike.bindings hm.alike.heap⟩

mutual

/-- **Items are added in the same way in worlds that are alike for them.** -/
theorem steps_addItems (one : Bool) (d : Draft) (skip used : Nat) : (l : List Value) →
    skip ≤ l.length →
    Steps full (l.drop skip) (fun r => l.drop (r.2 - used)) (Counts one used l)
      (addItems one d skip used l)
  | [], _ => by
    rw [addItems, List.drop_nil]
    exact (steps_finish d used).mono fun r ⟨hle, hge, heq⟩ =>
      ⟨⟨hle, hge, fun _ => heq rfl⟩, List.drop_nil.symm⟩
  | item :: rest, hskip => by
    -- the items that were used behind the first one
    have onward {r : Draft × Nat} (hr : Counts one (used + 1) rest r) :
        Counts one used (item :: rest) r ∧
          rest.drop (r.2 - (used + 1)) = (item :: rest).drop (r.2 - used) := by
      obtain ⟨hle, hge, heq⟩ := hr
      have hsub : r.2 - used = r.2 - (used + 1) + 1 := by omega
      refine ⟨⟨by omega, ?_, fun ho => ?_⟩, by rw [hsub, List.drop_succ_cons]⟩
      · rw [List.length_cons]
        omega
      · rw [List.length_cons, heq ho]
        omega
    cases skip with
    | succ skip =>
      rw [addItems]
      exact (steps_addItems one d skip (used + 1) rest (by simpa using hskip)).mono fun _ => onward
    | zero =>
      -- what follows an item does not depend on how the item was placed
      have proceed (r : Draft × Nat) (hr : r.2 ≤ rest.length) :
          Steps full (rest.drop r.2) (fun q => (item :: rest).drop (q.2 - used))
            (Counts one used (item :: rest))
            (if one && r.1.isSettled then pure (r.1, used + 1 + r.2)
              else addItems one r.1 r.2 (used + 1) rest) := by
        split
        · next hone =>
          have hcount : used + 1 + r.2 - used = r.2 + 1 := by omega
          refine Steps.pure ⟨by omega, ?_, fun ho => ?_⟩ ?_
          · rw [List.length_cons]
            omega
          · rw [ho] at hone
            cases hone
          · rw [hcount, List.drop_succ_cons]
            exact .refl _
        · exact (steps_addItems one r.1 r.2 (used + 1) rest hr).mono fun _ => onward
      by_cases hin : ∃ items, item = .inline items
      · obtain ⟨items, rfl⟩ := hin
        rw [addItems]
        refine (steps_inlineTrees rest _ ⟨items, rfl⟩).bind fun trees _ => ?_
        refine Steps.get_bind (fun w w' h => by rw [h.splice]) fun w => ?_
        have hu := usesUp_splice w d trees rest
        exact (steps_placed hu.1 hu.2).bind proceed
      · by_cases harrow : item = .symbol .arrow
        · subst harrow
          rw [addItems]
          refine Steps.drops (drops_silent (isSilent_symbol (by decide))) ?_
          refine (steps_addItems true {} 0 0 rest (Nat.zero_le _)).bind ?_
          rintro ⟨d₁, count⟩ ⟨-, hcount, -⟩
          rw [Nat.sub_zero]
          refine Steps.get_bind (fun w w' h => by rw [h.attachConstant]) fun w => ?_
          obtain ⟨hn, hl⟩ :=
            usesUp_attach w d (.constant (.block (rest.take count) false)) (rest.drop count)
          rw [List.drop_drop] at hl
          rw [List.length_drop] at hn
          dsimp only at hcount
          refine (steps_placed ?_ hl).bind proceed
          exact Nat.add_le_of_le_sub' (by omega) hn
        · rw [addItems.eq_5 _ _ _ _ _ (fun items h => hin ⟨items, h⟩) harrow]
          exact (steps_placeItem (fun items h => hin ⟨items, h⟩) d).bind proceed

theorem steps_inlineTrees (rest : List Value) : (v : Value) → (∃ items, v = .inline items) →
    Steps full (v :: rest) (fun _ => rest) (fun _ => True) (inlineTrees v)
  | .inline items, _ => by
    rw [inlineTrees]
    refine steps_of_inline ((steps_addItems false {} 0 0 items (Nat.zero_le _)).bind fun r hr => ?_)
    refine Steps.pure trivial ?_
    rw [hr.2.2 rfl, Nat.add_sub_cancel_left, List.drop_length]
    exact .refl []

end

/-! ## Call trees -/

/-- **The same call trees are built in worlds that are alike for the items.** -/
theorem together_callTrees {items : List Value} (h : AlikeFor full items w w') :
    Together full items (fun _ => []) (fun _ => True) w w' (w.callTrees items)
      (w'.callTrees items) := by
  have hx := steps_addItems false {} 0 0 items (Nat.zero_le _) w w' h
  rw [callTrees_eq, callTrees_eq]
  revert hx
  rcases (addItems false {} 0 0 items).run.run w with ⟨e | r, v⟩ <;>
    rcases (addItems false {} 0 0 items).run.run w' with ⟨e' | r', v'⟩ <;> intro hx
  · exact hx
  · exact hx
  · exact hx
  · obtain ⟨rfl, hr, hm⟩ := hx
    have hall : items.drop (r.2 - 0) = [] := by
      rw [hr.2.2 rfl, Nat.sub_zero, Nat.zero_add, List.drop_length]
    dsimp only at hm
    rw [hall] at hm
    exact ⟨rfl, trivial, hm⟩

/-- What building changes of a world. -/
theorem rebuilt_callTrees (w : World) (items : List Value) : w.Rebuilt (w.callTrees items).2 :=
  (callTrees_alike (A := fun _ => True) (.refl w) fun v _ => v.codesIn_true).alike.2.1

end World

end BlockLang
