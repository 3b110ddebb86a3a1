import Mathlib.Data.List.Forall2
import BlockLang.Proofs.CallTree.Building
import BlockLang.Proofs.CallTree.Operands

/-!
# How the names of calls are resolved

The builder decides what a call by name does as it reads the name: the opcode of an operation if the name
still has its first binding, and the name itself otherwise. The calls as they are written are what it
builds in a world without those bindings (`World.unhooked`): there every call by name is left to be looked up.

**Theorem (`resolves_callTrees`).** The call trees of some items are those written, with each head
resolved in the world in which they are built, and each call simplified when it got its last operand
(`Resolves`). Everything else is built alike: which items are operands of which calls does not depend on what
the calls do.

The two builds are followed side by side. What a label says changes arities only, and neither heads nor
the bindings that were taken away depend on those.
-/

namespace BlockLang

/-- What a head comes to, if some names have opcodes. -/
def Head.resolve (ops : String → Option Opcode) : Head → Head
  | .other (.word name) =>
    match ops name with
    | some op => .operation op
    | none => .other (.word name)
  | head => head

/-- The head of a call as it is written. The operations are those that paths stand for. -/
def Head.IsWritten : Head → Prop
  | .operation op => op = .get ∨ op = .set
  | _ => True

namespace CallTree

variable {ops : String → Option Opcode} {t u : CallTree} {l l' children : List CallTree} {head : Head}
  {arity : Nat} {name : String}

/-! ## What simplifying leaves alone -/

/-- The tree is a call of an operation, or a constant. -/
def IsComputed : CallTree → Prop
  | call (.operation _) .. | constant _ => True
  | _ => False

theorem isComputed_fold {op : Arith} {a b c : CallTree} (h : fold? op a b = some c) : c.IsComputed := by
  unfold fold? at h
  split at h
  · split at h
    · split at h <;> cases h
      trivial
    · cases h
  · cases h

theorem isComputed_simplifyBinary {op : Opcode} {left right c : CallTree}
    (h : simplifyBinary? op left right = some c) : c.IsComputed := by
  have shared {x : CallTree} {factors : CallTree × CallTree}
      (h : (cofactor? x factors).map (fun y => operation .mul [x, successor y]) = some c) :
      c.IsComputed := by
    obtain ⟨y, -, rfl⟩ := Option.map_eq_some_iff.1 h
    trivial
  simp only [simplifyBinary?, Option.orElse_eq_orElse, Option.orElse_eq_or, Option.or_eq_some_iff] at h
  rcases h with h | ⟨-, h⟩
  · obtain ⟨arith, -, h⟩ := Option.bind_eq_some_iff.1 h
    exact isComputed_fold h
  · split at h
    · split at h
      · cases h
        trivial
      · split at h
        · cases h
          trivial
        · unfold shareFactor? at h
          split at h
          · exact shared h
          · exact shared h
          · cases h
    · split at h
      · cases h
        trivial
      · cases h
    · cases h

/-- **Simplifying** leaves a tree as it is, or turns the call of an operation into another one, or into a
constant. -/
theorem simplify_cases (t : CallTree) : t.simplify = t ∨ t.IsComputed ∧ t.simplify.IsComputed := by
  unfold simplify
  split
  · split
    · exact .inr ⟨trivial, trivial⟩
    · next left right _ _ =>
      cases hs : simplifyBinary? _ left right with
      | none => exact .inl rfl
      | some c => exact .inr ⟨trivial, isComputed_simplifyBinary hs⟩
    · exact .inl rfl
  · exact .inl rfl

/-- A call as it is written is in its simplest form. -/
theorem simplify_written (h : head.IsWritten) (arity : Nat) (children : List CallTree) :
    (call head arity children).simplify = call head arity children := by
  cases head with
  | operation op =>
    have hbinary (left right : CallTree) : simplifyBinary? op left right = none := by
      rcases h with rfl | rfl <;> rfl
    unfold simplify
    dsimp only
    split
    · rcases h with h | h <;> cases h
    · rw [hbinary]
      rfl
    · rfl
  | _ => rfl

/-! ## Trees -/

/-- A call, simplified or not. -/
def finished (simplifying : Bool) (t : CallTree) : CallTree := if simplifying then t.simplify else t

/-- The second tree is what the first one, which is as it is written, has been built to: its heads are
resolved, and its calls are simplified, from the inside to the outside. -/
inductive Resolves (ops : String → Option Opcode) : CallTree → CallTree → Prop
  | constant (v : Value) : Resolves ops (constant v) (constant v)
  | load (name : String) : Resolves ops (load name) (load name)
  | call {head : Head} {arity : Nat} {children children' : List CallTree} (simplifying : Bool)
      (hh : head.IsWritten) (hc : List.Forall₂ (Resolves ops) children children') :
      Resolves ops (call head arity children)
        (finished simplifying (call (head.resolve ops) arity children'))

theorem finished_cases (simplifying : Bool) (t : CallTree) :
    finished simplifying t = t ∨ t.IsComputed ∧ (finished simplifying t).IsComputed := by
  cases simplifying with
  | true => exact simplify_cases t
  | false => exact .inl rfl

theorem IsComputed.isAttr (h : t.IsComputed) : t.isAttr = false := by
  cases t with
  | call head arity children => cases head <;> trivial
  | _ => rfl

namespace Resolves

theorem isAttr (h : Resolves ops t u) : u.isAttr = t.isAttr := by
  cases h with
  | constant | load => rfl
  | @call head arity children children' simplifying hh _ =>
    have hhead : (CallTree.call (head.resolve ops) arity children').isAttr =
        (CallTree.call head arity children).isAttr := by
      cases head with
      | other target =>
        unfold Head.resolve
        split
        · split <;> rfl
        · rfl
      | _ => rfl
    rcases finished_cases simplifying (.call (head.resolve ops) arity children') with he | ⟨ht, hu⟩
    · rw [he, hhead]
    · rw [hu.isAttr, ← hhead, ht.isAttr]

theorem operands (h : List.Forall₂ (Resolves ops) l l') :
    List.Forall₂ (Resolves ops) (operands l) (operands l') := by
  induction h with
  | nil => exact .nil
  | @cons t u l l' ht _ ih =>
    rw [operands_cons, operands_cons, ht.isAttr]
    split
    · exact ih
    · exact .cons ht ih

theorem length_operands (h : List.Forall₂ (Resolves ops) l l') :
    (CallTree.operands l').length = (CallTree.operands l).length :=
  (operands h).length_eq.symm

theorem of_store (h : Resolves ops (.call (.store name) arity children) u) :
    ∃ children', List.Forall₂ (Resolves ops) children children' ∧
      u = .call (.store name) arity children' := by
  cases h with
  | @call _ _ _ children' simplifying _ hc =>
    rcases finished_cases simplifying (.call ((Head.store name).resolve ops) arity children') with
      he | ⟨ht, -⟩
    · exact ⟨children', hc, he⟩
    · exact ht.elim

theorem resolve_eq_store (h : head.resolve ops = .store name) : head = .store name := by
  cases head with
  | other target =>
    unfold Head.resolve at h
    split at h
    · split at h <;> cases h
    · exact h
  | _ => exact h

theorem to_store (h : Resolves ops t (.call (.store name) arity children)) :
    ∃ children', t = .call (.store name) arity children' := by
  generalize hu : CallTree.call (.store name) arity children = u at h
  cases h with
  | constant | load => cases hu
  | @call head arity' children₁ children₂ simplifying _ _ =>
    rcases finished_cases simplifying (.call (head.resolve ops) arity' children₂) with he | ⟨-, hc⟩
    · rw [he] at hu
      obtain ⟨hhead, rfl, -⟩ := CallTree.call.inj hu
      rw [resolve_eq_store hhead.symm]
      exact ⟨children₁, rfl⟩
    · rw [← hu] at hc
      exact hc.elim

theorem splitOperand (h : List.Forall₂ (Resolves ops) l l') :
    Option.Rel (Resolves ops) (splitOperand l).1 (splitOperand l').1 ∧
      List.Forall₂ (Resolves ops) (splitOperand l).2 (splitOperand l').2 := by
  induction h with
  | nil => exact ⟨.none, .nil⟩
  | @cons t u l l' ht hl ih =>
    unfold CallTree.splitOperand
    rw [ht.isAttr]
    split
    · exact ⟨ih.1, .cons ht ih.2⟩
    · exact ⟨.some ht, hl⟩

end Resolves

/-! ## Drafts -/

variable {t u : CallTree} {f g : Frame} {d e : Draft}

/-- The call that the second frame makes is built from the one that the first makes. -/
structure Frame.Resolves (ops : String → Option Opcode) (f g : Frame) : Prop where
  head : g.head = f.head.resolve ops
  written : f.head.IsWritten
  arity : g.arity = f.arity
  given : List.Forall₂ (CallTree.Resolves ops) f.given g.given

/-- The second draft is built from the same items as the first. -/
structure Draft.Resolves (ops : String → Option Opcode) (d e : Draft) : Prop where
  opened : List.Forall₂ (Frame.Resolves ops) d.opened e.opened
  done : List.Forall₂ (CallTree.Resolves ops) d.done e.done

namespace Frame.Resolves

theorem push (hf : f.Resolves ops g) (ht : CallTree.Resolves ops t u) :
    (f.push t).Resolves ops (g.push u) := ⟨hf.head, hf.written, hf.arity, .cons ht hf.given⟩

theorem isFull (hf : f.Resolves ops g) : g.isFull = f.isFull := by
  rw [Frame.isFull, Frame.isFull, Frame.operandCount, Frame.operandCount,
    CallTree.Resolves.length_operands hf.given, hf.arity]

theorem close (hf : f.Resolves ops g) (simplifying : Bool) :
    CallTree.Resolves ops (f.close simplifying) (g.close simplifying) := by
  have hclose : f.close simplifying = f.tree := by
    cases simplifying with
    | true => exact simplify_written hf.written ..
    | false => rfl
  have hg : g.close simplifying =
      finished simplifying (.call (f.head.resolve ops) f.arity g.given.reverse) := by
    rw [← hf.head, ← hf.arity]
    rfl
  rw [hclose, hg]
  exact .call simplifying hf.written (List.rel_reverse hf.given)

end Frame.Resolves

namespace Draft.Resolves

protected theorem empty : Draft.Resolves ops {} {} := ⟨.nil, .nil⟩

theorem putInto (simplifying : Bool) {opened opened' : List Frame} {done done' : List CallTree}
    (ht : CallTree.Resolves ops t u) (ho : List.Forall₂ (Frame.Resolves ops) opened opened')
    (hd : List.Forall₂ (CallTree.Resolves ops) done done') :
    (Draft.putInto simplifying t done opened).Resolves ops
      (Draft.putInto simplifying u done' opened') := by
  induction ho generalizing t u with
  | nil => exact ⟨.nil, .cons ht hd⟩
  | @cons f g opened opened' hf ho ih =>
    have hpush := hf.push ht
    unfold Draft.putInto
    dsimp only
    rw [hpush.isFull]
    split
    · exact ih (hpush.close simplifying)
    · exact ⟨.cons hpush ho, hd⟩

/-- **A tree that is put into a draft** is given to the same call on both sides. -/
theorem put (hd : d.Resolves ops e) (ht : CallTree.Resolves ops t u) :
    (d.put t).Resolves ops (e.put u) := putInto true ht hd.opened hd.done

theorem putPlain (hd : d.Resolves ops e) (ht : CallTree.Resolves ops t u) :
    (d.putPlain t).Resolves ops (e.putPlain u) := putInto false ht hd.opened hd.done

theorem enter (hd : d.Resolves ops e) (hf : f.Resolves ops g) : (d.enter f).Resolves ops (e.enter g) :=
  ⟨.cons hf hd.opened, hd.done⟩

theorem begin (hd : d.Resolves ops e) (hh : head.IsWritten) (arity : Nat) :
    (d.begin head arity).Resolves ops (e.begin (head.resolve ops) arity) :=
  hd.enter ⟨rfl, hh, rfl, .nil⟩

theorem trees (hd : d.Resolves ops e) : List.Forall₂ (CallTree.Resolves ops) d.trees e.trees :=
  List.rel_reverse hd.done

theorem isSettled (hd : d.Resolves ops e) : e.isSettled = d.isSettled := by
  obtain ⟨_ | _, _ | _⟩ := d <;> obtain ⟨_ | _, _ | _⟩ := e <;> obtain ⟨_ | _, _ | _⟩ := hd <;> rfl

theorem takeOperand? (hd : d.Resolves ops e) :
    Option.Rel (fun p q => CallTree.Resolves ops p.1 q.1 ∧ p.2.Resolves ops q.2)
      d.takeOperand? e.takeOperand? := by
  obtain ⟨opened, done⟩ := d
  obtain ⟨opened', done'⟩ := e
  obtain ⟨ho, hdone⟩ := hd
  unfold Draft.takeOperand?
  cases ho with
  | nil =>
    obtain ⟨hoperand, hrest⟩ := CallTree.Resolves.splitOperand hdone
    dsimp only at hoperand hrest ⊢
    rcases hs : splitOperand done with ⟨operand?, rest⟩
    rcases hs' : splitOperand done' with ⟨operand?', rest'⟩
    rw [hs, hs'] at hoperand hrest
    cases hoperand with
    | none => exact .none
    | some ht => exact .some ⟨ht, .nil, hrest⟩
  | @cons f g opened opened' hf ho =>
    obtain ⟨hoperand, hrest⟩ := CallTree.Resolves.splitOperand hf.given
    dsimp only at hoperand hrest ⊢
    rcases hs : splitOperand f.given with ⟨operand?, rest⟩
    rcases hs' : splitOperand g.given with ⟨operand?', rest'⟩
    rw [hs, hs'] at hoperand hrest
    cases hoperand with
    | none => exact .none
    | some ht => exact .some ⟨ht, .cons ⟨hf.head, hf.written, hf.arity, hrest⟩ ho, hdone⟩

theorem rel_map {α β γ δ : Type} {R : α → β → Prop} {S : γ → δ → Prop} {f : α → γ} {g : β → δ}
    {a? : Option α} {b? : Option β} (h : Option.Rel R a? b?) (hf : ∀ a b, R a b → S (f a) (g b)) :
    Option.Rel S (a?.map f) (b?.map g) := by
  cases h with
  | none => exact .none
  | some hab => exact .some (hf _ _ hab)

/-- A call that takes its first operand from the trees in front of it. -/
theorem pipe? (hd : d.Resolves ops e) (hh : head.IsWritten) (arity : Nat) :
    Option.Rel (Draft.Resolves ops) (d.pipe? head arity) (e.pipe? (head.resolve ops) arity) := by
  refine rel_map (takeOperand? hd) ?_
  rintro ⟨latest, d⟩ ⟨latest', e⟩ ⟨ht, hd⟩
  dsimp only at ht hd ⊢
  split
  · next name n children =>
    obtain ⟨children', hc, rfl⟩ := ht.of_store
    obtain ⟨hoperand, hgiven⟩ := CallTree.Resolves.splitOperand (List.rel_reverse hc)
    dsimp only
    rcases hs : splitOperand children.reverse with ⟨stored?, given⟩
    rcases hs' : splitOperand children'.reverse with ⟨stored?', given'⟩
    rw [hs, hs'] at hoperand hgiven
    have hcall := (hd.enter (f := ⟨.store name, n, given⟩) (g := ⟨.store name, n, given'⟩)
      ⟨rfl, trivial, rfl, hgiven⟩).begin hh arity
    cases hoperand with
    | none => exact hcall
    | some hstored => exact hcall.put hstored
  · next hstore =>
    split
    · next name n children =>
      obtain ⟨children', rfl⟩ := ht.to_store
      exact absurd rfl (hstore name n children')
    · exact (hd.begin hh arity).put ht

end Draft.Resolves

end CallTree

theorem NameTable.get?_filter {α : Type} (t : NameTable α) (p : String → Bool) (name : String) :
    NameTable.get? (t.filter fun e => p e.1) name = if p name then t.get? name else none := by
  induction t with
  | nil => simp [NameTable.get?]
  | cons e t ih =>
    obtain ⟨key, v⟩ := e
    rw [List.filter_cons]
    by_cases hk : key = name
    · subst hk
      by_cases hp : p key <;> simp [hp, ih, NameTable.get?_cons]
    · by_cases hp : p key <;> simp [hp, ih, hk, NameTable.get?_cons]

namespace World

open CallTree

/-! ## A world in which no name has an opcode -/

/-- The world without the bindings of operations that calls by name have an opcode for. -/
def unhooked (w : World) : World :=
  { w with scope.bindings := w.scope.bindings.filter fun e => (w.opcodeOf? e.1).isNone }

variable {w : World} {ops : String → Option Opcode} {d e : Draft} {t u : CallTree} {name : String}
  {rest : List Value} {head : Head} {arity : Nat}

theorem get?_unhooked (w : World) (name : String) :
    w.unhooked.get? name = if (w.opcodeOf? name).isNone then w.get? name else none :=
  NameTable.get?_filter w.scope.bindings (fun name => (w.opcodeOf? name).isNone) name

theorem get?_unhooked_of_none (h : w.opcodeOf? name = none) : w.unhooked.get? name = w.get? name := by
  rw [get?_unhooked, h]
  rfl

theorem arity?_unhooked (w : World) (name : String) : w.unhooked.arity? name = w.arity? name := rfl

/-- A name that has an opcode is bound to a function. -/
theorem exists_function_of_opcodeOf? {op : Opcode} (h : w.opcodeOf? name = some op) :
    ∃ ref, w.get? name = some (.function ref) := by
  simp only [opcodeOf?, Option.bind_eq_bind, Option.bind_eq_some_iff] at h
  obtain ⟨b, -, v, hv, c, hc, -⟩ := h
  cases v with
  | function ref => exact ⟨ref, hv⟩
  | _ => cases hc

theorem opcodeOf?_unhooked (w : World) (name : String) : w.unhooked.opcodeOf? name = none := by
  cases h : w.opcodeOf? name with
  | some op =>
    have hget : w.unhooked.get? name = none := by
      rw [get?_unhooked, h]
      rfl
    unfold opcodeOf?
    rw [hget]
    cases Builtin.ofName? name <;> rfl
  | none =>
    have hsame : w.unhooked.opcodeOf? name = w.opcodeOf? name := by
      unfold opcodeOf?
      rw [get?_unhooked_of_none h]
      rfl
    rw [hsame, h]

/-! ## Placing items -/

/-- **A head** of a call by name is resolved to what it is in the world as it stands. -/
theorem resolve_callHead (w : World) (name : String) (eager : Bool) :
    (w.unhooked.callHead name eager).IsWritten ∧
      (w.unhooked.callHead name eager).resolve w.opcodeOf? = w.callHead name eager := by
  unfold callHead
  rw [opcodeOf?_unhooked]
  dsimp only
  cases h : w.opcodeOf? name with
  | some op =>
    have hget : w.unhooked.get? name = none := by
      rw [get?_unhooked, h]
      rfl
    rw [hget]
    exact ⟨trivial, by simp [Head.resolve, h]⟩
  | none =>
    rw [get?_unhooked_of_none h]
    dsimp only
    split
    · exact ⟨trivial, rfl⟩
    · exact ⟨trivial, by simp [Head.resolve, h]⟩

theorem operator?_unhooked (w : World) (rest : List Value) :
    Option.Rel (fun p q => p.1.IsWritten ∧ q = (p.1.resolve w.opcodeOf?, p.2))
      (w.unhooked.operator? rest) (w.operator? rest) := by
  unfold operator?
  split
  · next s rest =>
    simp only [arity?_unhooked]
    cases s.alias? with
    | none => exact .none
    | some target =>
      simp only [Option.bind_eq_bind, Option.bind_some]
      split
      · exact .none
      · cases w.arity? target.name with
        | none => exact .none
        | some arity =>
          simp only [Option.bind_some]
          split
          · exact .none
          · obtain ⟨hwritten, hhead⟩ := w.resolve_callHead target.name true
            exact .some ⟨hwritten, by rw [hhead]⟩
  · exact .none

/-- An item was placed on both sides, in the second draft as the world stands. -/
def SidesPlace (ops : String → Option Opcode) (q r : Draft × Nat) : Prop :=
  q.1.Resolves ops r.1 ∧ q.2 = r.2

theorem sidesPlace_attach (hd : d.Resolves w.opcodeOf? e) (ht : Resolves w.opcodeOf? t u)
    (rest : List Value) :
    SidesPlace w.opcodeOf? (w.unhooked.attach d t rest) (w.attach e u rest) := by
  have hop := w.operator?_unhooked rest
  unfold attach
  generalize w.unhooked.operator? rest = p? at hop
  generalize w.operator? rest = q? at hop
  cases hop with
  | none => exact ⟨hd.put ht, rfl⟩
  | some h =>
    obtain ⟨hwritten, rfl⟩ := h
    exact ⟨(hd.begin hwritten _).put ht, rfl⟩

theorem sidesPlace_attachConstant (hd : d.Resolves w.opcodeOf? e) (v : Value) (rest : List Value) :
    SidesPlace w.opcodeOf? (w.unhooked.attachConstant d v rest) (w.attachConstant e v rest) :=
  sidesPlace_attach hd (.constant v) rest

theorem sidesPlace_beginCall (hd : d.Resolves w.opcodeOf? e) (hh : head.IsWritten) (arity : Nat)
    (rest : List Value) :
    SidesPlace w.opcodeOf? (w.unhooked.beginCall d head arity rest)
      (w.beginCall e (head.resolve w.opcodeOf?) arity rest) := by
  unfold beginCall
  split
  · exact sidesPlace_attach hd (.call false hh .nil) rest
  · exact ⟨hd.begin hh arity, rfl⟩

theorem sidesPlace_callByName (hd : d.Resolves w.opcodeOf? e) (name : String) (eager : Bool)
    (arity : Nat) (rest : List Value) :
    SidesPlace w.opcodeOf? (w.unhooked.beginCall d (w.unhooked.callHead name eager) arity rest)
      (w.beginCall e (w.callHead name eager) arity rest) := by
  obtain ⟨hwritten, hhead⟩ := w.resolve_callHead name eager
  rw [← hhead]
  exact sidesPlace_beginCall hd hwritten arity rest

theorem sidesPlace_placeWord (hd : d.Resolves w.opcodeOf? e) (name : String) (rest : List Value) :
    SidesPlace w.opcodeOf? (w.unhooked.placeWord d name rest) (w.placeWord e name rest) := by
  unfold placeWord
  rw [arity?_unhooked]
  split
  · exact sidesPlace_attachConstant hd _ rest
  · split
    · exact sidesPlace_callByName hd name false _ rest
    · exact sidesPlace_attach hd (.load name) rest

theorem resolves_keys {keys : List Value} {start : CallTree} (hs : Resolves ops start start) :
    let t := keys.foldl (fun t key => .call (.operation .get) 2 [t, .constant (segmentKey key)]) start
    Resolves ops t t := by
  induction keys generalizing start with
  | nil => exact hs
  | cons key keys ih => exact ih (.call false (.inl rfl) (.cons hs (.cons (.constant _) .nil)))

theorem resolves_pathTree (segments : List Value) :
    Resolves ops (pathTree segments) (pathTree segments) := by
  cases segments with
  | nil => exact .constant .null
  | cons head keys =>
    refine resolves_keys ?_
    split
    · exact .load _
    · exact .constant _

/-- A function that a path finds is in a dictionary, so its name has no opcode. -/
theorem pathFunction?_unhooked (w : World) (segments : List Value) :
    w.unhooked.pathFunction? segments = w.pathFunction? segments := by
  unfold pathFunction?
  split
  · next name key =>
    cases h : w.opcodeOf? name with
    | none =>
      rw [get?_unhooked_of_none h]
      rfl
    | some op =>
      obtain ⟨ref, hv⟩ := exists_function_of_opcodeOf? h
      rw [get?_unhooked, h, hv]
      rfl
  · rfl

theorem sidesPlace_placePath (hd : d.Resolves w.opcodeOf? e) (segments rest : List Value) :
    SidesPlace w.opcodeOf? (w.unhooked.placePath d segments rest) (w.placePath e segments rest) := by
  unfold placePath
  rw [pathFunction?_unhooked]
  split
  · next ref _ =>
    have hwritten : (Head.other (.function ref)).IsWritten := trivial
    exact sidesPlace_beginCall hd hwritten (w.heap.arity ref) rest
  · exact sidesPlace_attach hd (resolves_pathTree segments) rest

theorem sides_placePathLabel (hd : d.Resolves ops e) (segments : List Value) :
    SameAnswer (fun e d => d.Resolves ops e) (placePathLabel e segments) (placePathLabel d segments) := by
  unfold placePathLabel
  split
  · exact rfl
  · refine hd.enter ⟨rfl, .inr rfl, rfl, ?_⟩
    exact .cons (.constant _) (.cons (resolves_pathTree _) .nil)

theorem sidesPlace_placeSymbol (hd : d.Resolves w.opcodeOf? e) (s : Symbol) (rest : List Value) :
    SidesPlace w.opcodeOf? (w.unhooked.placeSymbol d s rest) (w.placeSymbol e s rest) := by
  unfold placeSymbol
  split
  · exact sidesPlace_attachConstant hd _ rest
  · next target _ =>
    split
    · exact sidesPlace_attachConstant hd _ rest
    · rw [arity?_unhooked]
      split
      · exact sidesPlace_callByName hd target.name true _ rest
      · exact sidesPlace_attachConstant hd _ rest

theorem rel_pipe? (hd : d.Resolves w.opcodeOf? e) (rest : List Value) :
    Option.Rel (Draft.Resolves w.opcodeOf?) (w.unhooked.pipe? d rest) (w.pipe? e rest) := by
  unfold pipe?
  split
  · next name rest =>
    rw [arity?_unhooked]
    cases w.arity? name with
    | none => exact .none
    | some arity =>
      simp only [Option.bind_eq_bind, Option.bind_some]
      split
      · exact .none
      · obtain ⟨hwritten, hhead⟩ := w.resolve_callHead name false
        rw [← hhead]
        exact hd.pipe? hwritten arity
  · exact .none

theorem sidesPlace_splice {trees trees' : List CallTree} (hd : d.Resolves w.opcodeOf? e)
    (ht : List.Forall₂ (Resolves w.opcodeOf?) trees trees') (rest : List Value) :
    SidesPlace w.opcodeOf? (w.unhooked.splice d trees rest) (w.splice e trees' rest) := by
  have init {l l' : List CallTree} (hl : List.Forall₂ (Resolves w.opcodeOf?) l l') :
      Draft.Resolves w.opcodeOf? (l.foldl Draft.putPlain d) (l'.foldl Draft.putPlain e) := by
    induction hl generalizing d e with
    | nil => exact hd
    | cons h _ ih => exact ih (hd.putPlain h)
  have hreverse := List.rel_reverse ht
  unfold splice
  rw [List.getLast?_eq_head?_reverse, List.getLast?_eq_head?_reverse,
    ← List.reverse_reverse trees.dropLast, ← List.reverse_reverse trees'.dropLast,
    ← List.tail_reverse, ← List.tail_reverse]
  generalize trees.reverse = l at hreverse
  generalize trees'.reverse = l' at hreverse
  cases hreverse with
  | nil => exact ⟨hd, rfl⟩
  | cons hlast hrest => exact sidesPlace_attach (init (List.rel_reverse hrest)) hlast rest

/-- The error for an open call shows the same name on both sides. -/
theorem text_resolve (w : World) (heap : Heap) (head : Head) :
    (head.resolve w.opcodeOf?).text heap = head.text heap := by
  unfold Head.resolve
  split
  · next name =>
    split
    · next op hop =>
      obtain ⟨b, hname, hb⟩ := of_opcodeOf? hop
      have htext : (Head.operation op).text heap = name := by
        rw [Head.text, Builtin.ofOpcode?_eq_some_iff.2 hb]
        exact hname
      rw [htext]
      rfl
    · rfl
  · rfl

theorem check_unhooked (hd : d.Resolves w.opcodeOf? e) : e.check w.heap = d.check w.unhooked.heap := by
  obtain ⟨opened, done⟩ := d
  obtain ⟨opened', done'⟩ := e
  obtain ⟨ho, -⟩ := hd
  cases ho with
  | nil => rfl
  | cons hf _ =>
    refine congrArg Except.error ?_
    rw [Frame.missing, Frame.missing, hf.head, hf.arity, text_resolve, Frame.operandCount,
      Frame.operandCount, Resolves.length_operands hf.given]
    rfl

/-! ## Two builds side by side -/

/-- Building in a world as it stands, and without opcodes. -/
def resolving (ops : String → Option Opcode) : Coupling BuildError World World where
  alike w v := w.opcodeOf? = ops ∧ v = w.unhooked

theorem learnAll_unhooked (w : World) (names : List String) :
    (w.learnAll names).opcodeOf? = w.opcodeOf? ∧
      w.unhooked.learnAll names = (w.learnAll names).unhooked := by
  have hlearn (w : World) (name : String) :
      (w.learn name).opcodeOf? = w.opcodeOf? ∧ w.unhooked.learn name = (w.learn name).unhooked := by
    unfold learn
    change _ ∧ (if w.names.contains name then _ else _) = _
    split <;> exact ⟨rfl, rfl⟩
  induction names generalizing w with
  | nil => exact ⟨rfl, rfl⟩
  | cons name names ih =>
    obtain ⟨hsame, hcomm⟩ := hlearn w name
    obtain ⟨hsames, hcomms⟩ := ih (w.learn name)
    rw [← hcomm] at hcomms
    exact ⟨hsames.trans hsame, hcomms⟩

theorem sim_learnAll_unhooked (names : List String) :
    Sim (resolving ops) Eq (modify (learnAll · names) : BuildM PUnit) (modify (learnAll · names)) := by
  refine Sim.modify rfl (fun w v ⟨hops, hv⟩ => ?_) fun _ h => h
  obtain ⟨hsame, hcomm⟩ := learnAll_unhooked w names
  exact ⟨hsame.trans hops, hv ▸ hcomm⟩

theorem sim_declare_unhooked (name : String) (rest : List Value) :
    Sim (resolving ops) Eq (modify (declare · name rest) : BuildM PUnit)
      (modify (declare · name rest)) := by
  refine Sim.modify rfl (fun w v ⟨hops, hv⟩ => ?_) fun _ h => h
  subst hv
  rcases declare_eq name rest with he | ⟨a, he⟩
  · rw [he, he]
    exact ⟨hops, rfl⟩
  · rw [he, he]
    exact ⟨hops, rfl⟩

/-- An item is placed on both sides. -/
abbrev Places (ops : String → Option Opcode) (x y : BuildM (Draft × Nat)) : Prop :=
  Sim (resolving ops) (fun r q => SidesPlace ops q r) x y

theorem places_placeThickArrow (hd : d.Resolves ops e) (rest : List Value) :
    Places ops (placeThickArrow e rest) (placeThickArrow d rest) := by
  unfold placeThickArrow
  refine Sim.get.bind fun w v ⟨hops, hv⟩ => ?_
  have hform : v.placeholderForm? rest = w.placeholderForm? rest := by
    subst hv
    rfl
  rw [hform]
  split
  · next names body _ =>
    refine (sim_learnAll_unhooked names).bind fun _ _ _ => Sim.get.bind fun w' v' ⟨hops', hv'⟩ => ?_
    subst hops' hv'
    obtain ⟨hplaced, hused⟩ := sidesPlace_attachConstant
      (hd.put (.constant (.block (names.map .word) false))) (.block body false) rest.tail
    exact Sim.pure ⟨hplaced, congrArg (· + 1) hused⟩
  · refine Sim.get.bind fun w' v' ⟨hops', hv'⟩ => ?_
    subst hops' hv'
    exact Sim.pure (sidesPlace_attachConstant hd _ rest)

/-- **An item is placed on both sides alike.** -/
theorem places_placeItem (hd : d.Resolves ops e) (item : Value) (rest : List Value) :
    Places ops (placeItem e item rest) (placeItem d item rest) := by
  unfold placeItem
  refine Sim.get.bind fun w v ⟨hops, hv⟩ => ?_
  subst hops hv
  have attached (v : Value) : Places w.opcodeOf? (pure (w.attachConstant e v rest))
      (pure (w.unhooked.attachConstant d v rest)) :=
    Sim.pure (sidesPlace_attachConstant hd v rest)
  cases item with
  | word name => exact Sim.pure (sidesPlace_placeWord hd name rest)
  | label name =>
    have hwritten : (Head.store name).IsWritten := trivial
    exact (sim_declare_unhooked name rest).bind fun _ _ _ => Sim.pure ⟨hd.begin hwritten 1, rfl⟩
  | attr name =>
    have hwritten : (Head.attr name).IsWritten := trivial
    exact Sim.pure ⟨hd.put (.call false hwritten (.cons (.constant _) .nil)), rfl⟩
  | attrLabel name =>
    have hwritten : (Head.attr name).IsWritten := trivial
    exact Sim.pure ⟨hd.begin hwritten 1, rfl⟩
  | path segments => exact Sim.pure (sidesPlace_placePath hd segments rest)
  | pathLabel segments =>
    have hlabel : Sim (resolving w.opcodeOf?) (fun e d => d.Resolves w.opcodeOf? e)
        (liftM (placePathLabel e segments) : BuildM Draft) (liftM (placePathLabel d segments)) :=
      Sim.liftM (sides_placePathLabel hd segments) fun _ _ => trivial
    exact hlabel.bind fun _ _ hd => Sim.pure ⟨hd, rfl⟩
  | symbol s =>
    cases s with
    | doubleColon =>
      exact Sim.pure ⟨(sidesPlace_attachConstant hd (.block rest false) []).1, rfl⟩
    | thickArrow => exact places_placeThickArrow hd rest
    | pipe =>
      have hpipe := rel_pipe? hd rest
      dsimp only
      generalize w.unhooked.pipe? d rest = p? at hpipe
      generalize w.pipe? e rest = q? at hpipe
      cases hpipe with
      | none => exact attached _
      | some hd => exact Sim.pure ⟨hd, rfl⟩
    | _ => exact Sim.pure (sidesPlace_placeSymbol hd _ rest)
  | newline _ => exact Sim.pure ⟨hd, rfl⟩
  | _ => exact attached _

mutual

/-- **Items are added on both sides alike.** -/
theorem places_addItems (one : Bool) {d e : Draft} (skip used : Nat) : (l : List Value) →
    d.Resolves ops e → Places ops (addItems one e skip used l) (addItems one d skip used l)
  | [], hd => by
    rw [addItems, addItems]
    refine Sim.get.bind fun w v ⟨hops, hv⟩ => ?_
    subst hops hv
    rw [check_unhooked hd]
    refine (Sim.liftM (SameAnswer.refl (P := Eq) fun _ _ => rfl) fun _ _ => trivial).bind
      fun _ _ _ => ?_
    exact Sim.pure ⟨hd, rfl⟩
  | item :: rest, hd => by
    cases skip with
    | succ skip =>
      rw [addItems, addItems]
      exact places_addItems one skip (used + 1) rest hd
    | zero =>
      -- what follows an item does not depend on how the item was placed
      have proceed (r q : Draft × Nat) (h : SidesPlace ops q r) :
          Places ops
            (if one && r.1.isSettled then pure (r.1, used + 1 + r.2)
              else addItems one r.1 r.2 (used + 1) rest)
            (if one && q.1.isSettled then pure (q.1, used + 1 + q.2)
              else addItems one q.1 q.2 (used + 1) rest) := by
        obtain ⟨hd, hused⟩ := h
        rw [hd.isSettled, hused]
        refine Sim.ite Iff.rfl (fun _ => Sim.pure ⟨hd, rfl⟩) fun _ => ?_
        exact places_addItems one r.2 (used + 1) rest hd
      by_cases hin : ∃ items, item = .inline items
      · obtain ⟨items, rfl⟩ := hin
        rw [addItems, addItems]
        refine (sim_inlineTrees_unhooked _).bind fun trees trees' ht => ?_
        refine Sim.get.bind fun w v ⟨hops, hv⟩ => (Sim.pure ?_).bind proceed
        subst hops hv
        exact sidesPlace_splice hd ht rest
      · by_cases harrow : item = .symbol .arrow
        · subst harrow
          rw [addItems, addItems]
          refine (places_addItems true 0 0 rest .empty).bind ?_
          rintro ⟨d₁, count⟩ ⟨d₂, count'⟩ ⟨-, hcount⟩
          refine Sim.get.bind fun w v ⟨hops, hv⟩ => (Sim.pure ?_).bind proceed
          subst hops hv
          dsimp only at hcount ⊢
          subst hcount
          obtain ⟨hplaced, hused⟩ := sidesPlace_attachConstant hd
            (.block (rest.take count') false) (rest.drop count')
          exact ⟨hplaced, congrArg (count' + ·) hused⟩
        · rw [addItems.eq_5 _ _ _ _ _ (fun items h => hin ⟨items, h⟩) harrow,
            addItems.eq_5 _ _ _ _ _ (fun items h => hin ⟨items, h⟩) harrow]
          exact (places_placeItem hd item rest).bind proceed

theorem sim_inlineTrees_unhooked : (v : Value) →
    Sim (resolving ops) (fun r q => List.Forall₂ (Resolves ops) q r) (inlineTrees v) (inlineTrees v)
  | .inline items => by
    rw [inlineTrees]
    refine (places_addItems false 0 0 items .empty).bind ?_
    rintro ⟨d₁, n⟩ ⟨d₂, n'⟩ ⟨hd, -⟩
    exact Sim.pure hd.trees
  | .null | .logical _ | .integer _ | .floating _ | .rational _ | .string _ | .word _ | .literal _
  | .label _ | .attr _ | .attrLabel _ | .symbol _ | .path _ | .pathLabel _ | .block .. | .dictionary _
  | .function _ | .bytecode _ | .newline _ => by
    all_goals exact Sim.pure .nil

end

/-! ## Call trees -/

/-- **The call trees of some items are those written, with their heads resolved** in the world in which they are
built. -/
theorem resolves_callTrees {items : List Value} {trees : List CallTree} {w' : World}
    (h : w.callTrees items = (.ok trees, w')) :
    ∃ written, (w.unhooked.callTrees items).1 = .ok written ∧
      List.Forall₂ (Resolves w.opcodeOf?) written trees := by
  obtain ⟨-, hanswer, -⟩ := (places_addItems false 0 0 items .empty).agrees
    (C := resolving w.opcodeOf?) ⟨rfl, rfl⟩ id
  rw [callTrees_eq] at h ⊢
  revert hanswer h
  rcases ((addItems false {} 0 0 items).run.run w).1 with e | ⟨built, n⟩ <;>
    rcases ((addItems false {} 0 0 items).run.run w.unhooked).1 with e' | ⟨draft, n'⟩ <;>
    intro h hanswer
  · cases h
  · cases h
  · exact hanswer.elim
  · cases h
    exact ⟨draft.trees, rfl, hanswer.1.trees⟩

end World

end BlockLang
