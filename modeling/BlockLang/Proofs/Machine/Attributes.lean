import BlockLang.Proofs.Machine.Pending

/-!
# Attributes wait for the next call

The call that an attribute is written on finds it in the table only if no other call is made in between, by
an operand or by another attribute; and a call finds whatever else is pending.

**Theorem (`attributes_seen`).** Wherever the run of a unit comes to an operation, the attributes there are
those that were given since the last call in the order of evaluation, on top of what that call has left. They
are the ones that are written on the call's own node if nothing is pending when the first of them is
evaluated, and from there on its operands and its attributes make no calls and have no attributes.

The run is followed from the beginning of the unit (`Place.Passes`), one node at a time: a unit awaits a list
of nodes (`Place.Awaits`), and each instruction evaluates the first of them. That the condition does not come
for nothing is shown in `attribute_taken`.
-/

namespace BlockLang

open CallTree Exec

variable {fuel : Nat} {m : Machine} {p q r : Place} {n : Located} {ps : List Place} {b : Builtin}
  {start attrs : NameTable Value}

/-! ## Since the last call -/

/-- What is pending after some visits of a run that began with `start` pending: the attributes that were
given since the last call, on top of those that it has left. -/
inductive Pending (start : NameTable Value) : List Visit → NameTable Value → Prop
  | fromStart {visits : List Visit} (h : ∀ v ∈ visits, v.1.node.makesCall = false) :
      Pending start visits (collected start visits)
  | sinceCall {earlier recent : List Visit} {call : Visit} {left : NameTable Value}
      (hc : call.1.node.makesCall = true) (hl : call.2.Leaves left)
      (hr : ∀ v ∈ recent, v.1.node.makesCall = false) :
      Pending start (earlier ++ call :: recent) (collected left recent)

namespace Pending

variable {visits : List Visit} {seen : NameTable Value}

theorem cons (hp : p.Adds n attrs) (h : Pending attrs visits seen) :
    Pending p.machine.attrs ((n, p) :: visits) seen := by
  cases h with
  | @sinceCall earlier recent call left hc hl hr =>
    have h : Pending p.machine.attrs ((n, p) :: earlier ++ call :: recent) (collected left recent) :=
      .sinceCall hc hl hr
    exact h
  | fromStart hr =>
    cases hp with
    | call hn hl =>
      have h : Pending p.machine.attrs ([] ++ (n, p) :: visits) (collected attrs visits) :=
        .sinceCall hn hl hr
      exact h
    | other hn hadd =>
      rw [hadd, ← collected_append]
      exact .fromStart (List.forall_mem_cons.2 ⟨hn, hr⟩)

theorem eq_collected (h : Pending start visits seen)
    (hr : ∀ v ∈ visits, v.1.node.makesCall = false) : seen = collected start visits := by
  cases h with
  | fromStart => rfl
  | sinceCall hc _ _ =>
    have hcall := hr _ (List.mem_append_right _ List.mem_cons_self)
    exact absurd (hc.symm.trans hcall) nofun

end Pending

namespace Place

/-- The run passes some places on the way from one to another, an instruction at each. -/
inductive Passes : Place → List Place → Place → Prop
  | here (p : Place) : Passes p [] p
  | next {p q r : Place} {ps : List Place} (hn : p.next? = some q) (h : Passes q ps r) :
      Passes p (p :: ps) r

theorem Passes.split {ps' : List Place} (h : p.Passes (ps ++ ps') r) :
    ∃ q, p.Passes ps q ∧ q.Passes ps' r := by
  induction ps generalizing p with
  | nil => exact ⟨p, .here p, h⟩
  | cons _ ps ih =>
    cases h with
    | next hn h =>
      obtain ⟨q, hq, hr⟩ := ih h
      exact ⟨q, .next hn hq, hr⟩

/-- The next places that a run passes, as many as asked for, and the one behind them. -/
def walk? : Place → (count : Nat) → Option (List Place × Place)
  | p, 0 => some ([], p)
  | p, count + 1 => p.next?.bind fun q => (q.walk? count).map fun (ps, r) => (p :: ps, r)

theorem passes_of_walk? {count : Nat} (h : p.walk? count = some (ps, r)) : p.Passes ps r := by
  induction count generalizing p ps with
  | zero =>
    cases h
    exact .here _
  | succ count ih =>
    obtain ⟨q, hq, h⟩ := Option.bind_eq_some_iff.1 h
    obtain ⟨⟨ps, r⟩, hr, h⟩ := Option.map_eq_some_iff.1 h
    cases h
    exact .next hq (ih hr)

/-- From here on, the unit has an instruction for each of the nodes, and then ends. -/
structure Awaits (p : Place) (nodes : List Located) : Prop where
  formed : ∀ n ∈ nodes, n.node.WellFormed fun _ => True
  reads : ∃ body stop next, Decodes p.unit.code p.pos body stop ∧
    List.Forall₂ (Becomes p.unit.constants) nodes body ∧
      decode p.unit.code stop = ⟨some (.op .stop), next⟩

variable {nodes : List Located}

theorem Awaits.next (hp : p.Awaits nodes) (h : p.next? = some q) :
    ∃ n later, nodes = n :: later ∧ p.Adds n q.machine.attrs ∧ q.Awaits later := by
  obtain ⟨hformed, body, stop, next, hd, hb, hstop⟩ := hp
  cases hb with
  | nil =>
    cases hd
    cases (next?_of_stop hstop).symm.trans h
  | @cons n i later body hn hb =>
    cases hd with
    | cons hi hd =>
      obtain ⟨hfirst, hformed⟩ := List.forall_mem_cons.1 hformed
      obtain ⟨hunit, rfl, hadds⟩ := adds_of_becomes hfirst hi hn h
      exact ⟨n, later, rfl, hadds, hformed, body, stop, next, hunit ▸ hd, hunit ▸ hb, hunit ▸ hstop⟩

/-- **Attributes wait for the next call**, all along the run of a unit. -/
theorem Passes.pending (hr : p.Passes ps r) (hp : p.Awaits nodes) :
    ∃ done later, nodes = done ++ later ∧ done.length = ps.length ∧
      Pending p.machine.attrs (done.zip ps) r.machine.attrs ∧ r.Awaits later := by
  induction hr generalizing nodes with
  | here p => exact ⟨[], nodes, rfl, rfl, .fromStart nofun, hp⟩
  | next hn _ ih =>
    obtain ⟨n, later, rfl, hadds, hq⟩ := hp.next hn
    obtain ⟨done, later, rfl, hlength, hpending, hr⟩ := ih hq
    exact ⟨n :: done, later, rfl, congrArg (· + 1) hlength, hpending.cons hadds, hr⟩

/-- A place where an operation runs is one where a call is evaluated. -/
theorem Awaits.makesCall (hp : p.Awaits nodes) (hb : p.Operates b) :
    ∃ n later, nodes = n :: later ∧ n.node.makesCall = true := by
  obtain ⟨-, body, stop, next, hd, hbody, hstop⟩ := hp
  cases hbody with
  | nil =>
    cases hd
    cases hb with
    | opcode hi ho =>
      rw [hstop] at hi
      cases hi
      exact absurd rfl (Opcode.isPlain_of_builtin ho).2
    | call hi _ _ _ _ =>
      rw [hstop] at hi
      cases hi
  | @cons n i later body hn _ =>
    refine ⟨n, later, rfl, ?_⟩
    cases hd with
    | cons hd _ =>
      cases hb with
      | opcode hi ho =>
        rw [hd] at hi
        cases hi
        cases hn with
        | immediate hc _ => cases (Opcode.immediate?_builtin ho).symm.trans hc
        | operation => rfl
      | call hi _ _ _ _ =>
        rw [hd] at hi
        cases hi
        cases hn
        rfl

theorem awaits_postorder {trees : List CallTree} {u : CodeUnit} (hu : u.Faithful trees)
    (ht : ∀ t ∈ trees, t.WellFormed fun _ => True) (fuel : Nat) (m : Machine) :
    Awaits ⟨fuel, u, 0, m⟩ (postorder trees) := by
  obtain ⟨body, hd, hb, -⟩ := hu.reads
  exact ⟨fun n hn => Calls.node_of_mem_postorder ht hn, body, _, _, hd, hb, hu.ends⟩

end Place

/-! ## A call's own attributes -/

section

variable {trees first rest : List CallTree} {nodes outer later : List Located} {x : Located}

theorem Visit.given?_eq_none {v : Visit} (h : v.1.node.isAttr = false) : v.given? = none := by
  unfold given?
  split
  · next hn => simp [hn, isAttr] at h
  · rfl

/-- What is evaluated before the children of a node is no child of it. -/
theorem tail_ne_of_outer
    (hsplit : postorder trees = outer ++ postorderFrom n.place 0 n.node.children ++ n :: later)
    (hx : x ∈ outer) : x.place.tail ≠ n.place := by
  intro htail
  have hn : n ∈ postorder trees := hsplit ▸ by simp
  have hmem : x ∈ postorder trees := hsplit ▸ by simp [hx]
  have hchild := mem_of_isChild (isParent_of_tail hn hmem htail)
  have hnodup := nodup_places trees
  rw [hsplit, List.map_append, List.map_append] at hnodup
  exact (List.nodup_append.1 (List.nodup_append.1 hnodup).1).2.2 _ (List.mem_map_of_mem hx) _
    (List.mem_map_of_mem hchild) rfl

/-- The roots of the trees are the children among the nodes. -/
theorem root_of_tail {place : List Nat} {i : Nat} {l : List CallTree} (hx : x ∈ postorderFrom place i l)
    (htail : x.place.tail = place) : x.node ∈ l := by
  obtain ⟨p, j, t, hplace, ht, hnode⟩ := (mem_postorderFrom ..).1 hx
  have hlength := congrArg List.length htail
  rw [hplace, List.length_tail, List.length_append, List.length_cons] at hlength
  obtain rfl : p = [] := List.length_eq_zero_iff.1 (by omega)
  cases hnode
  exact List.mem_of_getElem? ht

theorem quiet_of_mem {place : List Nat} {i : Nat} {l : List CallTree} (hl : ∀ t ∈ l, t.IsQuiet)
    (hx : x ∈ postorderFrom place i l) :
    x.node.makesCall = false ∧ (x.node.isAttr = true → x.place.tail = place) := by
  obtain ⟨p, j, t, hplace, ht, hnode⟩ := (mem_postorderFrom ..).1 hx
  have hmem : ⟨p, x.node⟩ ∈ postorderAt [] t :=
    (mem_postorderAt ..).2 ⟨p, (List.append_nil p).symm, hnode⟩
  obtain ⟨hcall, hattr⟩ := hl t (List.mem_of_getElem? ht) _ hmem
  refine ⟨hcall, fun ha => ?_⟩
  obtain rfl : p = [] := hattr ha
  rw [hplace]
  rfl

/-- If none of its first children is an attribute, and the rest are quiet, a node has its attributes from
evaluating the rest. -/
theorem written_eq (ps ps' : List Place)
    (hsplit : postorder trees = outer ++ postorderFrom n.place 0 n.node.children ++ n :: later)
    (hf : ∀ t ∈ first, t.isAttr = false) (hr : ∀ t ∈ rest, t.IsQuiet)
    (hlength : (outer ++ postorderFrom n.place 0 first).length = ps.length) :
    n.written ((outer ++ postorderFrom n.place 0 first ++ postorderFrom n.place first.length rest).zip
      (ps ++ ps')) = collected [] ((postorderFrom n.place first.length rest).zip ps') := by
  rw [Located.written, List.zip_append hlength, List.filter_append, collected_append]
  have hbefore : collected [] (((outer ++ postorderFrom n.place 0 first).zip ps).filter
      fun v => v.1.place.tail = n.place) = [] := by
    have hnone : (((outer ++ postorderFrom n.place 0 first).zip ps).filter
        fun v => v.1.place.tail = n.place).filterMap Visit.given? = [] := by
      refine List.filterMap_eq_nil_iff.2 fun v hv => Visit.given?_eq_none ?_
      obtain ⟨hv, htail⟩ := List.mem_filter.1 hv
      have htail : v.1.place.tail = n.place := by simpa using htail
      rcases List.mem_append.1 (List.of_mem_zip hv).1 with houter | hfirst
      · exact absurd htail (tail_ne_of_outer hsplit houter)
      · exact hf _ (root_of_tail hfirst htail)
    rw [collected, hnone]
    rfl
  rw [hbefore]
  unfold collected
  rw [List.filterMap_filter]
  congr 1
  refine List.filterMap_congr fun v hv => ?_
  obtain ⟨-, hattr⟩ := quiet_of_mem hr (List.of_mem_zip hv).1
  cases ha : v.1.node.isAttr with
  | true => rw [if_pos (by simpa using hattr ha)]
  | false => simp [Visit.given?_eq_none ha]

end

/-! ## What operations see -/

/-- The attributes that are there at `p` for the call of a node. On the way from `start`, the nodes before it
have been evaluated at the places `ps`. -/
structure Sees (start : Place) (trees : List CallTree) (ps : List Place) (n : Located) (p : Place) :
    Prop where
  /-- They are those that were given since the last call. -/
  pending : Pending start.machine.attrs ((postorder trees).zip ps) p.machine.attrs
  /-- They are those written on the node, if nothing is pending when the evaluation of its first attribute
  begins, and from there on none of its children makes calls or has attributes of its own. -/
  own (first rest : List CallTree) :
    n.node.children = first ++ rest → (∀ t ∈ first, t.isAttr = false) → (∀ t ∈ rest, t.IsQuiet) →
    ∃ k q, ((postorder trees).take ps.length).drop k = postorderFrom n.place first.length rest ∧
      start.Passes (ps.take k) q ∧ q.Passes (ps.drop k) p ∧
      (q.machine.attrs = [] → p.machine.attrs = n.written ((postorder trees).zip ps))

/-- A run that passes as many places as there are nodes before others has evaluated just these nodes. -/
theorem Place.Passes.pending_of_length {done later : List Located} (hr : p.Passes ps r)
    (hp : p.Awaits (done ++ later)) (hlength : done.length = ps.length) :
    Pending p.machine.attrs (done.zip ps) r.machine.attrs ∧ r.Awaits later := by
  obtain ⟨done', later', hsame, hlength', hpending, hlater⟩ := hr.pending hp
  obtain ⟨rfl, rfl⟩ := List.append_inj hsame (hlength.trans hlength'.symm)
  exact ⟨hpending, hlater⟩

theorem Place.Awaits.sees {trees : List CallTree} {nodes later : List Located}
    (hp : p.Awaits (postorder trees)) (hr : p.Passes ps r)
    (hsplit : postorder trees = nodes ++ n :: later) (hlength : nodes.length = ps.length) :
    Sees p trees ps n r := by
  have hzip : (postorder trees).zip ps = nodes.zip ps := by
    have h : (nodes ++ n :: later).zip (ps ++ []) = nodes.zip ps ++ (n :: later).zip [] :=
      List.zip_append hlength
    rwa [← hsplit, List.append_nil, List.zip_nil_right, List.append_nil] at h
  have htaken : (postorder trees).take ps.length = nodes := by
    rw [hsplit, ← hlength, List.take_left]
  constructor
  case pending =>
    rw [hzip]
    exact (hr.pending_of_length (hsplit ▸ hp) hlength).1
  case own =>
    intro first rest hc hf hq
    rw [hzip, htaken]
    obtain ⟨outer, rfl⟩ := before_postorderFrom [] 0 trees hsplit
    have hchildren : postorderFrom n.place 0 n.node.children =
        postorderFrom n.place 0 first ++ postorderFrom n.place first.length rest := by
      rw [hc, postorderFrom_append, Nat.zero_add]
    rw [hchildren, ← List.append_assoc] at hlength ⊢
    generalize hbefore : outer ++ postorderFrom n.place 0 first = before at hlength ⊢
    generalize hinner : postorderFrom n.place first.length rest = inner at hlength ⊢
    rw [List.length_append] at hlength
    have htake : before.length = (ps.take before.length).length := by
      rw [List.length_take, ← hlength]
      omega
    have hdrop : inner.length = (ps.drop before.length).length := by
      rw [List.length_drop, ← hlength]
      omega
    obtain ⟨q, hfirst, hlast⟩ := Passes.split ((List.take_append_drop before.length ps).symm ▸ hr)
    have hall : postorder trees = before ++ (inner ++ n :: later) := by
      rw [hsplit, hchildren, ← hbefore, ← hinner]
      simp only [List.append_assoc]
    obtain ⟨-, hrest⟩ := hfirst.pending_of_length (hall ▸ hp) htake
    obtain ⟨hpending, -⟩ := hlast.pending_of_length hrest hdrop
    refine ⟨before.length, q, List.drop_left, hfirst, hlast, fun hempty => ?_⟩
    have hcalls : ∀ v ∈ inner.zip (ps.drop before.length), v.1.node.makesCall = false :=
      fun v hv => (quiet_of_mem hq (hinner ▸ (List.of_mem_zip hv).1)).1
    have hwritten := written_eq (ps.take before.length) (ps.drop before.length) hsplit hf hq
      (hbefore ▸ htake)
    rw [hbefore, hinner, List.take_append_drop] at hwritten
    rw [hpending.eq_collected hcalls, hempty, hwritten]

/-- **Attributes wait for the next call.** Wherever the run of a unit comes to an operation, a node that makes
a call is evaluated, and it finds the attributes that were given since the last call. -/
theorem attributes_seen {w w' : World} {items : List Value} {trees : List CallTree} {u : CodeUnit}
    (ht : w.callTrees items = (.ok trees, w')) (hu : CodeUnit.ofCalls trees = .ok u)
    (hr : Place.Passes ⟨fuel, u, 0, m⟩ ps p) (hb : p.Operates b) :
    ∃ n, (postorder trees)[ps.length]? = some n ∧ n.node.makesCall = true ∧
      Sees ⟨fuel, u, 0, m⟩ trees ps n p := by
  have hformed := World.wellFormed_of_callTrees ht fun v _ => v.codesIn_true
  have hp := Place.awaits_postorder (faithful_of_ofCalls hformed hu) hformed fuel m
  obtain ⟨nodes, later, hsplit, hlength, -, hlast⟩ := hr.pending hp
  obtain ⟨n, later, rfl, hcall⟩ := hlast.makesCall hb
  refine ⟨n, ?_, hcall, hp.sees hr hsplit hlength⟩
  rw [hsplit, ← hlength]
  simp

theorem ok_of_mem_toOption {ε α : Type} {r : Except ε α} {a : α} (h : a ∈ r.toOption) : r = .ok a := by
  cases r with
  | ok b => exact congrArg _ (Option.some.inj h)
  | error e => cases h

theorem CallTree.built_of_mem_toOption {w : World} {items : List Value} {trees : List CallTree}
    (h : trees ∈ (w.callTrees items).1.toOption) :
    w.callTrees items = (.ok trees, (w.callTrees items).2) := Prod.ext (ok_of_mem_toOption h) rfl

/-- A flag in front of the operands of the call that it is written on. -/
theorem attributes_seen_memoize :
    let w := World.initial {}
    let params : Value := .block [.word "a"] false
    let items : List Value := [.label "f", .word "function", .attr "memoize", params, params]
    ∃ trees u ps p, w.callTrees items = (.ok trees, (w.callTrees items).2) ∧
      CodeUnit.ofCalls trees = .ok u ∧ Place.Passes ⟨100, u, 0, { world := w }⟩ ps p ∧
      p.Operates .function ∧ p.machine.attrs.names = ["memoize"] ∧
      ∃ n, (postorder trees)[ps.length]? = some n ∧ n.node.makesCall = true ∧
        Sees ⟨100, u, 0, { world := w }⟩ trees ps n p := by
  intro w params items
  have hway : ∃ trees ∈ (w.callTrees items).1.toOption, ∃ u ∈ (CodeUnit.ofCalls trees).toOption,
      ∃ way ∈ Place.walk? ⟨100, u, 0, { world := w }⟩ 4,
        (decode way.2.unit.code way.2.pos).instruction? = some (.op .function) ∧
          way.2.machine.attrs.names = ["memoize"] := by
    decide +kernel
  obtain ⟨trees, ht, u, hu, ⟨ps, p⟩, hr, hop, hnames⟩ := hway
  have ht := built_of_mem_toOption ht
  have hu := ok_of_mem_toOption hu
  have hr := Place.passes_of_walk? hr
  have hb : p.Operates .function := .opcode hop rfl
  exact ⟨trees, u, ps, p, ht, hu, hr, hb, hnames, attributes_seen ht hu hr hb⟩

/-- A flag in front of an operand that is a call itself: when the call is made that the flag is written on,
it is gone. -/
theorem attribute_taken :
    let w := World.initial {}
    let params : Value := .block [.word "a"] false
    let items : List Value :=
      [.label "f", .word "function", .attr "memoize", .word "reverse", params, params]
    ∃ trees u ps p n, w.callTrees items = (.ok trees, (w.callTrees items).2) ∧
      CodeUnit.ofCalls trees = .ok u ∧ Place.Passes ⟨100, u, 0, { world := w }⟩ ps p ∧
      p.Operates .function ∧ (postorder trees)[ps.length]? = some n ∧
      p.machine.attrs ≠ n.written ((postorder trees).zip ps) := by
  intro w params items
  have hway : ∃ trees ∈ (w.callTrees items).1.toOption, ∃ u ∈ (CodeUnit.ofCalls trees).toOption,
      ∃ way ∈ Place.walk? ⟨100, u, 0, { world := w }⟩ 5, ∃ n ∈ (postorder trees)[way.1.length]?,
        (decode way.2.unit.code way.2.pos).instruction? = some (.op .function) ∧
          way.2.machine.attrs.names = [] ∧
          (n.written ((postorder trees).zip way.1)).names = ["memoize"] := by
    decide +kernel
  obtain ⟨trees, ht, u, hu, ⟨ps, p⟩, hr, n, hn, hop, hseen, hwritten⟩ := hway
  refine ⟨trees, u, ps, p, n, built_of_mem_toOption ht, ok_of_mem_toOption hu, Place.passes_of_walk? hr,
    .opcode hop rfl, hn, fun hsame => ?_⟩
  rw [hsame, hwritten] at hseen
  cases hseen

end BlockLang
