import NandHdl.Proofs.Standing

/-!
# Elaborating one-bit expressions

Where every wire has one bit, expressions and statements are elaborated without an error and add what the
layout says, in whichever order they stand.

* `Elaboration.Yields`: a step succeeds and adds the nodes of a layout. `Yields.bind`: one step behind another.
* `Knows`: what the names of the body stand for on the way.
* `yields_nand`, `yields_dff`, `yields_copy`: gates, flip-flops and instances.
* `Plain`: the expressions of one-bit bodies.
* `yields_expr`, `yields_assignAll`: **expressions and statements of one-bit bodies are elaborated to their
  layout.**
-/

namespace NandHdl

namespace Elaboration

/-! ## Steps -/

section Steps

variable {f : Frame} {table : Array Bit} {slots slots' : Array ForwardSlot} {s s' s'' : State} {α β : Type}

/-- The cell of a run stands for the cell of the layout. -/
inductive CellReads (f : Frame) (table : Array Bit) (slots : Array ForwardSlot) : Cell → Cell → Prop
  | nand {a b c d : Bit} (ha : Reads f table slots a c) (hb : Reads f table slots b d) :
    CellReads f table slots (.nand a b) (.nand c d)
  | dff {a b c d : Bit} (ha : Reads f table slots a c) (hb : Reads f table slots b d) :
    CellReads f table slots (.dff a b) (.dff c d)

/-- The node of a run stands for the node of the layout. -/
structure NodeReads (f : Frame) (table : Array Bit) (slots : Array ForwardSlot) (n n' : Node) : Prop where
  id : n.id = n'.id
  cell : CellReads f table slots n.cell n'.cell

/-- From `s` to `s'` the nodes of the layout are added, and slots of names. -/
structure Adds (f : Frame) (table : Array Bit) (s s' : State) (nodes : List Node) : Prop where
  nextId : s'.nextId = s.nextId + nodes.length
  slotBase : s'.slotBase = s.slotBase
  slots : ∃ extra : Array ForwardSlot, s'.slots = s.slots ++ extra ∧
    ∀ x ∈ extra, x.bit = 0 ∧ ∃ j, f.read x.name = .forward j
  nodes : ∃ new : Array Node, s'.nodes = s.nodes ++ new ∧
    List.Forall₂ (NodeReads f table s'.slots) new.toList nodes

/-- **From `s` on the step succeeds and adds the nodes of a layout**, with a result that has the property where
the slots behind it are open. -/
def Yields (f : Frame) (table : Array Bit) (x : Build α) (s : State) (nodes : List Node)
    (P : Array ForwardSlot → α → Prop) : Prop :=
  s.slotBase = 0 → ∃ a s', Gives x s a s' ∧ Adds f table s s' nodes ∧ P s'.slots a

theorem CellReads.mono {c d : Cell} (hle : ∀ (k : Nat) x, slots[k]? = some x → slots'[k]? = some x)
    (h : CellReads f table slots c d) : CellReads f table slots' c d := by
  cases h with
  | nand ha hb => exact .nand (ha.mono hle) (hb.mono hle)
  | dff ha hb => exact .dff (ha.mono hle) (hb.mono hle)

/-- Nodes are added and no slots. -/
theorem Adds.of_nodes (new : Array Node) {nodes : List Node} (hnext : s'.nextId = s.nextId + nodes.length)
    (hbase : s'.slotBase = s.slotBase) (hslots : s'.slots = s.slots) (hnodes : s'.nodes = s.nodes ++ new)
    (hnew : List.Forall₂ (NodeReads f table s.slots) new.toList nodes) : Adds f table s s' nodes :=
  ⟨hnext, hbase, ⟨#[], by rw [hslots, Array.append_empty], fun x hx => absurd hx (Array.not_mem_empty x)⟩,
    ⟨new, hnodes, hslots.symm ▸ hnew⟩⟩

theorem Adds.refl (s : State) : Adds f table s s [] := .of_nodes #[] rfl rfl rfl Array.append_empty.symm .nil

/-- Slots that are open stay open. -/
theorem Adds.opened {nodes : List Node} (h : Adds f table s s' nodes) (k : Nat) (x : ForwardSlot)
    (hk : s.slots[k]? = some x) : s'.slots[k]? = some x := by
  obtain ⟨extra, hslots, -⟩ := h.slots
  rw [hslots, Array.getElem?_append_left (Array.getElem?_eq_some_iff.1 hk).1]
  exact hk

theorem Adds.trans {nodes nodes' : List Node} (h : Adds f table s s' nodes)
    (h' : Adds f table s' s'' nodes') :
    Adds f table s s'' (nodes ++ nodes') := by
  obtain ⟨extra, hslots, hextra⟩ := h.slots
  obtain ⟨extra', hslots', hextra'⟩ := h'.slots
  obtain ⟨new, hnodes, hnew⟩ := h.nodes
  obtain ⟨new', hnodes', hnew'⟩ := h'.nodes
  refine ⟨?_, h'.slotBase.trans h.slotBase, ⟨extra ++ extra', ?_, fun x hx => ?_⟩, ⟨new ++ new', ?_, ?_⟩⟩
  · rw [h'.nextId, h.nextId, List.length_append, Nat.add_assoc]
  · rw [hslots', hslots, Array.append_assoc]
  · exact (Array.mem_append.1 hx).elim (hextra x) (hextra' x)
  · rw [hnodes', hnodes, Array.append_assoc]
  · rw [Array.toList_append]
    exact List.rel_append (hnew.imp fun _ _ hn => ⟨hn.id, hn.cell.mono h'.opened⟩) hnew'

theorem Yields.pure {P : Array ForwardSlot → α → Prop} {a : α} (h : P s.slots a) :
    Yields f table (pure a) s [] P := fun _ => ⟨a, s, gives_pure.2 ⟨rfl, rfl⟩, Adds.refl s, h⟩

theorem Yields.bind {x : Build α} {g : α → Build β} {nodes nodes' : List Node}
    {P : Array ForwardSlot → α → Prop}
    {Q : Array ForwardSlot → β → Prop} (hx : Yields f table x s nodes P)
    (hg : ∀ a s', Adds f table s s' nodes → P s'.slots a → Yields f table (g a) s' nodes' Q) :
    Yields f table (x >>= g) s (nodes ++ nodes') Q := by
  intro hbase
  obtain ⟨a, s', ha, hadds, hP⟩ := hx hbase
  obtain ⟨b, s'', hb, hadds', hQ⟩ := hg a s' hadds hP (hadds.slotBase.trans hbase)
  exact ⟨b, s'', gives_bind.2 ⟨a, s', ha, hb⟩, hadds.trans hadds', hQ⟩

theorem Yields.imp {x : Build α} {nodes : List Node} {P Q : Array ForwardSlot → α → Prop}
    (h : Yields f table x s nodes P) (hPQ : ∀ slots a, P slots a → Q slots a) : Yields f table x s nodes Q := by
  intro hbase
  obtain ⟨a, s', ha, hadds, hP⟩ := h hbase
  exact ⟨a, s', ha, hadds, hPQ _ a hP⟩

/-- A result of a step, turned into another one. -/
theorem Yields.map {x : Build α} {g : α → β} {nodes : List Node} {P : Array ForwardSlot → α → Prop}
    {Q : Array ForwardSlot → β → Prop} (h : Yields f table x s nodes P)
    (hPQ : ∀ a s', Adds f table s s' nodes → P s'.slots a → Q s'.slots (g a)) :
    Yields f table (do return g (← x)) s nodes Q := by
  have hmap := h.bind fun a s' hadds hP => Yields.pure (P := Q) (hPQ a s' hadds hP)
  rwa [List.append_nil] at hmap

theorem yields_note (e : Event) : Yields f table (note e) s [] fun _ _ => True := fun _ =>
  ⟨(), _, gives_note.2 rfl, .of_nodes #[] rfl rfl rfl Array.append_empty.symm .nil, trivial⟩

/-- A name that is read early. -/
theorem yields_readForward {name : String} {j : Nat} (hread : f.read name = .forward j) :
    Yields f table (readForward name 0 1) s [] fun slots w =>
      ∃ d, w = .single d ∧ Reads f table slots d (.forward j) := by
  intro hbase
  have hlimit : s.limit = s.slots.size := by rw [State.limit, hbase, Nat.zero_add]
  refine ⟨_, _, Renaming.gives_readForward.2 ⟨Nat.one_ne_zero, rfl, rfl⟩, ⟨rfl, rfl, ⟨_, rfl, ?_⟩, ?_⟩, ?_⟩
  · intro x hx
    obtain ⟨i, rfl⟩ := Array.mem_ofFn.1 hx
    obtain rfl := Fin.fin_one_eq_zero i
    exact ⟨rfl, j, hread⟩
  · exact ⟨#[], (Array.append_empty).symm, .nil⟩
  · refine ⟨.forward s.slots.size, ?_, .slot ?_ hread⟩
    · rw [hlimit]
      rfl
    · simp

/-- One gate or flip-flop. -/
theorem yields_place {cell : Bit → Bit → Cell} {d e c c' : Bit}
    (hcell : CellReads f table s.slots (cell d e) (cell c c')) :
    Yields f table (place cell (.single d) (.single e)) s [⟨s.nextId, cell c c'⟩] fun _ w =>
      w = .single (.node s.nextId) := by
  intro _
  have hcells : Renaming.cellsOf cell (.single d) (.single e) = #[cell d e] := by
    simp [Renaming.cellsOf, Wire.single]
  refine ⟨_, _, Renaming.gives_place.2 ⟨rfl, rfl⟩, ?_, ?_⟩
  · rw [hcells]
    refine .of_nodes #[⟨s.nextId, cell d e⟩] rfl rfl rfl ?_ (.cons ⟨rfl, hcell⟩ .nil)
    simp [Renaming.withCells]
  · rw [hcells]
    rfl

end Steps

/-! ## Signals -/

section Signals

variable {f : Frame} {table : Array Bit} {slots : Array ForwardSlot} {s : State} {b : Body}
  {scope : Scope Signal} {x y : Signal} {c c' : Bit}

/-- The inputs are bound, and all bindings stand for what the layout gives to their names. -/
structure Knows (f : Frame) (table : Array Bit) (slots : Array ForwardSlot) (scope : Scope Signal) :
    Prop where
  numbered : Numbered f table
  bound : BoundTo f table slots scope
  inputs : ∀ name ∈ f.inputs, (scope.lookup name).isSome

theorem Adds.knows {s s' : State} {nodes : List Node} (h : Adds f table s s' nodes)
    (hscope : Knows f table s.slots scope) : Knows f table s'.slots scope :=
  ⟨hscope.numbered, fun e he => (hscope.bound e he).mono h.opened, hscope.inputs⟩

/-- The names of the layout are those that the statements of the module assign. -/
structure Assigns (f : Frame) (m : Module) : Prop where
  forward : ∀ name, m.assigns name → name ∉ f.inputs → ∃ j, f.read name = .forward j
  unknown : ∀ name, ¬ m.assigns name → name ∉ f.inputs → f.read name = .const false

/-- A name stands for what it names. -/
theorem Knows.means_read (h : Knows f table slots scope) {e : String × Signal} (he : e ∈ scope.newestFirst) :
    Means f table slots e.2 (f.read e.1) := by
  obtain ⟨name, x⟩ := e
  have hmeans : Means f table slots x (f.direct table name) := h.bound _ he
  simp only
  cases hread : f.read name with
  | forward j =>
    have hj := Array.getElem?_eq_getElem (h.numbered name j hread)
    rw [direct_of_read hread hj] at hmeans
    exact .step hj hmeans
  | _ =>
    rw [Frame.direct, hread] at hmeans
    exact hmeans

theorem Knows.follow (h : Knows f table slots scope) (hx : Means f table slots x c) :
    Means f table slots (follow scope x) c := means_follow h.numbered h.bound hx

/-- What insists on a width insists on one bit. -/
theorem Means.width (h : Means f table slots x c) :
    x.wire?.map Wire.width = none ∨ x.wire?.map Wire.width = some 1 := by
  induction h with
  | wire _ => exact .inr rfl
  | bundle _ => exact .inr rfl
  | step _ _ ih => exact ih
  | _ => exact .inl rfl

theorem Knows.knownWidth (h : Knows f table slots scope) (hx : Means f table slots x c) :
    knownWidth scope x = none ∨ NandHdl.knownWidth scope x = some 1 := (h.follow hx).width

theorem Means.naturalWidth (h : Means f table slots x c) : x.naturalWidth = 1 := by
  induction h with
  | @literal value hvalue =>
    match value, hvalue with
    | 0, _ => rfl
    | 1, _ => decide
  | step _ _ ih => exact ih
  | _ => rfl

/-- A signal is one bit wherever one bit is asked for or nothing is. -/
theorem yields_materialize (hscope : Knows f table s.slots scope) (hx : Means f table s.slots x c)
    {want : Option Nat}
    (hwant : want.getD 1 = 1) : Yields f table (materialize b scope x want) s [] fun slots w =>
      ∃ d, w = .single d ∧ Reads f table slots d c := by
  have hfollow := hscope.follow hx
  clear hx
  unfold materialize
  generalize NandHdl.follow scope x = y at hfollow
  induction hfollow with
  | wire hd => exact Yields.pure ⟨_, rfl, hd⟩
  | bundle hd => exact Yields.pure ⟨_, rfl, hd⟩
  | @literal value hvalue =>
    have hlength : want.getD (bitLength value) = 1 := by
      have hmeans : Means f table #[] (.literal value) _ := .literal hvalue
      have hnatural : bitLength value = 1 := hmeans.naturalWidth
      rw [hnatural, hwant]
    simp only [hlength]
    exact Yields.pure ⟨.const (value.testBit 0), rfl, .same rfl⟩
  | blackBox =>
    simp only [hwant]
    exact Yields.pure ⟨.const false, rfl, .same rfl⟩
  | forward hread =>
    simp only [hwant]
    exact yields_readForward hread
  | step hj _ ih => exact ih.imp fun _ w ⟨d, hw, hd⟩ => ⟨d, hw, .step hj hd⟩

theorem fit_single (d : Bit) : (Wire.single d).fit 1 = .single d := rfl

theorem yields_fitted (hscope : Knows f table s.slots scope) (hx : Means f table s.slots x c) :
    Yields f table (fitted b scope x 1) s [] fun slots w => ∃ d, w = .single d ∧ Reads f table slots d c :=
  (yields_materialize hscope hx rfl).map fun w _ _ ⟨d, hw, hd⟩ => ⟨d, by rw [hw, fit_single], hd⟩

theorem yields_nameSignal (hscope : Knows f table s.slots scope)
    (hassigns : Assigns f b.module) (name : String) :
    Yields f table (nameSignal b scope name) s [] fun slots x => Means f table slots x (f.read name) := by
  unfold nameSignal
  cases hx : scope.lookup name with
  | some x => exact Yields.pure (hscope.means_read (Scope.mem_of_lookup hx))
  | none =>
    have hinput : name ∉ f.inputs := fun hmem => by simpa [hx] using hscope.inputs name hmem
    by_cases hassigned : b.module.assigns name
    · obtain ⟨j, hread⟩ := hassigns.forward name hassigned hinput
      simp only [hassigned, if_true]
      rw [hread]
      exact Yields.pure (.forward hread)
    · simp only [hassigned]
      rw [hassigns.unknown name hassigned hinput]
      exact (yields_note _).bind fun _ _ _ _ => Yields.pure .blackBox

/-- A gate over two signals. -/
theorem yields_gates (hscope : Knows f table s.slots scope) (hx : Means f table s.slots x c)
    (hy : Means f table s.slots y c') :
    Yields f table (do
      let x ← fitted b scope x 1
      let y ← fitted b scope y 1
      return Signal.wire (← place .nand x y)) s [⟨s.nextId, .nand c c'⟩]
      fun slots z => Means f table slots z (.node s.nextId) := by
  refine (yields_fitted hscope hx).bind fun v s₁ h₁ ⟨d, hv, hd⟩ => ?_
  refine (yields_fitted (h₁.knows hscope) (hy.mono h₁.opened)).bind fun w s₂ h₂ ⟨e, hw, he⟩ => ?_
  have hnext : s₂.nextId = s.nextId := by rw [h₂.nextId, h₁.nextId]; rfl
  rw [hv, hw, ← hnext]
  exact (yields_place (.nand (hd.mono h₂.opened) he)).map fun z _ _ hz => by
    rw [hz]
    exact .wire (.same rfl)

theorem yields_nand (hscope : Knows f table s.slots scope) (hx : Means f table s.slots x c)
    (hy : Means f table s.slots y c') {want : Option Nat} (hwant : want.getD 1 = 1) :
    Yields f table (nand b scope want x y) s [⟨s.nextId, .nand c c'⟩]
      fun slots z => Means f table slots z (.node s.nextId) := by
  have hgates := yields_gates (b := b) hscope hx hy
  unfold nand
  -- whichever width decides, it is one bit
  rcases hscope.knownWidth hx with hwidth | hwidth <;> rcases hscope.knownWidth hy with hwidth' | hwidth'
  · simp only [hwidth, hwidth', hx.naturalWidth, hy.naturalWidth, Nat.max_self, hwant, pure_bind]
    exact hgates
  · simp only [hwidth, hwidth', pure_bind]
    exact hgates
  · simp only [hwidth, hwidth', pure_bind]
    exact hgates
  · simp only [hwidth, hwidth', if_pos, pure_bind]
    exact hgates

/-- One bit of clock is shared by the one bit of data. -/
theorem yields_clocked (hscope : Knows f table s.slots scope) (hy : Means f table s.slots y c') {d : Bit}
    (hd : Reads f table s.slots d c) :
    Yields f table (do
      let clk ← fitted b scope y 1
      let clk ← pure (Wire.ofFn 1 fun _ => clk.bitOrZero 0)
      return Signal.wire (← place .dff (.single d) clk)) s [⟨s.nextId, .dff c c'⟩]
      fun slots z => Means f table slots z (.node s.nextId) := by
  refine (yields_fitted hscope hy).bind fun w s₁ h₁ ⟨e, hw, he⟩ => ?_
  have hnext : s₁.nextId = s.nextId := h₁.nextId
  have hclk : (Wire.ofFn 1 fun _ => w.bitOrZero 0) = .single e := by rw [hw]; rfl
  rw [pure_bind, hclk, ← hnext]
  exact (yields_place (.dff (hd.mono h₁.opened) he)).map fun z _ _ hz => by
    rw [hz]
    exact .wire (.same rfl)

theorem yields_dff (hscope : Knows f table s.slots scope) (hx : Means f table s.slots x c)
    (hy : Means f table s.slots y c') {want : Option Nat} (hwant : want.getD 1 = 1) :
    Yields f table (dff b scope want x y) s [⟨s.nextId, .dff c c'⟩]
      fun slots z => Means f table slots z (.node s.nextId) := by
  have hwidth : (knownWidth scope x).getD (want.getD x.naturalWidth) = 1 := by
    rw [hx.naturalWidth, hwant]
    rcases hscope.knownWidth hx with hwidth | hwidth <;> rw [hwidth] <;> rfl
  unfold dff
  simp only [hwidth]
  refine (yields_fitted hscope hx).bind fun v s₁ h₁ ⟨d, hv, hd⟩ => ?_
  have hnext : s₁.nextId = s.nextId := h₁.nextId
  have hclocked := yields_clocked (b := b) (h₁.knows hscope) (hy.mono h₁.opened) hd
  rw [hnext] at hclocked
  rw [hv]
  rcases hscope.knownWidth hy with hwidth' | hwidth' <;> simp only [hwidth'] <;> exact hclocked

end Signals

/-! ## Copies -/

section Copies

variable {f : Frame} {table : Array Bit} {slots : Array ForwardSlot}

theorem reads_getD {ds cs : List Bit} (h : List.Forall₂ (Reads f table slots) ds cs) (i : Nat) :
    Reads f table slots (ds.getD i (.const false)) (cs.getD i (.const false)) := by
  induction h generalizing i with
  | nil => exact .same rfl
  | cons hd _ ih =>
    cases i with
    | zero => exact hd
    | succ i => exact ih i

theorem slotBelow_of_reads {ds cs : List Bit} (h : List.Forall₂ (Reads f table slots) ds cs) :
    ∀ d ∈ ds, d.slotBelow slots.size := by
  induction h with
  | nil => exact List.forall_mem_nil _
  | cons hd _ ih => exact List.forall_mem_cons.2 ⟨hd.slotBelow, ih⟩

/-- Copies of one bit stand for each other if the arguments do. -/
theorem reads_copy {ds cs : List Bit} (h : List.Forall₂ (Reads f table slots) ds cs) {first next width : Nat}
    {b : Bit} (hb : Inside first next width b) (start : Nat) :
    Reads f table slots (b.copy first start (ds.map .single)) (b.copy first start (cs.map .single)) := by
  cases b with
  | node n => exact .same rfl
  | input i =>
    rw [Bit.copy, Bit.copy, argumentBit_singles, argumentBit_singles]
    exact reads_getD h i
  | const v => exact .same rfl
  | forward k => exact hb.elim

theorem cellReads_map {g h : Bit → Bit} {c : Cell} (hc : c.All fun b => Reads f table slots (g b) (h b)) :
    CellReads f table slots (c.map g) (c.map h) := by
  cases c with
  | nand a b => exact .nand (hc a (by simp [Cell.inputs])) (hc b (by simp [Cell.inputs]))
  | dff d clk => exact .dff (hc d (by simp [Cell.inputs])) (hc clk (by simp [Cell.inputs]))

/-- The netlist has ports of one bit, and one output. -/
structure Part.OneBit (p : Part) : Prop where
  inputs : ∀ q ∈ p.netlist.inputs, q.width = 1
  output : ∃ o, p.netlist.outputs = [o] ∧ o.2.width = 1

/-- **An instance of a one-bit module** adds what the layout says. -/
theorem yields_copy {p : Part} (hp : p.OneBit) {c : Callee} (hc : c.Pastes p.first p.netlist) {s : State}
    {ds cs : List Bit} (h : List.Forall₂ (Reads f table s.slots) ds cs)
    (hlength : ds.length = p.netlist.inputs.length) {chain : List String} (hchain : chain ≠ []) :
    Yields f table (c.instantiate chain (ds.map .single)) s (p.copy s.nextId cs).nodes fun slots outs =>
      Means f table slots (.bundle outs) (p.copy s.nextId cs).bit := by
  intro hbase
  obtain ⟨caller, chain, rfl⟩ := List.exists_cons_of_ne_nil hchain
  have hwidth : (ds.map Wire.single).map Wire.width = p.netlist.inputs.map Port.width := by
    have hports : p.netlist.inputs.map Port.width = List.replicate p.netlist.inputs.length 1 :=
      List.eq_replicate_iff.2 ⟨List.length_map _, List.forall_mem_map.2 hp.inputs⟩
    rw [hports, ← hlength, List.map_map]
    exact List.map_const' (l := ds) (b := 1)
  have hbelow : ∀ w ∈ ds.map Wire.single, w.slotsBelow s.limit := by
    refine List.forall_mem_map.2 fun d hd => ?_
    rw [Wire.slotsBelow, State.limit, hbase, Nat.zero_add]
    simpa [Wire.single] using slotBelow_of_reads h d hd
  obtain ⟨log, hgives⟩ := hc caller chain (ds.map .single) s hwidth hbelow
  obtain ⟨o, houtputs, ho⟩ := hp.output
  refine ⟨_, _, hgives, .of_nodes _ ?_ rfl rfl rfl ?_, ?_⟩
  · rw [Part.copy, List.length_map, Array.length_toList]
  · rw [Part.copy, Array.toList_map]
    refine List.forall₂_map_left_iff.2 (List.forall₂_map_right_iff.2
      (List.forall₂_same.2 fun n hn => ⟨rfl, ?_⟩))
    exact cellReads_map ((p.closed.reads n (Array.mem_toList_iff.1 hn)).imp fun b hb =>
      reads_copy h hb s.nextId)
  · have hmem : o ∈ p.netlist.outputs := by rw [houtputs]; exact List.mem_singleton.2 rfl
    have hinside := (p.closed.outputs o hmem).bitOrZero trivial 0
    rw [Part.copy, firstOutput, houtputs]
    simp only [List.map_singleton]
    rw [Wire.eq_single ho, Wire.map_single]
    exact .bundle (reads_copy h hinside s.nextId)

end Copies

/-! ## Expressions -/

mutual

/-- The expressions of one-bit bodies: names, the literals 0 and 1, gates and flip-flops of such expressions,
instances of one-bit modules with one output, and calls of what is not there. `own` is the name of the module
itself. -/
inductive Plain (f : Frame) (own : String) : Expr → Prop
  | identifier (name : String) : Plain f own (.identifier name)
  | number {value : Nat} (h : value ≤ 1) : Plain f own (.number value)
  | gate {name : String} {x y : Expr} (hname : isPrimitive name) (hx : Plain f own x) (hy : Plain f own y) :
    Plain f own (.call name [x, y])
  | copy {name : String} {args : List Expr} {p : Part} (hname : isPrimitive name = false) (hown : name ≠ own)
    (hpart : f.part? name = some p) (hp : p.OneBit) (hlength : args.length = p.netlist.inputs.length)
    (hargs : PlainAll f own args) : Plain f own (.call name args)
  | box {name : String} {args : List Expr} (hname : isPrimitive name = false) (hown : name ≠ own)
    (hpart : f.part? name = none) : Plain f own (.call name args)

@[inherit_doc Plain]
inductive PlainAll (f : Frame) (own : String) : List Expr → Prop
  | nil : PlainAll f own []
  | cons {e : Expr} {es : List Expr} (h : Plain f own e) (hs : PlainAll f own es) : PlainAll f own (e :: es)

end

/-- The body calls what the frame has the netlists of. -/
structure CallsParts (f : Frame) (b : Body) : Prop where
  chain : b.chain ≠ []
  assigns : Assigns f b.module
  undefined : ∀ name, name ≠ b.module.name → f.part? name = none → b.callee? name = none
  defined : ∀ name p, name ≠ b.module.name → f.part? name = some p →
    ∃ c, b.callee? name = some c ∧ c.inputs = p.netlist.inputs ∧ c.Pastes p.first p.netlist

section Bodies

variable {f : Frame} {table : Array Bit} {slots : Array ForwardSlot} {b : Body} {scope : Scope Signal}

theorem ne_of_not_primitive {name : String} (h : isPrimitive name = false) :
    name ≠ "nand" ∧ name ≠ "dff" := by
  rw [isPrimitive, Bool.or_eq_false_iff, decide_eq_false_iff_not, decide_eq_false_iff_not] at h
  exact h

theorem connector?_part {name : String} (h : isPrimitive name = false) :
    f.connector? name = (f.part? name).map Part.copy := by
  obtain ⟨hnand, hdff⟩ := ne_of_not_primitive h
  rw [Frame.connector?, if_neg hnand, if_neg hdff]

theorem length_layoutAll (es : List Expr) (next : Nat) : (f.layoutAll next es).1.length = es.length := by
  induction es generalizing next with
  | nil =>
    rw [Frame.layoutAll]
    rfl
  | cons e es ih => rw [Frame.layoutAll, List.length_cons, List.length_cons, ih]

/-- The layout of a gate over two expressions. -/
theorem layout_gate {name : String} {cell : Bit → Bit → Cell} (h : f.connector? name = some (gate cell))
    (next : Nat)
    (x y : Expr) {v w : Layout} (hv : f.layout next x = v) (hw : f.layout (next + v.nodes.length) y = w) :
    f.layout next (.call name [x, y]) =
      ⟨.node (next + (v.nodes ++ w.nodes).length),
        v.nodes ++ (w.nodes ++ [⟨next + (v.nodes ++ w.nodes).length, cell v.bit w.bit⟩])⟩ := by
  subst hv hw
  rw [Frame.layout, h]
  simp only [Frame.layoutAll, List.append_nil, gate, List.getD_cons_zero, List.getD_cons_succ,
    List.append_assoc]

mutual

/-- **An expression of a one-bit body** adds what the layout says. -/
theorem yields_expr (hb : CallsParts f b) : ∀ {e : Expr}, Plain f b.module.name e → ∀ {s : State}
    {want : Option Nat},
    want.getD 1 = 1 → Knows f table s.slots scope →
      Yields f table (expr b scope want e) s (f.layout s.nextId e).nodes fun slots x =>
        Means f table slots x (f.layout s.nextId e).bit
  | _, .identifier name, s, want, _, hscope => by
    rw [expr, Frame.layout]
    exact yields_nameSignal hscope hb.assigns name
  | _, .number h, s, want, _, hscope => by
    rw [expr, Frame.layout]
    exact Yields.pure (.literal h)
  | _, @Plain.gate _ _ name x y hname hx hy, s, want, hwant, hscope => by
    have hends : ∀ {s₁ s₂ : State}, Adds f table s s₁ (f.layout s.nextId x).nodes →
        Adds f table s₁ s₂ (f.layout s₁.nextId y).nodes →
        s₂.nextId = s.nextId + ((f.layout s.nextId x).nodes ++ (f.layout s₁.nextId y).nodes).length :=
      fun h₁ h₂ => (h₁.trans h₂).nextId
    rw [isPrimitive, Bool.or_eq_true, decide_eq_true_iff, decide_eq_true_iff] at hname
    rcases hname with rfl | rfl
    · rw [expr, layout_gate rfl s.nextId x y rfl rfl]
      refine (yields_expr hb hx hwant hscope).bind fun v s₁ h₁ hv => ?_
      rw [← h₁.nextId]
      refine (yields_expr hb hy hwant (h₁.knows hscope)).bind fun w s₂ h₂ hw => ?_
      rw [← hends h₁ h₂]
      exact yields_nand (h₂.knows (h₁.knows hscope)) (hv.mono h₂.opened) hw hwant
    · rw [expr, layout_gate rfl s.nextId x y rfl rfl]
      refine (yields_expr hb hx hwant hscope).bind fun v s₁ h₁ hv => ?_
      rw [← h₁.nextId]
      refine (yields_expr hb hy rfl (h₁.knows hscope)).bind fun w s₂ h₂ hw => ?_
      rw [← hends h₁ h₂]
      exact yields_dff (h₂.knows (h₁.knows hscope)) (hv.mono h₂.opened) hw hwant
  | _, @Plain.copy _ _ name args p hname hown hpart hp hlength hargs, s, want, hwant, hscope => by
    obtain ⟨hnand, hdff⟩ := ne_of_not_primitive hname
    obtain ⟨c, hcallee, hinputs, hpastes⟩ := hb.defined name p hown hpart
    rw [expr.eq_7 b scope want name args hnand hdff, hcallee, Frame.layout, connector?_part hname, hpart]
    simp only [Option.map_some, checkArity, hinputs, hlength, if_pos, pure_bind]
    refine (yields_arguments hb hargs hp.inputs hlength.symm hscope).bind fun ws s₁ h₁ ⟨ds, hws, hds⟩ => ?_
    have hcount : ds.length = p.netlist.inputs.length := by rw [hds.length_eq, length_layoutAll, hlength]
    rw [hws, ← h₁.nextId]
    exact (yields_copy hp hpastes hds hcount hb.chain).map fun _ _ _ houts => houts
  | _, @Plain.box _ _ name args hname hown hpart, s, want, hwant, hscope => by
    obtain ⟨hnand, hdff⟩ := ne_of_not_primitive hname
    rw [expr.eq_7 b scope want name args hnand hdff, hb.undefined name hown hpart, Frame.layout,
      connector?_part hname, hpart]
    exact (yields_note _).bind fun _ _ _ _ => Yields.pure .blackBox

theorem yields_arguments (hb : CallsParts f b) : ∀ {es : List Expr}, PlainAll f b.module.name es → ∀ {s : State}
    {ps : List Port}, (∀ p ∈ ps, p.width = 1) → ps.length = es.length → Knows f table s.slots scope →
      Yields f table (arguments b scope ps es) s (f.layoutAll s.nextId es).2 fun slots ws =>
        ∃ ds, ws = ds.map .single ∧ List.Forall₂ (Reads f table slots) ds (f.layoutAll s.nextId es).1
  | _, .nil, s, ps, _, hlength, hscope => by
    obtain rfl := List.length_eq_zero_iff.1 hlength
    rw [arguments.eq_2 b scope [] [] (by simp), Frame.layoutAll]
    exact Yields.pure ⟨[], rfl, .nil⟩
  | _, @PlainAll.cons _ _ e es h hs, s, ps, hwidth, hlength, hscope => by
    obtain ⟨p, ps, rfl⟩ : ∃ p ps', ps = p :: ps' := List.exists_cons_of_length_eq_add_one hlength
    obtain ⟨hp, hps⟩ := List.forall_mem_cons.1 hwidth
    rw [arguments, Frame.layoutAll, hp]
    refine (yields_expr hb h rfl hscope).bind fun x s₁ h₁ hx => ?_
    refine (yields_fitted (h₁.knows hscope) hx).bind fun w s₂ h₂ ⟨d, hw, hd⟩ => ?_
    have hnext : s₂.nextId = s.nextId + (f.layout s.nextId e).nodes.length := h₂.nextId.trans h₁.nextId
    rw [← hnext]
    refine (yields_arguments hb hs hps (Nat.succ.inj hlength) (h₂.knows (h₁.knows hscope))).map
      fun ws s₃ h₃ ⟨ds, hws, hds⟩ => ?_
    exact ⟨d :: ds, by rw [hw, hws]; rfl, .cons (hd.mono h₃.opened) hds⟩

end

/-- The names that are bound, the newest first. -/
def boundNames (scope : Scope Signal) : List String := scope.newestFirst.map Prod.fst

theorem Knows.bind (h : Knows f table slots scope) {name : String} {x : Signal}
    (hx : Means f table slots x (f.direct table name)) : Knows f table slots (scope.bind name x) := by
  refine ⟨h.numbered, List.forall_mem_cons.2 ⟨hx, h.bound⟩, fun other hother => ?_⟩
  rw [Scope.lookup_bind]
  split
  · rfl
  · exact h.inputs other hother

/-- The statement assigns a name as a whole, with an expression of a one-bit body. -/
structure PlainStatement (f : Frame) (own : String) (st : Statement) : Prop where
  whole : st.target.range = none
  plain : Plain f own st.expr

/-- Outputs of one bit ask for one bit, and other names for nothing. -/
theorem getD_declared {m : Module} (h : ∀ p ∈ m.outputs, p.width = 1) (name : String) :
    ((m.output? name).map Port.width).getD 1 = 1 := by
  cases hp : m.output? name with
  | none => rfl
  | some p => exact h p (List.mem_of_find?_eq_some hp)

/-- **A statement of a one-bit body** adds what the layout says. -/
theorem yields_assign (hb : CallsParts f b) (houtputs : ∀ p ∈ b.module.outputs, p.width = 1) {s : State}
    (hscope : Knows f table s.slots scope) {st : Statement} (hst : PlainStatement f b.module.name st) {j : Nat}
    (hread : f.read st.target.name = .forward j) (hj : table[j]? = some (f.layout s.nextId st.expr).bit) :
    Yields f table (assign b scope st) s (f.layout s.nextId st.expr).nodes fun slots scope' =>
      Knows f table slots scope' ∧ boundNames scope' = st.target.name :: boundNames scope := by
  unfold assign
  rw [hst.whole]
  have hwant := getD_declared houtputs st.target.name
  refine (yields_expr hb hst.plain hwant hscope).map fun x s₁ h₁ hx => ⟨(h₁.knows hscope).bind ?_, rfl⟩
  rwa [direct_of_read hread hj]

/-- **The statements of a one-bit body** add what the layout says. -/
theorem yields_assignAll (hb : CallsParts f b) (houtputs : ∀ p ∈ b.module.outputs, p.width = 1)
    (sts : List Statement) :
    ∀ {s : State} {scope : Scope Signal}, Knows f table s.slots scope →
      (∀ st ∈ sts, PlainStatement f b.module.name st) →
      (∀ e ∈ f.entries s.nextId sts, ∃ j : Nat, f.read e.name = .forward j ∧ table[j]? = some e.layout.bit) →
      Yields f table (assignAll b scope sts) s ((f.entries s.nextId sts).flatMap (·.layout.nodes))
        fun slots scope' =>
        Knows f table slots scope' ∧
          boundNames scope' = (sts.map (·.target.name)).reverse ++ boundNames scope := by
  induction sts with
  | nil => exact fun hscope _ _ => Yields.pure ⟨hscope, rfl⟩
  | cons st sts ih =>
    intro s scope hscope hsts hentries
    obtain ⟨hst, hrest⟩ := List.forall_mem_cons.1 hsts
    obtain ⟨⟨j, hread, hj⟩, htail⟩ := List.forall_mem_cons.1 hentries
    rw [Frame.entries, List.flatMap_cons]
    refine (yields_assign hb houtputs hscope hst hread hj).bind fun scope₁ s₁ h₁ hassigned => ?_
    rw [← h₁.nextId] at htail ⊢
    refine (ih hassigned.1 hrest htail).imp fun slots scope₂ hlast => ⟨hlast.1, ?_⟩
    rw [hlast.2, hassigned.2, List.map_cons, List.reverse_cons, List.append_assoc, List.singleton_append]

end Bodies

end Elaboration

end NandHdl
