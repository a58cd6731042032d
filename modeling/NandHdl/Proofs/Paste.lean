import NandHdl.Proofs.Instance

/-!
# Instances are copies of netlists

* `Callee.Pastes`: every instance of a module is a copy of one netlist.
* `Callee.pasted`: the callee whose instances are copies by definition.
* `pastes_of_netlist`: the instances of a module copy its own netlist.
* `instances_are_copies`: **every instance in a design is a copy of the netlist that the design has for
  its module**, at any depth.
-/

namespace NandHdl

/-- Bit `i` of the arguments, which lie one after another. -/
def argumentBit (args : List Wire) (i : Nat) : Bit :=
  (args.flatMap fun w => w.bits.toList).getD i (.const false)

/-- The bit of a copy: nodes are numbered from `start` on and not from `first` on, and the input bits
are those of the arguments. -/
def Bit.copy (first start : Nat) (args : List Wire) : Bit → Bit
  | .node n => .node (n - first + start)
  | .input i => argumentBit args i
  | b => b

/-- The node of a copy. -/
def Node.copy (first start : Nat) (args : List Wire) (n : Node) : Node :=
  ⟨n.id - first + start, n.cell.map (Bit.copy first start args)⟩

namespace Elaboration

/-- **Every instance of the callee is a copy of `n`**, whose nodes are numbered from `first` on, whatever
the instances around it, its arguments and the state before it are. The arguments have the widths of
their ports, and slots that they name are open. -/
def Callee.Pastes (c : Callee) (first : Nat) (n : Netlist) : Prop :=
  ∀ (caller : String) (chain : List String) (args : List Wire) (s : State),
    args.map Wire.width = n.inputs.map Port.width → (∀ w ∈ args, w.slotsBelow s.limit) →
    ∃ log, Gives (c.instantiate (caller :: chain) args) s
      (n.outputs.map fun o => (o.1.name, o.2.map (Bit.copy first s.nextId args)))
      { s with
        nextId := s.nextId + n.nodes.size
        nodes := s.nodes ++ n.nodes.map (Node.copy first s.nextId args)
        log := log }

/-- The callee whose instances are copies of `n`. It refuses arguments that do not fit their ports, and
slots that are not open. -/
def Callee.pasted (first : Nat) (n : Netlist) : Callee where
  name := n.name
  inputs := n.inputs
  instantiate _ args := do
    let s ← get
    unless args.map Wire.width = n.inputs.map Port.width ∧ (∀ w ∈ args, w.slotsBelow s.limit) do
      throw (.fault .danglingSlot)
    modify fun s =>
      { s with
        nextId := s.nextId + n.nodes.size
        nodes := s.nodes ++ n.nodes.map (Node.copy first s.nextId args) }
    return n.outputs.map fun o => (o.1.name, o.2.map (Bit.copy first s.nextId args))

/-- The bits inside a netlist: its nodes and its inputs, and no slot. -/
def Inside (first next width : Nat) : Bit → Prop
  | .node n => first ≤ n ∧ n < next
  | .input i => i < width
  | .const _ => True
  | .forward _ => False

/-- The nodes of the netlist are numbered from `first` on, and all bits are inside. -/
structure Closed (first : Nat) (n : Netlist) : Prop where
  ids : ∀ i node, n.nodes[i]? = some node → node.id = first + i
  reads : ∀ node ∈ n.nodes, node.cell.All (Inside first (first + n.nodes.size) n.inputWidth)
  outputs : ∀ o ∈ n.outputs, o.2.All (Inside first (first + n.nodes.size) n.inputWidth)

/-! ## The run behind a netlist -/

/-- The state in which the body of a module on its own starts. -/
def State.outermost (first : Nat) (m : Module) : State :=
  { State.initial first with log := [.instantiating 0 m.name] }

variable {earlier earlier' : List Callee} {m : Module} {first : Nat} {n : Netlist} {s s' : State}

theorem gives_netlist (h : Gives (netlist earlier m) s n s') :
    ∃ i, Gives (instantiate (visibleFrom earlier m) m [] (inputWires 0 m.inputs)) s i s' ∧
      n.name = m.name ∧ n.inputs = m.inputs ∧ n.outputs = m.outputs.zip (i.outputs.map Prod.snd) ∧
      n.nodes = s'.nodes := by
  obtain ⟨i, s₁, hi, h⟩ := gives_bind.1 h
  obtain ⟨s₂, s₃, hget, h⟩ := gives_bind.1 h
  obtain ⟨rfl, rfl⟩ := gives_get.1 hget
  obtain ⟨rfl, rfl⟩ := gives_pure.1 h
  exact ⟨i, hi, rfl, rfl, rfl, rfl⟩

theorem names_outputs {b : Body} {scope : Scope Signal} {ps : List Port} {outs : List (String × Wire)}
    (h : Gives (outputs b scope ps) s outs s') : outs.map Prod.fst = ps.map Port.name := by
  induction ps generalizing s outs with
  | nil =>
    rw [(gives_pure.1 h).1]
    rfl
  | cons p ps ih =>
    rw [outputs_cons] at h
    obtain ⟨w, s₁, -, h⟩ := gives_bind.1 h
    obtain ⟨rest, s₂, hrest, h⟩ := gives_bind.1 h
    obtain ⟨rfl, rfl⟩ := gives_pure.1 h
    rw [List.map_cons, List.map_cons, ih hrest]

theorem names_innerBody {b : Body} {args : List Wire} {i : Instance} (h : Gives (innerBody b args) s i s') :
    i.outputs.map Prod.fst = b.module.outputs.map Port.name := by
  obtain ⟨scope, s₁, -, h⟩ := gives_bind.1 h
  obtain ⟨outs, s₂, houts, h⟩ := gives_bind.1 h
  obtain ⟨log, hlog⟩ := gives_resolveForwards (b := b) (noneDangling_of_gives h)
  obtain ⟨rfl, -⟩ := h.unique hlog
  rw [← names_outputs houts, Instance.settle, List.map_map]
  rfl

/-- Every input bit of a module is one of its inputs. -/
theorem mem_inputWires {ps : List Port} {offset : Nat} {w : Wire} (h : w ∈ inputWires offset ps) :
    w.All fun b => ∃ i < offset + (ps.map Port.width).sum, b = .input i := by
  induction ps generalizing offset with
  | nil => cases h
  | cons p ps ih =>
    rw [List.map_cons, List.sum_cons]
    rcases List.mem_cons.1 h with rfl | h
    · exact Wire.all_ofFn fun i hi => ⟨offset + i, by omega, rfl⟩
    · exact (ih h).imp fun b ⟨i, hi, hb⟩ => ⟨i, by omega, hb⟩

theorem length_inputWires (offset : Nat) (ps : List Port) : (inputWires offset ps).length = ps.length := by
  induction ps generalizing offset with
  | nil => rfl
  | cons p ps ih => rw [inputWires, List.length_cons, ih, List.length_cons]

/-- The outputs of a netlist by name. -/
def namedOutputs (n : Netlist) : List (String × Wire) := n.outputs.map fun o => (o.1.name, o.2)

/-- The start of the body of a module on its own is sound, and its inputs are known. -/
theorem sound_outermost {ρ : Renaming} (hfirst : ρ.first = first) :
    ρ.Sound (State.outermost first m).inner := ⟨nofun, nofun, Nat.le_of_eq hfirst⟩

/-- A module on its own and an instance of it are bodies of one module. -/
theorem bodies_visible {ρ : Renaming} (hc : List.Forall₂ ρ.Follows earlier earlier') (m : Module)
    {chain chain' : List String} (h : chain ≠ []) (h' : chain' ≠ []) :
    ρ.Bodies ⟨m, chain, visibleFrom earlier m⟩ ⟨m, chain', visibleFrom earlier' m⟩ :=
  ⟨rfl, h, h', .cons (Renaming.follows_recursive m) hc⟩

theorem known_inputWires {ρ : Renaming} {s : State} (hwidth : ρ.width = (m.inputs.map Port.width).sum) :
    ∀ w ∈ inputWires 0 m.inputs, w.All (ρ.KnownAt s) := by
  refine fun w hw => (mem_inputWires hw).imp fun b ⟨i, hi, hb⟩ => ?_
  rw [hb]
  change i < ρ.width
  omega

/-- **The run behind a netlist**, without the naming of wires. -/
theorem innerBody_of_netlist {ρ : Renaming} (hc : List.Forall₂ ρ.Follows earlier earlier')
    (hfirst : ρ.first = first) (hwidth : ρ.width = (m.inputs.map Port.width).sum)
    (h : Gives (netlist earlier m) (State.initial first) n s') :
    ∃ u, Gives (innerBody ⟨m, [m.name], visibleFrom earlier m⟩ (inputWires 0 m.inputs))
        (State.outermost first m).inner ⟨namedOutputs n, []⟩ u ∧
      u.nodes = n.nodes ∧ u.nextId = s'.nextId := by
  obtain ⟨i, hi, -, -, houtputs, hnodes⟩ := gives_netlist h
  rw [instantiate_nil] at hi
  obtain ⟨_, s₁, hnote, hi⟩ := gives_bind.1 hi
  rw [gives_note] at hnote
  subst hnote
  obtain ⟨t, hbody, rfl⟩ := gives_enclosed.1 hi
  have hb := bodies_visible hc m (List.cons_ne_nil m.name []) (List.cons_ne_nil m.name [])
  obtain ⟨u, hu, hunodes, hunext⟩ :=
    innerBody_of_outerBody hb (sound_outermost hfirst) (known_inputWires hwidth) hbody
  -- the netlist has the outputs of the run, under the names of the ports
  have houts : namedOutputs n = i.outputs := by
    have hnames : i.outputs.map Prod.fst = m.outputs.map Port.name := names_innerBody hu
    have hzip := List.zip_unzip i.outputs
    rw [List.unzip_eq_map, hnames, List.zip_map_left] at hzip
    rw [namedOutputs, houtputs]
    exact hzip
  rw [houts]
  refine ⟨u, hu, ?_, hunext⟩
  rw [hunodes, hnodes]
  exact (Array.empty_append ..).symm

/-! ## Copies -/

/-- How the bits of a module turn into those of an instance. -/
def Renaming.ofArguments (first start : Nat) (args : List Wire) (base : Nat)
    (h : ∀ w ∈ args, w.slotsBelow base) : Renaming where
  first := first
  start := start
  width := (args.map Wire.width).sum
  pins := argumentBit args
  base := base
  pins_below i := by
    rw [argumentBit, List.getD_eq_getElem?_getD]
    cases hb : (args.flatMap fun w => w.bits.toList)[i]? with
    | none => rfl
    | some b =>
      obtain ⟨w, hw, hb⟩ := List.mem_flatMap.1 (List.mem_of_getElem? hb)
      exact Array.all_eq_true'.1 (h w hw) b (Array.mem_toList_iff.1 hb)

theorem argumentBit_left {w : Wire} {args : List Wire} {i : Nat} (h : i < w.width) :
    argumentBit (w :: args) i = w.bitOrZero i := by
  rw [argumentBit, List.flatMap_cons, List.getD_eq_getElem?_getD, List.getElem?_append_left h,
    Array.getElem?_toList, Wire.bitOrZero, Array.getD_eq_getD_getElem?]

theorem argumentBit_right (w : Wire) (args : List Wire) (i : Nat) :
    argumentBit (w :: args) (w.width + i) = argumentBit args i := by
  -- the bits of the first argument come first
  have hle : w.bits.toList.length ≤ w.width + i := by
    rw [Array.length_toList, Wire.width]
    omega
  have hsub : w.width + i - w.bits.toList.length = i := by
    rw [Array.length_toList, Wire.width]
    omega
  rw [argumentBit, List.flatMap_cons, List.getD_eq_getElem?_getD, List.getElem?_append_right hle, hsub,
    argumentBit, List.getD_eq_getElem?_getD]

theorem argumentBit_map {f : Bit → Bit} (h0 : f (.const false) = .const false) (args : List Wire)
    (i : Nat) : argumentBit (args.map (Wire.map f)) i = f (argumentBit args i) := by
  have hmap : (args.map (Wire.map f)).flatMap (fun w => w.bits.toList) =
      (args.flatMap fun w => w.bits.toList).map f := by
    rw [List.flatMap_map, List.map_flatMap]
    simp only [Wire.map, Array.toList_map]
  rw [argumentBit, argumentBit, hmap, List.getD_eq_getElem?_getD, List.getElem?_map,
    List.getD_eq_getElem?_getD]
  cases (args.flatMap fun w => w.bits.toList)[i]? with
  | none => exact h0.symm
  | some b => rfl

theorem ofFn_bitOrZero (w : Wire) : Wire.ofFn w.width w.bitOrZero = w := by
  rw [Wire.ofFn, Wire.width]
  congr 1
  refine Array.ext (by simp) fun i hi hi' => ?_
  rw [Array.getElem_ofFn, Wire.bitOrZero, Array.getD_eq_getD_getElem?, Array.getElem?_eq_getElem hi',
    Option.getD_some]

/-- The inputs of a module become the arguments. -/
theorem map_inputWires {f : Bit → Bit} {ps : List Port} : ∀ {args : List Wire} {offset : Nat},
    args.map Wire.width = ps.map Port.width → (∀ i, f (.input (offset + i)) = argumentBit args i) →
      (inputWires offset ps).map (Wire.map f) = args := by
  induction ps with
  | nil => exact fun h _ => (List.map_eq_nil_iff.1 h).symm
  | cons p ps ih =>
    intro args offset hwidth hf
    cases args with
    | nil => cases hwidth
    | cons w args =>
      rw [List.map_cons, List.map_cons, List.cons.injEq] at hwidth
      have hrest : ∀ i, f (.input (offset + p.width + i)) = argumentBit args i := by
        intro i
        rw [Nat.add_assoc, hf, ← hwidth.1, argumentBit_right]
      -- the input bits of the first port become the first argument
      have hhead : (Wire.ofFn p.width fun i => .input (offset + i)).map f = w := by
        rw [Wire.map_ofFn, ← hwidth.1]
        conv_rhs => rw [← ofFn_bitOrZero w]
        rw [Wire.ofFn, Wire.ofFn]
        congr 2
        funext i
        rw [hf, argumentBit_left i.isLt]
      rw [inputWires, List.map_cons, hhead, ih hwidth.2 hrest]

theorem inside_of_known {ρ : Renaming} {next : Nat} {b : Bit} (h : ρ.Known next 0 b) :
    Inside ρ.first next ρ.width b := by
  cases b with
  | forward k => exact absurd h (Nat.not_lt_zero k)
  | _ => exact h

/-- A renaming of a module on its own. -/
theorem exists_renaming (first width : Nat) : ∃ ρ : Renaming, ρ.first = first ∧ ρ.width = width :=
  ⟨⟨first, first, width, fun _ => .const false, 0, fun _ => rfl⟩, rfl, rfl⟩

/-- **A netlist is closed**: its nodes are numbered in order, and no slot is left. -/
theorem closed_of_netlist (hc : ∀ ρ : Renaming, List.Forall₂ ρ.Follows earlier earlier')
    (h : Gives (netlist earlier m) (State.initial first) n s') :
    Closed first n ∧ s'.nextId = first + n.nodes.size := by
  obtain ⟨ρ, hfirst, hwidth⟩ := exists_renaming first (m.inputs.map Port.width).sum
  obtain ⟨u, hu, hnodes, hnext⟩ := innerBody_of_netlist (hc ρ) hfirst hwidth h
  have hb := bodies_visible (hc ρ) m (List.cons_ne_nil m.name []) (List.cons_ne_nil m.name [])
  obtain ⟨hgrow, hsound, hfinished, -⟩ :=
    Renaming.sim_innerBody hb (known_inputWires hwidth) (sound_outermost hfirst) _ u hu
  have hcount : u.nextId = first + u.nodes.size := hgrow.nodes
  have hbase : u.slotBase = 0 := hgrow.slotBase
  obtain ⟨-, -, -, hinputs, -⟩ := gives_netlist h
  -- behind the body no slot is known, for the outermost one starts at slot 0
  have hinside : ∀ b, ρ.Known u.nextId u.slotBase b →
      Inside first (first + n.nodes.size) n.inputWidth b := by
    intro b hb
    rw [hbase] at hb
    rw [Netlist.inputWidth, ← List.sum_eq_foldr, hinputs, ← hwidth, ← hnodes, ← hcount, ← hfirst]
    exact inside_of_known hb
  refine ⟨⟨?_, ?_, ?_⟩, ?_⟩
  · intro i node hi
    have hid := hsound.ids i node (hnodes ▸ hi)
    omega
  · intro node hnode
    exact (hfinished.reads node (hnodes ▸ hnode)).imp hinside
  · intro o ho
    exact (hfinished.outputs _ (List.mem_map_of_mem ho)).imp hinside
  · rw [← hnext, hcount, hnodes]

section OfArguments

variable {start base : Nat} {args : List Wire}

/-- Inside a netlist the copy is that of its run. -/
theorem copy_eq (hbase : ∀ w ∈ args, w.slotsBelow base) {b : Bit} {next width : Nat}
    (h : Inside first next width b) :
    (Renaming.ofArguments first start args base hbase).bit b = b.copy first start args := by
  cases b with
  | forward k => exact h.elim
  | _ => rfl

theorem wires_copied (hclosed : Closed first n) (hbase : ∀ w ∈ args, w.slotsBelow base) :
    (Renaming.ofArguments first start args base hbase).wires (namedOutputs n) =
      n.outputs.map fun o => (o.1.name, o.2.map (Bit.copy first start args)) := by
  simp only [Renaming.wires, namedOutputs, List.map_map]
  refine List.map_congr_left fun o ho => ?_
  rw [Function.comp_apply, Renaming.wire,
    Wire.map_congr ((hclosed.outputs o ho).imp fun _ h => copy_eq hbase h)]

theorem nodes_copied (hclosed : Closed first n) (hbase : ∀ w ∈ args, w.slotsBelow base) :
    n.nodes.map (Renaming.ofArguments first start args base hbase).node =
      n.nodes.map (Node.copy first start args) := by
  refine Array.map_congr_left fun node hnode => ?_
  rw [Renaming.node, Node.copy,
    Cell.map_congr ((hclosed.reads node hnode).imp fun _ h => copy_eq hbase h)]
  rfl

/-- The start of the body of an instance beside that of the module on its own. -/
theorem beside_ofArguments (m : Module) (hbase : ∀ w ∈ args, w.slotsBelow s.limit) (log : List Event) :
    Renaming.Beside (Renaming.ofArguments first s.nextId args s.limit hbase)
      (State.outermost first m).inner (State.inner { s with log := log }) :=
  ⟨by simp [State.inner, State.outermost, State.initial, Renaming.ofArguments],
    by simp [State.inner, State.outermost, State.initial, Renaming.ofArguments, State.limit], rfl,
    by simp [State.inner]⟩

end OfArguments

/-- **The instances of a module copy its own netlist**, whichever callees of the same effect they use. -/
theorem pastes_of_netlist (hc : ∀ ρ : Renaming, List.Forall₂ ρ.Follows earlier earlier')
    (h : Gives (netlist earlier m) (State.initial first) n s') :
    (Callee.ofModule earlier' m).Pastes first n := by
  intro caller chain args s hwidth hbelow
  obtain ⟨-, -, -, hinputs, -⟩ := gives_netlist h
  have hsum : (args.map Wire.width).sum = (m.inputs.map Port.width).sum := by rw [hwidth, hinputs]
  -- the renaming from the module on its own to this instance
  have hρ := hc (Renaming.ofArguments first s.nextId args s.limit hbelow)
  obtain ⟨hclosed, -⟩ := closed_of_netlist hc h
  obtain ⟨u, hu, hnodes, -⟩ := innerBody_of_netlist hρ rfl hsum h
  have hb := bodies_visible hρ m (List.cons_ne_nil m.name []) (List.cons_ne_nil m.name (caller :: chain))
  obtain ⟨hgrow, -, -, hcopy⟩ :=
    Renaming.sim_innerBody hb (known_inputWires hsum) (sound_outermost rfl) _ u hu
  have hcount : u.nextId = first + u.nodes.size := hgrow.nodes
  obtain ⟨t, ht, hbeside⟩ := hcopy _
    (beside_ofArguments m hbelow (.instantiating (caller :: chain).length m.name :: s.log))
  have hargs : (inputWires 0 m.inputs).map
      (Renaming.ofArguments first s.nextId args s.limit hbelow).wire = args := by
    refine map_inputWires (by rw [hwidth, hinputs]) fun i => ?_
    rw [Nat.zero_add]
    rfl
  rw [hargs] at ht
  have hinstance : Gives (instantiate (visibleFrom earlier' m) m (caller :: chain) args) s
      ((Renaming.ofArguments first s.nextId args s.limit hbelow).ofInstance ⟨namedOutputs n, []⟩)
      (State.leave { s with log := .instantiating (caller :: chain).length m.name :: s.log } t) := by
    rw [instantiate_cons]
    exact gives_bind.2 ⟨(), _, gives_note.2 rfl, gives_enclosed.2 ⟨t, ht, rfl⟩⟩
  have hnext : t.nextId = s.nextId + n.nodes.size := by
    rw [hbeside.nextId, hcount, hnodes]
    simp only [Renaming.ofArguments]
    omega
  have hcopied : t.nodes = n.nodes.map (Node.copy first s.nextId args) := by
    rw [hbeside.nodes, hnodes, nodes_copied hclosed hbelow]
  refine ⟨t.log, gives_bind.2 ⟨_, _, hinstance, gives_pure.2 ⟨(wires_copied hclosed hbelow).symm, ?_⟩⟩⟩
  rw [State.leave, hnext, hcopied]

/-- Copying twice is copying once. -/
theorem bit_copy {ρ : Renaming} {next width start : Nat} {args : List Wire} (hstart : ρ.first ≤ start)
    {b : Bit} (h : Inside first next width b) : ρ.bit (b.copy first start args) =
      b.copy first (start - ρ.first + ρ.start) (args.map ρ.wire) := by
  cases b with
  | node id =>
    simp only [Bit.copy, Renaming.bit, Bit.node.injEq]
    omega
  | input i => exact (argumentBit_map rfl args i).symm
  | const v => rfl
  | forward k => exact h.elim

theorem gives_pasted {chain : List String} {args : List Wire}
    (hwidth : args.map Wire.width = n.inputs.map Port.width) (hbelow : ∀ w ∈ args, w.slotsBelow s.limit) :
    Gives ((Callee.pasted first n).instantiate chain args) s
      (n.outputs.map fun o => (o.1.name, o.2.map (Bit.copy first s.nextId args)))
      { s with
        nextId := s.nextId + n.nodes.size
        nodes := s.nodes ++ n.nodes.map (Node.copy first s.nextId args) } := by
  refine gives_bind.2 ⟨s, s, gives_get.2 ⟨rfl, rfl⟩, ?_⟩
  simp only [if_pos (And.intro hwidth hbelow)]
  exact gives_bind.2 ⟨(), _, gives_modify.2 rfl, gives_pure.2 ⟨rfl, rfl⟩⟩

section Pasted

variable {ρ : Renaming} {t : State} {args : List Wire}

/-- The copy of a netlist in the copy of a body is the copy of its copy. -/
theorem outputs_pasted (hclosed : Closed first n) (hfirst : ρ.first ≤ s.nextId) (ht : ρ.Beside s t) :
    (n.outputs.map fun o => (o.1.name, o.2.map (Bit.copy first t.nextId (args.map ρ.wire)))) =
      ρ.wires (n.outputs.map fun o => (o.1.name, o.2.map (Bit.copy first s.nextId args))) := by
  rw [Renaming.wires, List.map_map]
  refine List.map_congr_left fun o ho => ?_
  rw [Function.comp_apply, Renaming.wire, Wire.map_map, ht.nextId,
    Wire.map_congr ((hclosed.outputs o ho).imp fun _ h => bit_copy hfirst h)]

theorem beside_pasted (hclosed : Closed first n) (hfirst : ρ.first ≤ s.nextId) (ht : ρ.Beside s t)
    (log log' : List Event) :
    ρ.Beside
      { s with
        nextId := s.nextId + n.nodes.size
        nodes := s.nodes ++ n.nodes.map (Node.copy first s.nextId args)
        log := log }
      { t with
        nextId := t.nextId + n.nodes.size
        nodes := t.nodes ++ n.nodes.map (Node.copy first t.nextId (args.map ρ.wire))
        log := log' } := by
  refine ⟨?_, ht.slotBase, ht.slots, ?_⟩
  · simp only [ht.nextId]
    omega
  · simp only [ht.nodes, Array.map_append, Array.map_map]
    congr 1
    refine Array.map_congr_left fun node hnode => ?_
    obtain ⟨i, hi⟩ := Array.mem_iff_getElem?.1 hnode
    have hid := hclosed.ids i node hi
    simp only [Function.comp_apply, Node.copy, Renaming.node, Cell.map_map, ht.nextId, Node.mk.injEq]
    refine ⟨by omega, ?_⟩
    rw [Cell.map_congr ((hclosed.reads node hnode).imp fun _ h => bit_copy hfirst h)]

/-- The arguments of the copy are as wide, and name open slots. -/
theorem gives_pasted_copy (hwidth : args.map Wire.width = n.inputs.map Port.width)
    (hargs : ∀ w ∈ args, w.All (ρ.KnownAt s)) (ht : ρ.Beside s t) (chain : List String) :
    Gives ((Callee.pasted first n).instantiate chain (args.map ρ.wire)) t
      (n.outputs.map fun o => (o.1.name, o.2.map (Bit.copy first t.nextId (args.map ρ.wire))))
      { t with
        nextId := t.nextId + n.nodes.size
        nodes := t.nodes ++ n.nodes.map (Node.copy first t.nextId (args.map ρ.wire)) } := by
  refine gives_pasted ?_ fun w hw => ?_
  · rw [← hwidth, List.map_map]
    exact List.map_congr_left fun w _ => Wire.width_map _ w
  · obtain ⟨v, hv, rfl⟩ := List.mem_map.1 hw
    rw [ht.limit]
    refine Array.all_eq_true'.2 (Wire.All.map fun b hb => ?_)
    exact Renaming.below_bit (hargs v hv b hb).slotBelow

/-- **What pastes a netlist does what its module does.** -/
theorem follows_pasted (hc : ∀ ρ : Renaming, List.Forall₂ ρ.Follows earlier earlier)
    (h : Gives (netlist earlier m) (State.initial first) n s') :
    ρ.Follows (Callee.ofModule earlier m) (Callee.pasted first n) := by
  obtain ⟨-, -, hname, hinputs, -⟩ := gives_netlist h
  obtain ⟨hclosed, -⟩ := closed_of_netlist hc h
  refine ⟨hname, hinputs, fun s chain chain' args hchain hchain' hwidth hargs hs outs s₁ houts => ?_⟩
  obtain ⟨hgrow, hs₁, hall, -⟩ := (Renaming.follows_ofModule (hc ρ) m).instantiate s chain chain args
    hchain hchain hwidth hargs hs outs s₁ houts
  refine ⟨hgrow, hs₁, hall, fun t ht => ?_⟩
  -- the instance outside the copy is a copy of the netlist, too
  obtain ⟨caller, chain, rfl⟩ := List.exists_cons_of_ne_nil hchain
  have hbelow : ∀ w ∈ args, w.slotsBelow s.limit := fun w hw =>
    Array.all_eq_true'.2 fun b hb => (hargs w hw b hb).slotBelow
  have hwidth' : args.map Wire.width = n.inputs.map Port.width := hinputs ▸ hwidth
  obtain ⟨log, hpaste⟩ := pastes_of_netlist hc h caller chain args s hwidth' hbelow
  obtain ⟨rfl, rfl⟩ := houts.unique hpaste
  have hfirst : ρ.first ≤ s.nextId := Nat.le_trans (Nat.le_add_right _ _) hs.first_le
  have hcopy : Gives ((Callee.pasted first n).instantiate chain' (args.map ρ.wire)) t _ _ :=
    gives_pasted_copy hwidth' hargs ht chain'
  rw [outputs_pasted hclosed hfirst ht] at hcopy
  exact ⟨_, hcopy, beside_pasted hclosed hfirst ht log t.log⟩

end Pasted

/-! ## Designs -/

/-- The number of nodes of the netlists. -/
def nodeCount (ns : List Netlist) : Nat := (ns.map (·.nodes.size)).sum

/-- The callees whose instances are copies of the netlists, the last one first, whose nodes are numbered one
after another from `first` on. -/
def pastedOf (first : Nat) : List Netlist → List Callee
  | [] => []
  | n :: ns => Callee.pasted (first + nodeCount ns) n :: pastedOf first ns

/-- What instances of `d` have to do with its netlist `n`, whose nodes are numbered from `first` on. The
modules before it are `earlier`, and `copies` are the callees that copy the netlists of these. -/
structure Faithful (earlier copies : List Callee) (d : Module) (first : Nat) (n : Netlist) : Prop where
  /-- The netlist is that of the module on its own. -/
  own : ∃ s, Gives (netlist earlier d) (State.initial first) n s
  /-- It stays the same when all instances in it, of which none is refused, are copies by definition. -/
  nested : ∃ s, Gives (netlist copies d) (State.initial first) n s
  /-- No two instances in it share a node: all its nodes are numbered one after another. -/
  distinct : ∀ i node, n.nodes[i]? = some node → node.id = first + i
  /-- Whatever surrounds an instance, it succeeds and is a copy. -/
  pastes : (Callee.ofModule earlier d).Pastes first n
  /-- The nodes of a copy are new and in order. -/
  numbered : ∀ start args i node, (n.nodes.map (Node.copy first start args))[i]? = some node →
    node.id = start + i
  /-- Resolving the caller's slots in the nodes of a copy is resolving them in its arguments. -/
  nodes_resolved : ∀ start args base ends, ∀ node ∈ n.nodes,
    (node.copy first start args).cell.map (Bit.resolve base ends) =
      (node.copy first start (args.map (Wire.map (Bit.resolve base ends)))).cell
  /-- Resolving the caller's slots in the outputs of a copy is resolving them in its arguments. -/
  outputs_resolved : ∀ start args base ends, ∀ o ∈ n.outputs,
    (o.2.map (Bit.copy first start args)).map (Bit.resolve base ends) =
      o.2.map (Bit.copy first start (args.map (Wire.map (Bit.resolve base ends))))

/-- The renaming that changes nothing. -/
def Renaming.same (width : Nat) : Renaming := ⟨0, 0, width, .input, 0, fun _ => rfl⟩

theorem Renaming.same_bit (width : Nat) (b : Bit) : (Renaming.same width).bit b = b := by
  cases b <;> rfl

theorem Renaming.same_wire (width : Nat) (w : Wire) : (Renaming.same width).wire w = w := by
  have hid : w.bits.map (Renaming.same width).bit = w.bits := by
    rw [funext (Renaming.same_bit width), Array.map_id']
  rw [Renaming.wire, Wire.map, hid]

theorem Renaming.same_wires (width : Nat) (ws : List (String × Wire)) :
    (Renaming.same width).wires ws = ws := by
  simp only [Renaming.wires, Renaming.same_wire, List.map_id']

theorem Renaming.same_node (width : Nat) (n : Node) : (Renaming.same width).node n = n := by
  have hcell : n.cell.map (Renaming.same width).bit = n.cell := by
    cases n.cell <;> simp only [Cell.map, Renaming.same_bit]
  rw [Renaming.node, hcell]
  rfl

/-- **The netlist of a module** stays the same when callees of the same effect take the place of those
that it calls. -/
theorem gives_netlist_of_follows (hc : ∀ ρ : Renaming, List.Forall₂ ρ.Follows earlier earlier')
    (h : Gives (netlist earlier m) (State.initial first) n s') :
    ∃ s, Gives (netlist earlier' m) (State.initial first) n s := by
  obtain ⟨i, s₁, hi, h⟩ := gives_bind.1 h
  obtain ⟨_, s₂, hget, h⟩ := gives_bind.1 h
  obtain ⟨rfl, rfl⟩ := gives_get.1 hget
  obtain ⟨rfl, rfl⟩ := gives_pure.1 h
  obtain ⟨ρ, hρ⟩ : ∃ ρ, ρ = Renaming.same (m.inputs.map Port.width).sum := ⟨_, rfl⟩
  have hb := bodies_visible (hc ρ) m (List.cons_ne_nil m.name []) (List.cons_ne_nil m.name [])
  -- the simulation changes what is called and nothing else
  have hsim : ρ.Sim (State.initial first)
      (instantiate (visibleFrom earlier m) m [] (inputWires 0 m.inputs))
      (instantiate (visibleFrom earlier' m) m [] ((inputWires 0 m.inputs).map ρ.wire)) ρ.ofInstance
      fun s' i => ∀ o ∈ i.outputs, o.2.All (ρ.KnownAt s') := by
    rw [instantiate_nil, instantiate_nil]
    refine (Renaming.sim_note _ _).bind fun _ _ _ _ => Renaming.sim_enclosed (Renaming.sim_outerBody hb ?_)
    exact known_inputWires (by rw [hρ]; rfl)
  have hsound : ρ.Sound (State.initial first) := ⟨nofun, nofun, by rw [hρ]; exact Nat.zero_le _⟩
  have hbeside : ρ.Beside (State.initial first) (State.initial first) := by
    rw [hρ]
    exact ⟨rfl, rfl, rfl, Array.map_empty.symm⟩
  obtain ⟨-, -, -, hcopy⟩ := hsim hsound i _ hi
  obtain ⟨t, ht, hnodes⟩ := hcopy _ hbeside
  have hinstance : ρ.ofInstance i = i := by
    rw [hρ, Renaming.ofInstance, Renaming.same_wires, Renaming.same_wires]
  have hsame : t.nodes = s'.nodes := by
    rw [hnodes.nodes, hρ, funext (Renaming.same_node _), Array.map_id']
  have hargs : (inputWires 0 m.inputs).map ρ.wire = inputWires 0 m.inputs := by
    rw [hρ, funext (Renaming.same_wire _), List.map_id']
  rw [hinstance, hargs] at ht
  refine ⟨t, gives_bind.2 ⟨i, t, ht, gives_bind.2 ⟨t, t, gives_get.2 ⟨rfl, rfl⟩, gives_pure.2 ⟨?_, rfl⟩⟩⟩⟩
  rw [hsame]

theorem faithful_of_netlist {copies : List Callee}
    (hself : ∀ ρ : Renaming, List.Forall₂ ρ.Follows earlier earlier)
    (hcopies : ∀ ρ : Renaming, List.Forall₂ ρ.Follows earlier copies)
    (h : Gives (netlist earlier m) (State.initial first) n s') : Faithful earlier copies m first n := by
  obtain ⟨hclosed, -⟩ := closed_of_netlist hself h
  -- nothing inside a netlist is a slot, so only arguments are resolved
  have hresolve : ∀ start args base ends b, Inside first (first + n.nodes.size) n.inputWidth b →
      (b.copy first start args).resolve base ends =
        b.copy first start (args.map (Wire.map (Bit.resolve base ends))) := by
    intro start args base ends b hb
    cases b with
    | input i => exact (argumentBit_map rfl args i).symm
    | forward k => exact hb.elim
    | _ => rfl
  refine ⟨⟨s', h⟩, gives_netlist_of_follows hcopies h, hclosed.ids, pastes_of_netlist hself h, ?_, ?_, ?_⟩
  · intro start args i node hnode
    rw [Array.getElem?_map] at hnode
    obtain ⟨original, horiginal, rfl⟩ := Option.map_eq_some_iff.1 hnode
    have hid := hclosed.ids i original horiginal
    simp only [Node.copy]
    omega
  · intro start args base ends node hnode
    rw [Node.copy, Node.copy, Cell.map_map,
      Cell.map_congr ((hclosed.reads node hnode).imp (hresolve start args base ends))]
  · intro start args base ends o ho
    rw [Wire.map_map, Wire.map_congr ((hclosed.outputs o ho).imp (hresolve start args base ends))]

theorem compileFrom_cons {ms : List Module} {ns : List Netlist}
    (h : (compileFrom earlier first (m :: ms)).result = .ok ns) :
    ∃ n s rest, Gives (netlist earlier m) (State.initial first) n s ∧
      (compileFrom (Callee.ofModule earlier m :: earlier) s.nextId ms).result = .ok rest ∧
      ns = n :: rest := by
  rw [compileFrom] at h
  split at h
  · cases h
  · next n s hrun =>
    dsimp only at h
    cases hrest : (compileFrom (Callee.ofModule earlier m :: earlier) s.nextId ms).result with
    | error e =>
      rw [hrest] at h
      cases h
    | ok rest =>
      rw [hrest] at h
      cases h
      exact ⟨n, s, rest, hrun, hrest, rfl⟩

/-- What calls modules follows itself. -/
theorem follows_calleesOf (ρ : Renaming) (es : List Module) :
    List.Forall₂ ρ.Follows (calleesOf es) (calleesOf es) := by
  induction es with
  | nil => exact .nil
  | cons m es ih => exact .cons (Renaming.follows_ofModule ih m) ih

/-- The instances of every module are copies if those of the modules `es` before it are. -/
theorem faithful_of_compileFrom {d : Module} (ms : List Module) :
    ∀ {es : List Module} {before : List Netlist} {k : Nat} {ns : List Netlist},
      (∀ ρ : Renaming, List.Forall₂ ρ.Follows (calleesOf es) (pastedOf first before)) →
      (compileFrom (calleesOf es) (first + nodeCount before) ms).result = .ok ns →
      ms[k]? = some d → ns[k]? = some n →
      Faithful (calleesOf ((ms.take k).reverse ++ es)) (pastedOf first ((ns.take k).reverse ++ before)) d
        (first + nodeCount ((ns.take k).reverse ++ before)) n := by
  induction ms with
  | nil => exact fun _ _ hd => nomatch hd
  | cons m ms ih =>
    intro es before k ns hcopies h hd hn
    obtain ⟨n₀, s, rest, hnetlist, hrest, rfl⟩ := compileFrom_cons h
    cases k with
    | zero =>
      cases hd
      cases hn
      exact faithful_of_netlist (fun ρ => follows_calleesOf ρ es) hcopies hnetlist
    | succ k =>
      -- the next netlist is numbered on from the nodes of this one
      have hnext : s.nextId = first + nodeCount (n₀ :: before) := by
        rw [(closed_of_netlist (fun ρ => follows_calleesOf ρ es) hnetlist).2, nodeCount, nodeCount,
          List.map_cons, List.sum_cons]
        omega
      have hcopies' : ∀ ρ : Renaming,
          List.Forall₂ ρ.Follows (calleesOf (m :: es)) (pastedOf first (n₀ :: before)) :=
        fun ρ => .cons (follows_pasted (fun ρ => follows_calleesOf ρ es) hnetlist) (hcopies ρ)
      rw [hnext] at hrest
      have hfaithful := ih hcopies' hrest hd hn
      rwa [List.take_succ_cons, List.take_succ_cons, List.reverse_cons, List.reverse_cons,
        List.append_assoc, List.append_assoc]

/-- The netlists of a design come from elaborating its modules in order. -/
theorem compileFrom_of_compile {l : Ledger} {ms : List Module} {lib : Library}
    (h : (l.compile ms).result = .ok lib) : (compileFrom [] l.nextId ms).result = .ok lib.netlists := by
  rw [Ledger.compile] at h
  split at h
  · cases h
  · dsimp only at h
    cases hns : (compileFrom [] l.nextId ms).result with
    | error e =>
      rw [hns] at h
      cases h
    | ok ns =>
      rw [hns] at h
      cases h
      rfl

/-- **Every instance in a design is a copy** of the netlist that the design has for its module, at any
depth and wherever the instance stands. -/
theorem instances_are_copies {l : Ledger} {ms : List Module} {lib : Library}
    (h : (l.compile ms).result = .ok lib) {k : Nat} {d : Module} (hd : ms[k]? = some d) {n : Netlist}
    (hn : lib.netlists[k]? = some n) :
    Faithful (calleesOf (ms.take k).reverse) (pastedOf l.nextId (lib.netlists.take k).reverse) d
      (l.nextId + nodeCount (lib.netlists.take k).reverse) n := by
  have hstart : ∀ ρ : Renaming, List.Forall₂ ρ.Follows (calleesOf []) (pastedOf l.nextId []) :=
    fun _ => .nil
  have hfaithful := faithful_of_compileFrom ms hstart (compileFrom_of_compile h) hd hn
  rwa [List.append_nil, List.append_nil] at hfaithful

/-- An inverter. -/
def inverter : Module :=
  ⟨"Not", [⟨"a", 1⟩], [⟨"y", 1⟩], [⟨⟨"y", none⟩, .call "nand" [.identifier "a", .identifier "a"]⟩]⟩

/-- A latch. Its gates read each other, one of them through two instances. -/
def latch : Module :=
  ⟨"Latch", [⟨"s", 1⟩, ⟨"r", 1⟩], [⟨"q", 1⟩],
    [⟨⟨"q", none⟩, .call "nand" [.identifier "s", .identifier "p"]⟩,
      ⟨⟨"p", none⟩, .call "nand" [.identifier "r", .call "Not" [.call "Not" [.identifier "q"]]]⟩]⟩

/-- The latch, the module that it calls, and one that feeds it with a name of a later statement. -/
def latched : List Module :=
  [inverter, latch,
    ⟨"Top", [⟨"x", 2⟩], [⟨"z", 1⟩],
      [⟨⟨"z", none⟩, .call "Latch" [.identifier "v", .select (.identifier "x") (.bit 0)]⟩,
        ⟨⟨"v", none⟩, .call "Not" [.identifier "x"]⟩]⟩]

theorem latched_sizes : ((Ledger.compile {} latched).result.toOption.map fun lib =>
    lib.netlists.map (·.nodes.size)) = some [1, 4, 5] := by decide +kernel

theorem latch_copied : ∃ lib n, (Ledger.compile {} latched).result = .ok lib ∧ latched[1]? = some latch ∧
    lib.netlists[1]? = some n ∧ n.nodes.size = 4 ∧
    Faithful (calleesOf (latched.take 1).reverse) (pastedOf 0 (lib.netlists.take 1).reverse) latch
      (0 + nodeCount (lib.netlists.take 1).reverse) n := by
  have hsizes := latched_sizes
  cases h : (Ledger.compile {} latched).result with
  | error e =>
    rw [h] at hsizes
    cases hsizes
  | ok lib =>
    rw [h] at hsizes
    have hsizes : lib.netlists.map (·.nodes.size) = [1, 4, 5] := Option.some.inj hsizes
    have hsecond : (lib.netlists[1]?).map (·.nodes.size) = some 4 := by
      rw [← List.getElem?_map, hsizes]
      rfl
    obtain ⟨n, hn, hsize⟩ := Option.map_eq_some_iff.1 hsecond
    exact ⟨lib, n, rfl, rfl, hn, hsize, instances_are_copies h rfl hn⟩

end Elaboration

end NandHdl
