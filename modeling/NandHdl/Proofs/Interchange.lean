import NandHdl.Proofs.Zeroing

/-!
# Another module in the place of a module

Elaboration looks at the widths of what an instance outputs, and at the slots that it reads, and not at its
nodes. A module can take the place of another one if their netlists differ in the numbers and the order of the
nodes alone: what is behind them compiles as before.

* `Likeness.shape`: no two nodes are told apart, and their order does not matter.
* `calls_pasted`: instances of netlists of one shape agree.
* `pasted_follows`: what a copy of a netlist does, its module does.
* `Interchangeable`: the modules seen by the rest of a design, and those that can take their place.
* `compileFrom_interchange`: **the rest of a design compiles behind either of them.**
-/

namespace NandHdl

namespace Elaboration

/-- Nodes are not told apart, and their order does not matter. Nor do reports. -/
def Likeness.shape : Likeness where
  ids _ := 0
  ids_add _ _ := rfl
  order := Array.Perm
  order_refl := Array.Perm.refl
  order_append := Array.Perm.append
  order_map f _ _ h := by
    rw [Array.perm_iff_toList_perm] at h ⊢
    rw [Array.toList_map, Array.toList_map]
    exact h.map f
  order_mem h _ := h.mem_iff
  log _ _ := True
  log_note _ _ _ _ := trivial
  log_left _ _ := trivial
  log_right _ _ := trivial

namespace Likeness

/-! ## Instances -/

section Pasted

variable {first first' start start' : Nat} {n n' : Netlist} {args args' : List Wire}

/-- The shape of a copied bit is decided by the shapes of the bit and of the arguments. -/
theorem shape_copy (b : Bit) : shape.bit (b.copy first start args) =
    (shape.bit b).copy 0 0 (args.map (Wire.map shape.bit)) := by
  cases b with
  | input i => exact (argumentBit_map rfl args i).symm
  | _ => rfl

theorem shape_copy_wire (w : Wire) : (w.map (Bit.copy first start args)).map shape.bit =
    (w.map shape.bit).map (Bit.copy 0 0 (args.map (Wire.map shape.bit))) := by
  rw [Wire.map_map, Wire.map_map, funext shape_copy]

theorem shape_copy_node (node : Node) : shape.node (node.copy first start args) =
    (shape.node node).copy 0 0 (args.map (Wire.map shape.bit)) := by
  simp only [Likeness.node, Node.rename, Node.copy, Cell.map_map]
  exact congrArg (Node.mk 0) (congrArg (Cell.map · node.cell) (funext shape_copy))

theorem named_copies (h : shape.Netlists n n') (hargs : shape.Arguments args args') :
    shape.Named (n.outputs.map fun o => (o.1.name, o.2.map (Bit.copy first start args)))
      (n'.outputs.map fun o => (o.1.name, o.2.map (Bit.copy first' start' args'))) := by
  have hcopy : ∀ (first start : Nat) (args : List Wire) (os : List (Port × Wire)),
      ((os.map fun o => (o.1.name, o.2.map (Bit.copy first start args))).map
        fun w => (w.1, w.2.map shape.bit)) =
        (os.map fun o => (o.1, o.2.map shape.bit)).map fun o =>
          (o.1.name, o.2.map (Bit.copy 0 0 (args.map (Wire.map shape.bit)))) := by
    intro first start args os
    rw [List.map_map, List.map_map]
    exact List.map_congr_left fun o _ => congrArg (Prod.mk _) (shape_copy_wire o.2)
  rw [Named, hcopy, hcopy, h.outputs, hargs]

theorem order_copies (h : shape.Netlists n n') (hargs : shape.Arguments args args') :
    shape.order ((n.nodes.map (Node.copy first start args)).map shape.node)
      ((n'.nodes.map (Node.copy first' start' args')).map shape.node) := by
  have hcopy : ∀ (first start : Nat) (args : List Wire) (ks : Array Node),
      (ks.map (Node.copy first start args)).map shape.node =
        (ks.map shape.node).map (Node.copy 0 0 (args.map (Wire.map shape.bit))) := by
    intro first start args ks
    rw [Array.map_map, Array.map_map]
    exact Array.map_congr_left fun node _ => shape_copy_node node
  rw [hcopy, hcopy, hargs]
  exact shape.order_map _ h.nodes

/-- **Instances of netlists of one shape agree.** -/
theorem calls_pasted (h : shape.Netlists n n') : shape.Calls (Callee.pasted first n)
    (Callee.pasted first' n') where
  name := h.name
  inputs := h.inputs
  instantiate chain args args' hargs := by
    have hwidth : args.map Wire.width = args'.map Wire.width := by
      have hmap : ∀ ws : List Wire,
          ws.map Wire.width = (ws.map (Wire.map shape.bit)).map Wire.width := fun ws => by
        rw [List.map_map]
        exact List.map_congr_left fun w _ => (Wire.width_map shape.bit w).symm
      rw [hmap args, hargs, ← hmap]
    have hbelow : ∀ limit, (∀ w ∈ args, w.slotsBelow limit) ↔ ∀ w ∈ args', w.slotsBelow limit := by
      have hmap : ∀ (limit : Nat) (ws : List Wire),
          (∀ w ∈ ws, w.slotsBelow limit) ↔
            ∀ w ∈ ws.map (Wire.map shape.bit), w.slotsBelow limit := fun limit ws => by
        rw [List.forall_mem_map]
        exact forall₂_congr fun w _ => by rw [bit, Wire.slotsBelow_rename]
      exact fun limit => by rw [hmap limit args, hargs, ← hmap]
    simp only [Callee.pasted]
    refine agree_get.bind fun s t hst => ?_
    have hlimit : s.limit = t.limit := by rw [State.limit, State.limit, hst.slotBase, hst.slots]
    simp only [hwidth, h.inputs, hbelow, hlimit]
    split
    · refine (Agree.modify fun s' t' hst' => ?_).bind fun _ _ _ => Agree.pure (named_copies h hargs)
      refine ⟨rfl, ?_, hst'.slotBase, hst'.slots, trivial⟩
      simp only [Array.map_append]
      exact shape.order_append hst'.nodes (order_copies h hargs)
    · exact Agree.throw_bind _

end Pasted

theorem calls_calleesOf {L : Likeness} (es : List Module) : List.Forall₂ L.Calls (calleesOf es)
    (calleesOf es) := by
  induction es with
  | nil => exact .nil
  | cons m es ih => exact .cons (calls_ofModule (.refl es m) (names_calleesOf es) ih) ih

end Likeness

/-! ## Copies and modules -/

section Follows

variable {ρ : Renaming} {earlier : List Callee} {m : Module} {first : Nat} {n : Netlist} {s' : State}

/-- **What a copy of a netlist does, its module does.** -/
theorem pasted_follows (hc : ∀ ρ : Renaming, List.Forall₂ ρ.Follows earlier earlier)
    (h : Gives (netlist earlier m) (State.initial first) n s') :
    ρ.Follows (Callee.pasted first n) (Callee.ofModule earlier m) := by
  obtain ⟨-, -, hname, hinputs, -⟩ := gives_netlist h
  obtain ⟨hclosed, -⟩ := closed_of_netlist hc h
  refine ⟨hname.symm, hinputs.symm, fun s chain chain' args hchain hchain' hwidth hargs hs outs s₁ houts => ?_⟩
  have hwidth : args.map Wire.width = n.inputs.map Port.width := hwidth
  have hwidthm : args.map Wire.width = m.inputs.map Port.width := hinputs ▸ hwidth
  have hbelow : ∀ w ∈ args, w.slotsBelow s.limit := fun w hw =>
    Array.all_eq_true'.2 fun b hb => (hargs w hw b hb).slotBelow
  obtain ⟨rfl, rfl⟩ := houts.unique (gives_pasted hwidth hbelow)
  -- the module does the same from the state on, reports apart
  obtain ⟨caller, chain', rfl⟩ := List.exists_cons_of_ne_nil hchain'
  obtain ⟨log, hpaste⟩ := pastes_of_netlist hc h caller chain' args s hwidth hbelow
  obtain ⟨hgrow, hs₁, hall, -⟩ := (Renaming.follows_ofModule (hc ρ) m).instantiate s _ _ args
    (List.cons_ne_nil caller chain') (List.cons_ne_nil caller chain') hwidthm hargs hs _ _ hpaste
  refine ⟨⟨hgrow.nextId, hgrow.nodes, hgrow.slotBase, hgrow.slots⟩, ⟨hs₁.reads, hs₁.ids, hs₁.first_le⟩, hall,
    fun t ht => ?_⟩
  have hfirst : ρ.first ≤ s.nextId := Nat.le_trans (Nat.le_add_right _ _) hs.first_le
  have hwidth' : (args.map ρ.wire).map Wire.width = n.inputs.map Port.width := by
    rw [← hwidth, List.map_map]
    exact List.map_congr_left fun w _ => Wire.width_map _ w
  have hbelow' : ∀ w ∈ args.map ρ.wire, w.slotsBelow t.limit := fun w hw => by
    obtain ⟨v, hv, rfl⟩ := List.mem_map.1 hw
    rw [ht.limit]
    exact Array.all_eq_true'.2 (Wire.All.map fun b hb => Renaming.below_bit (hargs v hv b hb).slotBelow)
  obtain ⟨log', hcopy⟩ := pastes_of_netlist hc h caller chain' (args.map ρ.wire) t hwidth' hbelow'
  rw [outputs_pasted hclosed hfirst ht] at hcopy
  exact ⟨_, hcopy, beside_pasted hclosed hfirst ht s.log log'⟩

end Follows

/-! ## The rest of a design -/

/-- The modules `es'` can take the place of the modules `es`: their instances do what copies of netlists of the
same shape do. -/
def Interchangeable (es es' : List Module) : Prop :=
  ∃ ps ps', (∀ ρ : Renaming, List.Forall₂ ρ.Follows (calleesOf es) ps) ∧
    List.Forall₂ Likeness.shape.Calls ps ps' ∧ ∀ ρ : Renaming, List.Forall₂ ρ.Follows ps' (calleesOf es')

section Interchange

variable {es es' : List Module} {m m' : Module} {first first' : Nat} {n n' : Netlist} {s s' : State}

theorem names_of_follows {ρ : Renaming} {ps : List Callee} (h : List.Forall₂ ρ.Follows (calleesOf es) ps) :
    ps.map (·.name) = es.map (·.name) := by
  rw [← Likeness.names_calleesOf]
  generalize calleesOf es = cs at h
  induction h with
  | nil => rfl
  | cons hc _ ih => rw [List.map_cons, List.map_cons, ih, hc.name]

/-- Modules whose netlists have one shape. -/
theorem interchangeable_of_shape (hn : Gives (netlist (calleesOf es) m) (State.initial first) n s)
    (hn' : Gives (netlist (calleesOf es) m') (State.initial first') n' s') (h : Likeness.shape.Netlists n n') :
    Interchangeable (m :: es) (m' :: es) := by
  have hself := fun ρ => follows_calleesOf ρ es
  exact ⟨Callee.pasted first n :: calleesOf es, Callee.pasted first' n' :: calleesOf es,
    fun ρ => .cons (follows_pasted hself hn) (hself ρ),
      .cons (Likeness.calls_pasted h) (Likeness.calls_calleesOf es),
    fun ρ => .cons (pasted_follows hself hn') (hself ρ)⟩

/-- A module behind both. -/
theorem Interchangeable.cons (h : Interchangeable es es') (m : Module) : Interchangeable (m :: es)
    (m :: es') := by
  obtain ⟨ps, ps', hes, hps, hes'⟩ := h
  have hnames : ps.map (·.name) = es.map (·.name) := names_of_follows (hes (Renaming.same 0))
  exact ⟨Callee.ofModule ps m :: ps, Callee.ofModule ps' m :: ps',
    fun ρ => .cons (Renaming.follows_ofModule (hes ρ) m) (hes ρ),
    .cons (Likeness.calls_ofModule (.refl es m) hnames hps) hps,
    fun ρ => .cons (Renaming.follows_ofModule (hes' ρ) m) (hes' ρ)⟩

/-- A module behind one of them compiles behind the other. -/
theorem Interchangeable.netlist (h : Interchangeable es es')
    (hn : Gives (netlist (calleesOf es) m) (State.initial first) n s) (first' : Nat) :
    ∃ n' s', Gives (Elaboration.netlist (calleesOf es') m) (State.initial first') n' s' := by
  obtain ⟨ps, ps', hes, hps, hes'⟩ := h
  have hnames : ps.map (·.name) = es.map (·.name) := names_of_follows (hes (Renaming.same 0))
  have hinitial : Likeness.shape.States (State.initial first) (State.initial first') :=
    ⟨rfl, Array.Perm.refl _, rfl, rfl, trivial⟩
  -- from the modules to the copies, from one shape to the other, and back to the modules
  obtain ⟨t, hpasted⟩ := gives_netlist_of_follows hes hn
  obtain ⟨n', t', hpasted', -, -⟩ := (Likeness.agree_netlist (.refl es m) hnames hps).gives hinitial hpasted
  obtain ⟨s', hn'⟩ := gives_netlist_of_follows hes' hpasted'
  exact ⟨n', s', hn'⟩

/-- **The rest of a design compiles behind either of them.** -/
theorem compileFrom_interchange (ms : List Module) : ∀ {es es' : List Module} {first : Nat}
    {ns : List Netlist}
    (first' : Nat), Interchangeable es es' → (compileFrom (calleesOf es) first ms).result = .ok ns →
      ∃ ns', (compileFrom (calleesOf es') first' ms).result = .ok ns' := by
  induction ms with
  | nil => exact fun _ _ _ => ⟨[], rfl⟩
  | cons m ms ih =>
    intro es es' first ns first' h hns
    obtain ⟨n, s, rest, hn, hrest, rfl⟩ := compileFrom_cons hns
    obtain ⟨n', s', hn'⟩ := h.netlist hn first'
    obtain ⟨rest', hrest'⟩ := ih s'.nextId (h.cons m) hrest
    exact ⟨n' :: rest', by rw [(compileFrom_of_gives hn' ms).1, hrest']; rfl⟩

end Interchange

end Elaboration

end NandHdl
