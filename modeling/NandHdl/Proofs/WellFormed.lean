import NandHdl.Proofs.Paste

/-!
# Netlists are well-formed

A compiled netlist refers to itself alone: what elaboration leaves in it are bits
of its own nodes and inputs, and its wires are as its ports declare them.

* `Netlist.Occurs`: the bits that can be found in a netlist.
* `Netlist.WellFormed`: what can be relied on.
* `checkDesign_ok`: what the checks before elaboration leave of a design.
* `Ledger.netlists_wellFormed`: **every compiled netlist is well-formed.**
-/

namespace NandHdl

namespace Netlist

/-- The bit is read by a node, or lies on an output or a named signal. -/
inductive Occurs (n : Netlist) (b : Bit) : Prop
  | read {node : Node} (hnode : node ∈ n.nodes) (hb : b ∈ node.cell.inputs)
  | output {o : Port × Wire} (ho : o ∈ n.outputs) (hb : b ∈ o.2.bits)
  | signal {e : String × Wire} (he : e ∈ n.signals.entries) (hb : b ∈ e.2.bits)

/-- What can be relied on in a netlist. -/
structure WellFormed (n : Netlist) : Prop where
  /-- No read of a name is left open. -/
  no_forward : ∀ k, ¬ n.Occurs (.forward k)
  /-- The number of a bit is that of exactly one node. -/
  one_node : ∀ id, n.Occurs (.node id) → n.nodes.countP (·.id = id) = 1
  input_lt : ∀ i, n.Occurs (.input i) → i < n.inputWidth
  ids_increase : n.nodes.toList.Pairwise (·.id < ·.id)
  output_width : ∀ o ∈ n.outputs, o.2.width = o.1.width
  output_signal : ∀ o ∈ n.outputs, n.signal? o.1.name = some o.2
  input_signal : ∀ p ∈ n.inputs, (n.signal? p.name).isSome
  ports_differ : (n.inputs.map Port.name ++ n.outputs.map fun o => o.1.name).Nodup

/-- The netlist has the name and the ports of a module. -/
structure IsOf (n : Netlist) (m : Module) : Prop where
  name : n.name = m.name
  inputs : n.inputs = m.inputs
  outputs : n.outputs.map Prod.fst = m.outputs

/-- All bits of the netlist have the property if those of its nodes, outputs and signals have it. -/
theorem Occurs.of_all {n : Netlist} {P : Bit → Prop} (hreads : ∀ node ∈ n.nodes, node.cell.All P)
    (houtputs : ∀ o ∈ n.outputs, o.2.All P) (hsignals : ∀ e ∈ n.signals.entries, e.2.All P) {b : Bit}
    (h : n.Occurs b) : P b := by
  cases h with
  | read hnode hb => exact hreads _ hnode b hb
  | output ho hb => exact houtputs _ ho b hb
  | signal he hb => exact hsignals _ he b hb

end Netlist

namespace Elaboration

variable {earlier : List Callee} {m : Module} {first : Nat} {n : Netlist} {s s' : State}

/-! ## Numbers in order -/

/-- Nodes numbered in order have the numbers from the first one on. -/
theorem map_id_of_ids {nodes : Array Node} (hids : ∀ i node, nodes[i]? = some node → node.id = first + i) :
    nodes.toList.map Node.id = List.range' first nodes.size := by
  refine List.ext_getElem (by simp) fun i hi _ => ?_
  have hid := hids i _ (Array.getElem?_eq_getElem (by simpa using hi))
  simpa using hid

theorem pairwise_of_ids {nodes : Array Node} (hids : ∀ i node, nodes[i]? = some node → node.id = first + i) :
    nodes.toList.Pairwise (·.id < ·.id) := by
  have hmap : (nodes.toList.map Node.id).Pairwise (· < ·) := by
    rw [map_id_of_ids hids]
    exact List.pairwise_lt_range'
  exact List.pairwise_map.1 hmap

/-- Nodes numbered in order have every number up to the last once. -/
theorem countP_of_ids {nodes : Array Node} (hids : ∀ i node, nodes[i]? = some node → node.id = first + i)
    {id : Nat} (hfirst : first ≤ id) (hlt : id < first + nodes.size) :
    nodes.countP (·.id = id) = 1 := by
  have hcount : nodes.countP (·.id = id) = (nodes.toList.map Node.id).count id := by
    rw [List.count_eq_countP, List.countP_map, ← Array.countP_toList]
    rfl
  rw [hcount, map_id_of_ids hids]
  refine List.count_eq_one_of_mem List.nodup_range' ?_
  exact List.mem_range'_1.2 ⟨hfirst, hlt⟩

/-! ## The run behind a netlist -/

/-- **The run behind a netlist**: that of the outermost body, and what is kept of it. -/
theorem outerBody_of_netlist (h : Gives (netlist earlier m) (State.initial first) n s') :
    ∃ i t, Gives (outerBody ⟨m, [m.name], visibleFrom earlier m⟩ (inputWires 0 m.inputs))
        (State.outermost first m).inner i t ∧
      n = ⟨m.name, m.inputs, m.outputs.zip (i.outputs.map Prod.snd), t.nodes,
        ((NameTable.empty.insertAll ((m.inputs.map Port.name).zip (inputWires 0 m.inputs))).insertAll
          i.locals).insertAll i.outputs⟩ ∧
      s'.nextId = t.nextId := by
  obtain ⟨i, s₁, hi, h⟩ := gives_bind.1 h
  obtain ⟨s₂, s₃, hget, h⟩ := gives_bind.1 h
  obtain ⟨rfl, rfl⟩ := gives_get.1 hget
  obtain ⟨rfl, rfl⟩ := gives_pure.1 h
  rw [instantiate_nil] at hi
  obtain ⟨_, s₄, hnote, hi⟩ := gives_bind.1 hi
  rw [gives_note] at hnote
  subst hnote
  obtain ⟨t, hbody, rfl⟩ := gives_enclosed.1 hi
  refine ⟨i, t, hbody, ?_, rfl⟩
  -- there are no nodes around the outermost body
  congr 1
  exact Array.empty_append

/-- What the outermost body offers is known behind it, its named wires included. -/
theorem known_outerBody {ρ : Renaming} {b b' : Body} (hb : ρ.Bodies b b') (hs : ρ.Sound s)
    {args : List Wire} (hargs : ∀ w ∈ args, w.All (ρ.KnownAt s)) {i : Instance}
    (h : Gives (outerBody b args) s i s') :
    (∀ o ∈ i.outputs, o.2.All (ρ.Known s'.nextId s'.slotBase)) ∧
      ∀ o ∈ i.locals, o.2.All (ρ.Known s'.nextId s'.slotBase) := by
  obtain ⟨scope, s₁, hassign, h⟩ := gives_bind.1 h
  obtain ⟨outs, s₂, houtputs, h⟩ := gives_bind.1 h
  obtain ⟨locs, s₃, hlocals, h⟩ := gives_bind.1 h
  obtain ⟨-, hs₁, hscope, -⟩ := Renaming.sim_assignAll hb _ (Renaming.all_start hargs _) hs scope s₁ hassign
  have hsimOuts : ρ.Sim s₁ (outputs b scope b.module.outputs)
      (outputs b' (ρ.scope scope) b.module.outputs) ρ.wires
      fun s' outs => ∀ o ∈ outs, o.2.All (ρ.KnownAt s') := Renaming.sim_outputs _ hscope
  obtain ⟨hgrow₂, hs₂, houts, -⟩ := hsimOuts hs₁ outs s₂ houtputs
  have hscope₂ := hscope.imp hgrow₂.known
  have hsimLocs : ρ.Sim s₂ (locals b scope scope.latest)
      (locals b' (ρ.scope scope) (scope.latest.map fun e => (e.1, ρ.signal e.2))) ρ.wires
      fun s' ws => ∀ w ∈ ws, w.2.All (ρ.KnownAt s') := Renaming.sim_locals _ hscope₂ hscope₂.latest
  obtain ⟨hgrow₃, hs₃, hlocs, -⟩ := hsimLocs hs₂ locs s₃ hlocals
  have hscope₃ := hscope₂.imp hgrow₃.known
  obtain ⟨log, hlog⟩ := gives_resolveForwards (b := b) (noneDangling_of_gives h)
  obtain ⟨rfl, rfl⟩ := h.unique hlog
  -- the end of the body settles every known bit to one that is known outside
  have hsettle : ∀ {ws : List (String × Wire)}, (∀ o ∈ ws, o.2.All (ρ.KnownAt s₃)) →
      ∀ o ∈ ws.map fun w => (w.1, w.2.map (settled scope s₃)),
        o.2.All (ρ.Known s₃.nextId s₃.slotBase) := by
    intro ws hws o ho
    obtain ⟨p, hp, rfl⟩ := List.mem_map.1 ho
    exact ((hws p hp).imp fun _ h => Renaming.Known.settled hscope₃ h).map
  exact ⟨hsettle fun o ho => (houts o ho).imp hgrow₃.known, hsettle hlocs⟩

/-! ## Widths -/

theorem width_fitted {b : Body} {scope : Scope Signal} {x : Signal} {width : Nat} {w : Wire}
    (h : Gives (fitted b scope x width) s w s') : w.width = width := by
  obtain ⟨v, s₁, -, h⟩ := gives_bind.1 h
  rw [(gives_pure.1 h).1]
  exact Wire.width_fit v width

theorem width_outputWire {b : Body} {scope : Scope Signal} {p : Port} {w : Wire}
    (h : Gives (outputWire b scope p) s w s') : w.width = p.width := by
  unfold outputWire at h
  split at h
  · exact width_fitted h
  · obtain ⟨_, s₁, -, h⟩ := gives_bind.1 h
    rw [(gives_pure.1 h).1]
    exact Wire.width_zeros p.width

/-- The outputs of a body have the names and the widths of their ports. -/
theorem ports_outputs {b : Body} {scope : Scope Signal} {ps : List Port} {outs : List (String × Wire)}
    (h : Gives (outputs b scope ps) s outs s') :
    outs.map (fun o => (o.1, o.2.width)) = ps.map fun p => (p.name, p.width) := by
  induction ps generalizing s outs with
  | nil =>
    rw [(gives_pure.1 h).1]
    rfl
  | cons p ps ih =>
    rw [outputs_cons] at h
    obtain ⟨w, s₁, hw, h⟩ := gives_bind.1 h
    obtain ⟨rest, s₂, hrest, h⟩ := gives_bind.1 h
    obtain ⟨rfl, rfl⟩ := gives_pure.1 h
    rw [List.map_cons, List.map_cons, ih hrest, width_outputWire hw]

theorem ports_outerBody {b : Body} {args : List Wire} {i : Instance}
    (h : Gives (outerBody b args) s i s') :
    i.outputs.map (fun o => (o.1, o.2.width)) = b.module.outputs.map fun p => (p.name, p.width) := by
  obtain ⟨scope, s₁, -, h⟩ := gives_bind.1 h
  obtain ⟨outs, s₂, houtputs, h⟩ := gives_bind.1 h
  obtain ⟨locs, s₃, -, h⟩ := gives_bind.1 h
  obtain ⟨log, hlog⟩ := gives_resolveForwards (b := b) (noneDangling_of_gives h)
  obtain ⟨rfl, -⟩ := h.unique hlog
  rw [← ports_outputs houtputs, Instance.settle, List.map_map]
  simp only [Function.comp_def, Wire.width_map]

/-! ## The netlist -/

/-- The outputs of a netlist are those of the run, each under its port. -/
theorem mem_zip_outputs {ps : List Port} {outs : List (String × Wire)}
    (h : outs.map (fun o => (o.1, o.2.width)) = ps.map fun p => (p.name, p.width)) {o : Port × Wire}
    (ho : o ∈ ps.zip (outs.map Prod.snd)) : (o.1.name, o.2) ∈ outs ∧ o.2.width = o.1.width := by
  induction ps generalizing outs with
  | nil => cases ho
  | cons p ps ih =>
    cases outs with
    | nil => cases h
    | cons out outs =>
      simp only [List.map_cons, List.cons.injEq, Prod.mk.injEq] at h
      rw [List.map_cons, List.zip_cons_cons] at ho
      rcases List.mem_cons.1 ho with rfl | ho
      · exact ⟨by rw [← h.1.1]; exact List.mem_cons_self, h.1.2⟩
      · obtain ⟨hmem, hwidth⟩ := ih h.2 ho
        exact ⟨List.mem_cons_of_mem out hmem, hwidth⟩

theorem isOf_of_netlist (h : Gives (netlist earlier m) (State.initial first) n s') : n.IsOf m := by
  obtain ⟨i, t, hbody, rfl, -⟩ := outerBody_of_netlist h
  refine ⟨rfl, rfl, List.map_fst_zip ?_⟩
  have hlength := congrArg List.length (ports_outerBody hbody)
  simp only [List.length_map] at hlength ⊢
  exact Nat.le_of_eq hlength.symm

/-- **No signal leads outside**, whatever it names: an input, a wire of the body or an output. -/
theorem inside_signals (hc : ∀ ρ : Renaming, List.Forall₂ ρ.Follows earlier earlier)
    (h : Gives (netlist earlier m) (State.initial first) n s') :
    ∀ e ∈ n.signals.entries, e.2.All (Inside first (first + n.nodes.size) n.inputWidth) := by
  obtain ⟨-, hcount⟩ := closed_of_netlist hc h
  obtain ⟨i, t, hbody, hn, hnext⟩ := outerBody_of_netlist h
  obtain ⟨ρ, hfirst, hwidth⟩ := exists_renaming first (m.inputs.map Port.width).sum
  have hb := bodies_visible (hc ρ) m (List.cons_ne_nil m.name []) (List.cons_ne_nil m.name [])
  have hs : ρ.Sound (State.outermost first m).inner := sound_outermost hfirst
  obtain ⟨houts, hlocs⟩ := known_outerBody hb hs (known_inputWires hwidth) hbody
  have hbase : t.slotBase = 0 :=
    (Renaming.sim_outerBody hb (known_inputWires hwidth) hs i t hbody).1.slotBase
  have hinputs : n.inputWidth = (m.inputs.map Port.width).sum := by
    rw [Netlist.inputWidth, ← List.sum_eq_foldr, hn]
  -- behind the outermost body no slot is known
  have hinside : ∀ b, ρ.Known t.nextId t.slotBase b →
      Inside first (first + n.nodes.size) n.inputWidth b := by
    intro b hb
    rw [hbase] at hb
    rw [hinputs, ← hwidth, ← hcount, hnext, ← hfirst]
    exact inside_of_known hb
  intro e he
  rw [hn] at he
  rcases NameTable.mem_insertAll he with he | he
  · exact (houts e he).imp hinside
  rcases NameTable.mem_insertAll he with he | he
  · exact (hlocs e he).imp hinside
  rcases NameTable.mem_insertAll he with he | he
  · refine (mem_inputWires (List.of_mem_zip he).2).imp ?_
    rintro _ ⟨i, hi, rfl⟩
    change i < n.inputWidth
    omega
  · cases he

/-- **A netlist is well-formed** if the ports of its module have different names. -/
theorem wellFormed_of_netlist (hc : ∀ ρ : Renaming, List.Forall₂ ρ.Follows earlier earlier)
    (hports : (m.ports.map Port.name).Nodup) (h : Gives (netlist earlier m) (State.initial first) n s') :
    n.WellFormed := by
  obtain ⟨hclosed, -⟩ := closed_of_netlist hc h
  have hsignals := inside_signals hc h
  have hof := isOf_of_netlist h
  obtain ⟨i, t, hbody, hn, -⟩ := outerBody_of_netlist h
  have hwidths : i.outputs.map (fun o => (o.1, o.2.width)) = m.outputs.map fun p => (p.name, p.width) :=
    ports_outerBody hbody
  have hinside : ∀ b, n.Occurs b → Inside first (first + n.nodes.size) n.inputWidth b :=
    fun b hb => hb.of_all hclosed.reads hclosed.outputs hsignals
  have houtput : ∀ o ∈ n.outputs, (o.1.name, o.2) ∈ i.outputs ∧ o.2.width = o.1.width := by
    intro o ho
    rw [hn] at ho
    exact mem_zip_outputs hwidths ho
  have hnames : i.outputs.map Prod.fst = m.outputs.map Port.name := by
    have hfst := congrArg (List.map Prod.fst) hwidths
    rwa [List.map_map, List.map_map] at hfst
  refine ⟨fun k hk => hinside _ hk, fun id hid => ?_, fun i hi => hinside _ hi,
    pairwise_of_ids hclosed.ids, fun o ho => (houtput o ho).2, fun o ho => ?_, fun p hp => ?_, ?_⟩
  · obtain ⟨hle, hlt⟩ := hinside _ hid
    exact countP_of_ids hclosed.ids hle hlt
  · -- the outputs are named last, and their names differ
    have hnodup : (i.outputs.map Prod.fst).Nodup := by
      rw [hnames]
      rw [Module.ports, List.map_append] at hports
      exact (List.nodup_append.1 hports).2.1
    rw [Netlist.signal?, hn]
    exact NameTable.get?_insertAll_of_mem hnodup (houtput o ho).1
  · rw [hn] at hp
    have hmem : p.name ∈ ((m.inputs.map Port.name).zip (inputWires 0 m.inputs)).map Prod.fst := by
      rw [List.map_fst_zip (by rw [List.length_map, length_inputWires])]
      exact List.mem_map_of_mem hp
    rw [Netlist.signal?, hn]
    refine NameTable.isSome_get?_insertAll (.inr (NameTable.isSome_get?_insertAll (.inr ?_)))
    exact NameTable.isSome_get?_insertAll (.inl hmem)
  · have houts : n.outputs.map (fun o => o.1.name) = m.outputs.map Port.name := by
      rw [← hof.outputs, List.map_map]
      rfl
    rw [hof.inputs, houts, ← List.map_append]
    exact hports

/-! ## Designs -/

theorem firstRepeated?_eq_none {names : List String} : ∀ {seen : List String},
    firstRepeated? seen names = none → names.Nodup ∧ ∀ n ∈ names, n ∉ seen := by
  induction names with
  | nil => exact fun _ => ⟨List.nodup_nil, List.forall_mem_nil _⟩
  | cons n names ih =>
    intro seen h
    rw [firstRepeated?] at h
    split at h
    · cases h
    · next hn =>
      obtain ⟨hnodup, hseen⟩ := ih h
      refine ⟨List.nodup_cons.2 ⟨fun hmem => hseen n hmem List.mem_cons_self, hnodup⟩, ?_⟩
      intro k hk
      rcases List.mem_cons.1 hk with rfl | hk
      · exact hn
      · exact fun hmem => hseen k hk (List.mem_cons_of_mem n hmem)

theorem checkModule_ok {seen : List String} (h : checkModule seen m = .ok ()) :
    m.name ∉ seen ∧ (m.ports.map Port.name).Nodup ∧ m.maxIndex ≤ widthLimit := by
  unfold checkModule at h
  split at h
  · cases h
  · next hname =>
    split at h
    · cases h
    · next hrepeated =>
      split at h
      · cases h
      · next hindex => exact ⟨hname, (firstRepeated?_eq_none hrepeated).1, Nat.le_of_not_lt hindex⟩

theorem checkModules_ok {ms : List Module} : ∀ {seen : List String}, checkModules seen ms = .ok () →
    (ms.map Module.name).Nodup ∧ (∀ m ∈ ms, m.name ∉ seen) ∧
      ∀ m ∈ ms, (m.ports.map Port.name).Nodup ∧ m.maxIndex ≤ widthLimit := by
  induction ms with
  | nil => exact fun _ => ⟨List.nodup_nil, List.forall_mem_nil _, List.forall_mem_nil _⟩
  | cons m ms ih =>
    intro seen h
    rw [checkModules] at h
    cases hm : checkModule seen m with
    | error e =>
      rw [hm] at h
      cases h
    | ok u =>
      rw [hm] at h
      obtain ⟨hname, hports⟩ := checkModule_ok hm
      obtain ⟨hnodup, hseen, hall⟩ := ih h
      refine ⟨List.nodup_cons.2 ⟨fun hmem => ?_, hnodup⟩, List.forall_mem_cons.2 ⟨hname, ?_⟩,
        List.forall_mem_cons.2 ⟨hports, hall⟩⟩
      · -- a later module of the same name would have been refused
        obtain ⟨k, hk, hkm⟩ := List.mem_map.1 hmem
        exact hseen k hk (hkm ▸ List.mem_cons_self)
      · exact fun k hk hmem => hseen k hk (List.mem_cons_of_mem m.name hmem)

/-- **What the checks before elaboration leave of a design**: the names of its modules differ, so do the
names of the ports of each, and no width or bit number is too large. -/
theorem checkDesign_ok {ms : List Module} (h : checkDesign ms = .ok ()) :
    (ms.map Module.name).Nodup ∧
      ∀ m ∈ ms, (m.ports.map Port.name).Nodup ∧ m.maxIndex ≤ widthLimit := by
  rw [checkDesign] at h
  split at h
  · cases h
  · obtain ⟨hnodup, -, hall⟩ := checkModules_ok h
    exact ⟨hnodup, hall⟩

theorem wellFormed_of_compileFrom {ms : List Module} : ∀ (es : List Module) {first : Nat}
    {ns : List Netlist}, (∀ m ∈ ms, (m.ports.map Port.name).Nodup) →
      (compileFrom (calleesOf es) first ms).result = .ok ns →
      List.Forall₂ (fun m n => n.IsOf m ∧ n.WellFormed) ms ns := by
  induction ms with
  | nil =>
    intro es first ns _ h
    cases h
    exact .nil
  | cons m ms ih =>
    intro es first ns hports h
    obtain ⟨n, s, rest, hn, hrest, rfl⟩ := compileFrom_cons h
    obtain ⟨hm, hms⟩ := List.forall_mem_cons.1 hports
    have hwell := wellFormed_of_netlist (fun ρ => follows_calleesOf ρ es) hm hn
    exact .cons ⟨isOf_of_netlist hn, hwell⟩ (ih (m :: es) hms hrest)

/-- A netlist of a compiled design is well-formed. -/
theorem wellFormed_of_mem {l : Ledger} {ms : List Module} {lib : Library} {n : Netlist}
    (h : (l.compile ms).result = .ok lib) (hn : n ∈ lib.netlists) : n.WellFormed := by
  have hports : ∀ m ∈ ms, (m.ports.map Port.name).Nodup := by
    rw [Ledger.compile] at h
    split at h
    · cases h
    · next hcheck => exact fun m hm => ((checkDesign_ok hcheck).2 m hm).1
  have hall := wellFormed_of_compileFrom [] hports (compileFrom_of_compile h)
  obtain ⟨i, hi, rfl⟩ := List.getElem_of_mem hn
  exact (hall.get (hall.length_eq ▸ hi) hi).2

theorem names_of_isOf {ms : List Module} {ns : List Netlist}
    (h : List.Forall₂ (fun m n => n.IsOf m) ms ns) :
    ns.map Netlist.name = ms.map Module.name := by
  induction h with
  | nil => rfl
  | cons hn _ ih => rw [List.map_cons, List.map_cons, hn.name, ih]

end Elaboration

open Elaboration

/-- **Every compiled netlist is well-formed.** The names of the netlists of a design differ. Each netlist
has the name and the ports of its module; no forward read is left in it, every number of a node is that
of exactly one node, and every input bit exists; the numbers of its nodes increase; every output is as
wide as its port and a signal of that name; every input is a signal; and the names of all ports differ. -/
theorem Ledger.netlists_wellFormed {l : Ledger} {ms : List Module} {lib : Library}
    (h : (l.compile ms).result = .ok lib) :
    lib.order.Nodup ∧ List.Forall₂ (fun m n => n.IsOf m ∧ n.WellFormed) ms lib.netlists := by
  have hcheck : checkDesign ms = .ok () := by
    rw [Ledger.compile] at h
    split at h
    · cases h
    · next hcheck => exact hcheck
  obtain ⟨hnodup, hports⟩ := checkDesign_ok hcheck
  have hall := wellFormed_of_compileFrom [] (fun m hm => (hports m hm).1)
    (compileFrom_of_compile h)
  refine ⟨?_, hall⟩
  rw [Library.order, names_of_isOf (hall.imp fun _ _ hn => hn.1)]
  exact hnodup

/-- The latch and what it is made of, forward reads between gates and through instances included. -/
theorem latched_wellFormed : ∃ lib, (Ledger.compile {} latched).result = .ok lib ∧
    lib.netlists.map (·.nodes.size) = [1, 4, 5] ∧ lib.order.Nodup ∧
    List.Forall₂ (fun m n => n.IsOf m ∧ n.WellFormed) latched lib.netlists := by
  have hsizes := latched_sizes
  cases h : (Ledger.compile {} latched).result with
  | error e =>
    rw [h] at hsizes
    cases hsizes
  | ok lib =>
    rw [h] at hsizes
    exact ⟨lib, rfl, Option.some.inj hsizes, Ledger.netlists_wellFormed h⟩

end NandHdl
