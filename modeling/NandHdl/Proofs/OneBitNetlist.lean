import NandHdl.Proofs.OneBit

/-!
# The netlists of one-bit modules

At the end of a body every name gives way to the end of its chain. What a one-bit body offers is the layout of
its statements with that done, so its netlist depends on the order of the statements in no other way.

* `yields_outputs`, `yields_locals`: what a finished body offers.
* `PlainModule`: the modules that have a layout.
* `yields_openBody`, `gives_outerBody_of_plain`: whole bodies, before and after their names are resolved.
* `Describes`: the netlist that a layout describes.
* `gives_netlist_of_plain`: **the netlist of a one-bit module is its layout.**
-/

namespace NandHdl

namespace Elaboration

section Bodies

variable {f : Frame} {table : Array Bit} {slots : Array ForwardSlot} {b : Body} {scope : Scope Signal}

/-! ## What a finished body offers -/

/-- Each name is offered as the bit that it stands for. -/
def Offers (f : Frame) (table : Array Bit) (slots : Array ForwardSlot) (names : List String)
    (ws : List (String × Wire)) : Prop :=
  List.Forall₂ (fun name w => w.1 = name ∧ ∃ d, w.2 = .single d ∧ Reads f table slots d (f.read name)) names ws

theorem Offers.mono {slots' : Array ForwardSlot} {names : List String} {ws : List (String × Wire)}
    (hle : ∀ (k : Nat) x, slots[k]? = some x → slots'[k]? = some x) (h : Offers f table slots names ws) :
    Offers f table slots' names ws :=
  h.imp fun _ _ ⟨hname, d, hw, hd⟩ => ⟨hname, d, hw, hd.mono hle⟩

/-- Every name that the layout knows is bound. -/
def Complete (f : Frame) (scope : Scope Signal) : Prop :=
  ∀ name, scope.lookup name = none → f.read name = .const false

theorem yields_outputWire (hscope : Knows f table slots scope) (hcomplete : Complete f scope) {s : State}
    (hslots : s.slots = slots) {p : Port} (hp : p.width = 1) :
    Yields f table (outputWire b scope p) s [] fun slots w =>
      ∃ d, w = .single d ∧ Reads f table slots d (f.read p.name) := by
  subst hslots
  unfold outputWire
  rw [hp]
  cases hx : scope.lookup p.name with
  | some x => exact yields_fitted hscope (hscope.means_read (Scope.mem_of_lookup hx))
  | none =>
    rw [hcomplete p.name hx]
    exact (yields_note _).bind fun _ _ _ _ => Yields.pure ⟨.const false, rfl, .same rfl⟩

theorem yields_outputs (hcomplete : Complete f scope) {ps : List Port} : ∀ {s : State},
    (∀ p ∈ ps, p.width = 1) →
    Knows f table s.slots scope →
      Yields f table (outputs b scope ps) s [] fun slots outs =>
        Offers f table slots (ps.map Port.name) outs := by
  induction ps with
  | nil => exact fun _ _ => Yields.pure .nil
  | cons p ps ih =>
    intro s hps hscope
    obtain ⟨hp, hrest⟩ := List.forall_mem_cons.1 hps
    rw [outputs_cons]
    refine (yields_outputWire hscope hcomplete rfl hp).bind fun w s₁ h₁ ⟨d, hw, hd⟩ => ?_
    refine (ih hrest (h₁.knows hscope)).map fun outs s₂ h₂ houts => ?_
    exact .cons ⟨rfl, d, hw, hd.mono h₂.opened⟩ houts

/-- An instance that is one bit has one output. -/
theorem Means.bundle_single {fields : List (String × Wire)} {c : Bit}
    (h : Means f table slots (.bundle fields) c) :
    ∃ name d, fields = [(name, .single d)] ∧ Reads f table slots d c := by
  generalize hx : Signal.bundle fields = x at h
  induction h with
  | bundle hd =>
    cases hx
    exact ⟨_, _, rfl, hd⟩
  | step hj _ ih =>
    obtain ⟨name, d, hfields, hd⟩ := ih hx
    exact ⟨name, d, hfields, .step hj hd⟩
  | _ => cases hx

theorem yields_wiresOf {s : State} (hscope : Knows f table s.slots scope) {name : String} {x : Signal}
    (hx : Means f table s.slots x (f.read name)) :
    Yields f table (wiresOf b scope name x) s [] fun slots ws => Offers f table slots [name] ws := by
  have hfollow := hscope.follow hx
  have hwire : ∀ {y : Signal}, Means f table s.slots y (f.read name) →
      Yields f table (do pure [(name, ← materialize b scope y none)]) s [] fun slots ws =>
        Offers f table slots [name] ws := fun hy =>
    (yields_materialize hscope hy rfl).map fun w _ _ hw => .cons ⟨rfl, hw⟩ .nil
  unfold wiresOf
  cases hy : follow scope x with
  | bundle fields =>
    rw [hy] at hfollow
    obtain ⟨_, d, rfl, hd⟩ := hfollow.bundle_single
    exact Yields.pure (.cons ⟨rfl, d, rfl, hd⟩ .nil)
  | _ => exact hwire (hy ▸ hfollow)

theorem yields_locals {xs : List (String × Signal)} : ∀ {s : State}, Knows f table s.slots scope →
    (∀ e ∈ xs, Means f table s.slots e.2 (f.read e.1)) →
      Yields f table (locals b scope xs) s [] fun slots ws => Offers f table slots (xs.map Prod.fst) ws := by
  induction xs with
  | nil => exact fun _ _ => Yields.pure .nil
  | cons e xs ih =>
    intro s hscope hxs
    obtain ⟨name, x⟩ := e
    obtain ⟨hx, hrest⟩ := List.forall_mem_cons.1 hxs
    rw [locals_cons]
    refine (yields_wiresOf hscope hx).bind fun here s₁ h₁ hhere => ?_
    refine (ih (h₁.knows hscope) fun e he => (hrest e he).mono h₁.opened).map fun ws s₂ h₂ hws => ?_
    exact List.rel_append (hhere.mono h₂.opened) hws

/-! ## Whole bodies -/

/-- A module of one-bit wires, whose statements assign different names as a whole. The frame lists the names in
any order. -/
structure PlainModule (f : Frame) (m : Module) : Prop where
  inputs : f.inputs = m.inputs.map Port.name
  names : f.names.Perm (m.statements.map (·.target.name))
  nodup : (f.inputs ++ f.names).Nodup
  inputs_width : ∀ p ∈ m.inputs, p.width = 1
  outputs_width : ∀ p ∈ m.outputs, p.width = 1
  statements : ∀ st ∈ m.statements, PlainStatement f m.name st

variable {m : Module}

/-- The names of a frame are those that a module assigns if they are those of its statements. -/
theorem assigns_of_names (h : f.names.Perm (m.statements.map (·.target.name))) : Assigns f m := by
  have hmem : ∀ name, name ∈ f.names ↔ m.assigns name := by
    intro name
    rw [h.mem_iff, Module.assigns, List.any_eq_true, List.mem_map]
    simp only [decide_eq_true_eq]
  exact ⟨fun name hname hinput => read_name hinput ((hmem name).2 hname),
    fun name hname hinput => read_unknown hinput fun hmem' => hname ((hmem name).1 hmem')⟩

theorem Frame.Table.numbered {entries : List Entry} (h : f.Table entries table) : Numbered f table := by
  intro name j hread
  rw [h.size]
  exact (List.getElem?_eq_some_iff.1 (mem_of_read hread).2).1

/-- The scope in which the body starts. -/
theorem newestFirst_start (ps : List Port) : ∀ (offset : Nat) (scope : Scope Signal),
    (∀ p ∈ ps, p.width = 1) →
    (argumentScope scope ps (inputWires offset ps)).newestFirst =
      ((ps.zipIdx offset).map fun e => (e.1.name, Signal.wire (.single (.input e.2)))).reverse ++
        scope.newestFirst := by
  induction ps with
  | nil => exact fun _ _ _ => rfl
  | cons p ps ih =>
    intro offset scope hps
    obtain ⟨hp, hrest⟩ := List.forall_mem_cons.1 hps
    have hwire : (Wire.ofFn p.width fun i => .input (offset + i)).fit p.width = .single (.input offset) := by
      rw [hp]
      rfl
    rw [inputWires, argumentScope, hwire, hp, ih (offset + 1) _ hrest, List.zipIdx_cons, List.map_cons,
      List.reverse_cons, List.append_assoc]
    rfl

theorem boundNames_start (hm : PlainModule f m) :
    boundNames (argumentScope .empty m.inputs (inputWires 0 m.inputs)) = f.inputs.reverse := by
  have hnames : (m.inputs.zipIdx.map Prod.fst).map Port.name = f.inputs := by
    rw [List.zipIdx_map_fst, hm.inputs]
  rw [boundNames, newestFirst_start m.inputs 0 .empty hm.inputs_width, ← hnames]
  simp only [Scope.empty, List.append_nil, List.map_reverse, List.map_map]
  rfl

theorem isSome_lookup {name : String} (h : name ∈ boundNames scope) : (scope.lookup name).isSome := by
  obtain ⟨bs⟩ := scope
  simp only [boundNames, Scope.lookup] at h ⊢
  induction bs with
  | nil => cases h
  | cons b bs ih =>
    rw [Scope.lookupIn]
    split
    · rfl
    · next hne => exact ih ((List.mem_cons.1 h).resolve_left fun h' => hne h'.symm)

theorem knows_start (hm : PlainModule f m) {entries : List Entry} (htable : f.Table entries table) :
    Knows f table #[] (argumentScope .empty m.inputs (inputWires 0 m.inputs)) := by
  refine ⟨htable.numbered, fun e he => ?_, fun name hname => isSome_lookup ?_⟩
  · rw [newestFirst_start m.inputs 0 .empty hm.inputs_width, Scope.empty, List.append_nil,
      List.mem_reverse] at he
    obtain ⟨⟨p, i⟩, hp, rfl⟩ := List.mem_map.1 he
    have hi : f.inputs[i]? = some p.name := by
      rw [hm.inputs, List.getElem?_map, List.mem_zipIdx_iff_getElem?.1 hp]
      rfl
    have hread := read_input (List.nodup_append.1 hm.nodup).1 hi
    have hdirect : f.direct table p.name = .input i := by rw [Frame.direct, hread]
    rw [hdirect]
    exact .wire (.same rfl)
  · rw [boundNames_start hm]
    exact List.mem_reverse.2 hname

/-- A scope in which every name is bound once lists its bindings in the order they were made. -/
theorem latest_of_nodup (h : (boundNames scope).Nodup) : scope.latest = scope.oldestFirst := by
  -- a name that has not been found yet goes to the end
  have hupdate : ∀ {name : String} (x : Signal) {found : List (String × Signal)}, name ∉ found.map Prod.fst →
      Scope.update name x found = found ++ [(name, x)] := by
    intro name x found hname
    induction found with
    | nil => rfl
    | cons e found ih =>
      rw [List.map_cons, List.mem_cons, not_or] at hname
      rw [Scope.update, if_neg fun he => hname.1 he.symm, ih hname.2]
      rfl
  have hfold : ∀ es found : List (String × Signal), ((found ++ es).map Prod.fst).Nodup →
      es.foldl (fun found b => Scope.update b.1 b.2 found) found = found ++ es := by
    intro es
    induction es with
    | nil => exact fun found _ => (List.append_nil found).symm
    | cons e es ih =>
      intro found hnodup
      have hnew : e.1 ∉ found.map Prod.fst := by
        rw [List.map_append, List.nodup_append] at hnodup
        exact fun hmem => hnodup.2.2 e.1 hmem e.1 List.mem_cons_self rfl
      rw [List.foldl_cons, hupdate e.2 hnew, ih _ (by rwa [List.append_assoc, List.singleton_append]),
        List.append_assoc, List.singleton_append]
  refine hfold scope.newestFirst.reverse [] ?_
  rw [List.nil_append, List.map_reverse]
  exact List.nodup_reverse.2 h

/-- What the open body of a one-bit module offers. -/
structure Open (f : Frame) (table : Array Bit) (m : Module) (slots : Array ForwardSlot)
    (r : Scope Signal × Instance) : Prop where
  knows : Knows f table slots r.1
  names : boundNames r.1 = (f.inputs ++ m.statements.map (·.target.name)).reverse
  outputs : Offers f table slots (m.outputs.map Port.name) r.2.outputs
  locals : Offers f table slots (f.inputs ++ m.statements.map (·.target.name)) r.2.locals

theorem complete_of_names (hm : PlainModule f m)
    (hnames : boundNames scope = (f.inputs ++ m.statements.map (·.target.name)).reverse) :
      Complete f scope := by
  intro name hx
  have hmem : name ∉ f.inputs ++ m.statements.map (·.target.name) := fun hmem => by
    have hsome := isSome_lookup (hnames ▸ List.mem_reverse.2 hmem)
    rw [hx] at hsome
    cases hsome
  rw [List.mem_append, not_or] at hmem
  exact read_unknown hmem.1 fun hname => hmem.2 (hm.names.mem_iff.1 hname)

/-- A body whose statements have been run offers its outputs and its named wires. -/
theorem yields_offers (hm : PlainModule f m) {s : State} (hscope : Knows f table s.slots scope)
    (hnames : boundNames scope = (f.inputs ++ m.statements.map (·.target.name)).reverse) :
    Yields f table (do
      let outs ← outputs b scope m.outputs
      let locs ← locals b scope scope.latest
      return (scope, (⟨outs, locs⟩ : Instance))) s [] (Open f table m) := by
  have hnodup : (boundNames scope).Nodup := by
    rw [hnames, List.nodup_reverse]
    exact (hm.names.append_left f.inputs).nodup_iff.1 hm.nodup
  have hlatest : scope.latest.map Prod.fst = f.inputs ++ m.statements.map (·.target.name) := by
    have hreverse : scope.oldestFirst.map Prod.fst = (boundNames scope).reverse := List.map_reverse
    rw [latest_of_nodup hnodup, hreverse, hnames, List.reverse_reverse]
  refine (yields_outputs (complete_of_names hm hnames) hm.outputs_width hscope).bind fun outs s₁ h₁ houts => ?_
  have hmeans : ∀ e ∈ scope.latest, Means f table s₁.slots e.2 (f.read e.1) := by
    intro e he
    rw [latest_of_nodup hnodup] at he
    exact (h₁.knows hscope).means_read (List.mem_reverse.1 he)
  refine (yields_locals (h₁.knows hscope) hmeans).map fun locs s₂ h₂ hlocs => ?_
  exact ⟨h₂.knows (h₁.knows hscope), hnames, houts.mono h₂.opened, hlatest ▸ hlocs⟩

/-- **The body of a one-bit module**, up to where its forward reads are resolved. -/
theorem yields_openBody (hb : CallsParts f b) (hm : PlainModule f b.module) {s : State}
    (hslots : s.slots = #[]) (htable : f.Table (f.entries s.nextId b.module.statements) table) :
    Yields f table (openBody b (inputWires 0 b.module.inputs)) s
      ((f.entries s.nextId b.module.statements).flatMap (·.layout.nodes)) (Open f table b.module) := by
  have hstart : Knows f table s.slots
      (argumentScope .empty b.module.inputs (inputWires 0 b.module.inputs)) := by
    rw [hslots]
    exact knows_start hm htable
  rw [← List.append_nil (List.flatMap _ _)]
  refine (yields_assignAll hb hm.outputs_width _ hstart hm.statements htable.get).bind
    fun scope s₁ _ ⟨hscope, hbound⟩ => yields_offers hm hscope ?_
  rw [hbound, boundNames_start hm, List.reverse_append]

/-! ## The netlist -/

/-- The netlist is the layout of the module, with every name replaced by the end of its chain. -/
structure Describes (f : Frame) (table : Array Bit) (entries : List Entry) (m : Module) (n : Netlist) :
    Prop where
  name : n.name = m.name
  inputs : n.inputs = m.inputs
  outputs : n.outputs = m.outputs.map fun p => (p, f.final table p.name)
  nodes : n.nodes.toList = (entries.flatMap (·.layout.nodes)).map (Node.settle table)
  signals : ∀ name, n.signal? name =
    if name ∈ f.inputs ++ f.names ++ m.outputs.map Port.name then some (f.final table name) else none

variable {s : State}

theorem Ended.settle_offers (h : Ended f table scope s) {names : List String} {ws : List (String × Wire)}
    (hws : Offers f table s.slots names ws) :
    ws.map (fun w => (w.1, w.2.map (settled scope s))) = names.map fun name => (name, f.final table name) := by
  induction hws with
  | nil => rfl
  | @cons name w names ws hw _ ih =>
    obtain ⟨rfl, d, hd, hreads⟩ := hw
    rw [List.map_cons, List.map_cons, ih, hd, Wire.map_single, h.settled_eq hreads, Frame.final]

theorem Ended.settle_cell (h : Ended f table scope s) {c d : Cell} (hc : CellReads f table s.slots c d) :
    c.map (settled scope s) = d.map (endOf table) := by
  cases hc with
  | nand ha hb => rw [Cell.map, Cell.map, h.settled_eq ha, h.settled_eq hb]
  | dff ha hb => rw [Cell.map, Cell.map, h.settled_eq ha, h.settled_eq hb]

theorem Ended.settle_nodes (h : Ended f table scope s) {new nodes : List Node}
    (hnodes : List.Forall₂ (NodeReads f table s.slots) new nodes) :
    new.map (fun n => (⟨n.id, n.cell.map (settled scope s)⟩ : Node)) = nodes.map (Node.settle table) := by
  induction hnodes with
  | nil => rfl
  | cons hn _ ih => rw [List.map_cons, List.map_cons, ih, hn.id, h.settle_cell hn.cell, Node.settle]

theorem Offers.slotBelow {names : List String} {ws : List (String × Wire)}
    (h : Offers f table slots names ws) :
    ∀ w ∈ ws, w.2.All (·.slotBelow slots.size) := by
  induction h with
  | nil => exact List.forall_mem_nil _
  | cons hw _ ih =>
    obtain ⟨-, d, hd, hreads⟩ := hw
    refine List.forall_mem_cons.2 ⟨fun c hc => ?_, ih⟩
    rw [hd, Wire.single, Array.mem_singleton] at hc
    rw [hc]
    exact hreads.slotBelow

theorem CellReads.slotBelow {c d : Cell} (h : CellReads f table slots c d) : c.All
    (·.slotBelow slots.size) := by
  cases h with
  | nand ha hb => exact List.forall_mem_cons.2 ⟨ha.slotBelow, List.forall_mem_singleton.2 hb.slotBelow⟩
  | dff ha hb => exact List.forall_mem_cons.2 ⟨ha.slotBelow, List.forall_mem_singleton.2 hb.slotBelow⟩

theorem slotBelow_nodes {new nodes : List Node} (h : List.Forall₂ (NodeReads f table slots) new nodes) :
    ∀ n ∈ new, n.cell.All (·.slotBelow slots.size) := by
  induction h with
  | nil => exact List.forall_mem_nil _
  | cons hn _ ih => exact List.forall_mem_cons.2 ⟨hn.cell.slotBelow, ih⟩

/-- **A one-bit module is elaborated to its layout.** -/
theorem gives_outerBody_of_plain (hb : CallsParts f b) (hm : PlainModule f b.module) {s : State}
    (hbase : s.slotBase = 0)
    (hslots : s.slots = #[]) (hnodes : s.nodes = #[])
    (htable : f.Table (f.entries s.nextId b.module.statements) table) :
    ∃ i s', Gives (outerBody b (inputWires 0 b.module.inputs)) s i s' ∧
      i.outputs = (b.module.outputs.map Port.name).map (fun name => (name, f.final table name)) ∧
      i.locals = (f.inputs ++ b.module.statements.map (·.target.name)).map
        (fun name => (name, f.final table name)) ∧
      s'.nodes.toList =
        ((f.entries s.nextId b.module.statements).flatMap (·.layout.nodes)).map (Node.settle table) := by
  obtain ⟨⟨scope, i⟩, s₁, hopen, hadds, hoffers⟩ := yields_openBody hb hm hslots htable hbase
  obtain ⟨extra, hextra, hnames⟩ := hadds.slots
  obtain ⟨new, hnew, hreads⟩ := hadds.nodes
  rw [hslots, Array.empty_append] at hextra
  rw [hnodes, Array.empty_append] at hnew
  have hbase₁ : s₁.slotBase = 0 := hadds.slotBase.trans hbase
  have hlimit : s₁.limit = s₁.slots.size := by rw [State.limit, hbase₁, Nat.zero_add]
  have hended : Ended f table scope s₁ := by
    refine ⟨hbase₁, hoffers.knows.bound, fun name j hread => isSome_lookup ?_, hextra ▸ hnames,
      htable.numbered, ?_⟩
    · rw [hoffers.names, List.mem_reverse]
      have hname := List.mem_of_getElem? (mem_of_read hread).2
      exact List.mem_append_right _ (hm.names.mem_iff.1 hname)
    · rw [htable.size]
      exact htable.below
  have hnone : NoneDangling scope s₁ i := by
    refine ⟨?_, ?_, ?_, ?_⟩ <;> rw [hlimit]
    · have hdirect := hended.below_direct
      rwa [directBits, Array.size_map] at hdirect
    · rw [hnew]
      exact fun n hn => slotBelow_nodes hreads n (Array.mem_toList_iff.2 hn)
    · exact hoffers.outputs.slotBelow
    · exact hoffers.locals.slotBelow
  obtain ⟨log, hresolve⟩ := gives_resolveForwards (b := b) hnone
  refine ⟨i.settle scope s₁, { s₁ with nodes := settledNodes scope s₁, log := log }, ?_,
    hended.settle_offers hoffers.outputs, hended.settle_offers hoffers.locals, ?_⟩
  · rw [outerBody_eq]
    exact gives_bind.2 ⟨_, s₁, hopen, hresolve⟩
  · rw [settledNodes, Array.toList_map, hnew]
    exact hended.settle_nodes hreads

/-- The netlist behind the run of the outermost body. -/
theorem gives_netlist_of_outerBody {earlier : List Callee} {first : Nat} {i : Instance} {t : State}
    (h : Gives (outerBody ⟨m, [m.name], visibleFrom earlier m⟩ (inputWires 0 m.inputs))
      (State.outermost first m).inner
      i t) :
    ∃ s', Gives (netlist earlier m) (State.initial first)
      ⟨m.name, m.inputs, m.outputs.zip (i.outputs.map Prod.snd),
      t.nodes, ((NameTable.empty.insertAll ((m.inputs.map Port.name).zip (inputWires 0 m.inputs))).insertAll
          i.locals).insertAll i.outputs⟩ s' := by
  have hi : Gives (instantiate (visibleFrom earlier m) m [] (inputWires 0 m.inputs)) (State.initial first) i
      ((State.outermost first m).leave t) := by
    rw [instantiate_nil]
    exact gives_bind.2 ⟨(), _, gives_note.2 rfl, gives_enclosed.2 ⟨t, h, rfl⟩⟩
  refine ⟨_, gives_bind.2 ⟨i, _, hi, gives_bind.2 ⟨_, _, gives_get.2 ⟨rfl, rfl⟩, gives_pure.2 ⟨?_, rfl⟩⟩⟩⟩
  -- there are no nodes around the outermost body
  congr 1
  exact Array.empty_append.symm

/-- **The netlist of a one-bit module** is its layout. -/
theorem gives_netlist_of_plain {earlier : List Callee} {first : Nat}
    (hb : CallsParts f ⟨m, [m.name], visibleFrom earlier m⟩) (hm : PlainModule f m)
    (htable : f.Table (f.entries first m.statements) table) :
    ∃ n s', Gives (netlist earlier m) (State.initial first) n s' ∧
      Describes f table (f.entries first m.statements) m n := by
  obtain ⟨i, t, hbody, houtputs, hlocals, hnodes⟩ :=
    gives_outerBody_of_plain (s := (State.outermost first m).inner) hb hm rfl rfl rfl htable
  obtain ⟨s', hnetlist⟩ := gives_netlist_of_outerBody hbody
  refine ⟨_, s', hnetlist, rfl, rfl, ?_, hnodes, fun name => ?_⟩
  · have hwires : i.outputs.map Prod.snd = m.outputs.map fun p => f.final table p.name := by
      rw [houtputs, List.map_map, List.map_map]
      rfl
    have hzip := List.zip_map' (f := id) (g := fun p : Port => f.final table p.name) (l := m.outputs)
    rw [List.map_id] at hzip
    rw [hwires, hzip]
    rfl
  · have hunnamed : name ∉ f.inputs →
        name ∉ ((m.inputs.map Port.name).zip (inputWires 0 m.inputs)).map Prod.fst := by
      rw [List.map_fst_zip (by rw [List.length_map, length_inputWires]), hm.inputs]
      exact id
    simp only [Netlist.signal?, houtputs, hlocals, NameTable.get?_insertAll_map, List.mem_append,
      ← hm.names.mem_iff]
    -- outputs come before local names, and these before inputs
    by_cases houtput : name ∈ m.outputs.map Port.name
    · rw [if_pos houtput, if_pos (.inr houtput)]
    by_cases hlocal : name ∈ f.inputs ∨ name ∈ f.names
    · rw [if_neg houtput, if_pos hlocal, if_pos (.inl hlocal)]
    · rw [if_neg houtput, if_neg hlocal, if_neg (not_or.2 ⟨hlocal, houtput⟩),
        NameTable.get?_insertAll_of_not_mem (hunnamed fun h => hlocal (.inl h)), NameTable.get?_empty]

end Bodies

end Elaboration

end NandHdl
