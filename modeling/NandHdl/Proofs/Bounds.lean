import NandHdl.Proofs.Checked
import NandHdl.Proofs.WellFormed

/-!
# Nothing is out of range

What is read and written in a simulation is there: the places in a circuit come from its netlist, and no
operation changes how many bits, clocks and bytes there are.

* `Circuit.InRange`: the places in a circuit exist. `Netlist.WellFormed.inRange`
* `Simulator.Sized`: there are as many bits and clocks as the circuit asks for. `Sized.effect`: **every operation
  keeps it so.**
* `step?_eq`, `perform?_eq`: the checks of one tick and of one operation pass.
* `runs_stay_in_range`: **no simulation of a compiled module ever uses a place out of range.**
-/

namespace NandHdl

/-! ## Circuits -/

/-- The flip-flop and what it reads exist. -/
structure Flop.InRange (nodes bits : Nat) (f : Flop) : Prop where
  out : f.out < nodes
  d : f.d.InRange nodes bits
  clk : f.clk.InRange nodes bits

/-- The source exists in the circuit. -/
def Circuit.Has (c : Circuit) (x : Source) : Prop := x.InRange c.nodeCount c.inputWidth

/-- All places in a circuit exist. -/
structure Circuit.InRange (c : Circuit) : Prop where
  gates : ∀ g ∈ c.gates, g.InRange c.nodeCount c.inputWidth
  flops : ∀ f ∈ c.flops, f.InRange c.nodeCount c.inputWidth
  inputs : ∀ name p, c.inputs.get? name = some p → p.offset + p.width ≤ c.inputWidth
  outputs : ∀ o ∈ c.outputs, ∀ x ∈ o.2, c.Has x
  signals : ∀ e ∈ c.signals.entries, ∀ x ∈ e.2, c.Has x

namespace Netlist

variable {n : Netlist}

/-- A bit of a netlist stands for a place in it. -/
theorem WellFormed.source_inRange (h : n.WellFormed) {b : Bit} (hb : n.Occurs b) :
    (n.source b).InRange n.nodes.size n.inputWidth := by
  cases b with
  | node id =>
    rw [source_node]
    cases hplace : n.place? id with
    | none => trivial
    | some i =>
      obtain ⟨c, hc⟩ := place?_spec hplace
      exact (Array.getElem?_eq_some_iff.1 hc).1
  | input i => exact h.input_lt i hb
  | const v => trivial
  | forward k => trivial

/-- The sources of named wires exist if the bits of the wires occur in the netlist. -/
theorem WellFormed.sources_inRange (h : n.WellFormed) (ws : List (String × Wire))
    (hws : ∀ w ∈ ws, ∀ b ∈ w.2.bits, n.Occurs b) :
    ∀ e ∈ (Wiring.namedSources n.name (Wiring.places n.nodes.toList) ws).value,
      ∀ x ∈ e.2, x.InRange n.nodes.size n.inputWidth := by
  intro e he x hx
  rw [Wiring.value_namedSources] at he
  obtain ⟨w, hw, rfl⟩ := List.mem_map.1 he
  obtain ⟨b, hb, rfl⟩ := List.mem_map.1 hx
  exact h.source_inRange (hws w hw b (Array.mem_toList_iff.1 hb))

/-- **The circuit of a well-formed netlist** has all places that it uses. -/
theorem WellFormed.inRange (h : n.WellFormed) : (Circuit.ofNetlist n).value.InRange where
  gates g hg := by
    obtain ⟨i, id, a, b, hi, rfl⟩ := mem_gates.1 ((GateOrder.orderGates_perm n.gates).mem_iff.1 hg)
    have hmem : (⟨id, .nand a b⟩ : Node) ∈ n.nodes := Array.mem_of_getElem? hi
    exact ⟨(Array.getElem?_eq_some_iff.1 hi).1, h.source_inRange (.read hmem (by simp [Cell.inputs])),
      h.source_inRange (.read hmem (by simp [Cell.inputs]))⟩
  flops f hf := by
    obtain ⟨i, id, d, clk, hi, rfl⟩ := mem_flops.1 hf
    have hmem : (⟨id, .dff d clk⟩ : Node) ∈ n.nodes := Array.mem_of_getElem? hi
    exact ⟨(Array.getElem?_eq_some_iff.1 hi).1, h.source_inRange (.read hmem (by simp [Cell.inputs])),
      h.source_inRange (.read hmem (by simp [Cell.inputs]))⟩
  inputs _ _ hp := pin_le hp
  outputs := h.sources_inRange _ fun w hw b hb => by
    obtain ⟨o, ho, rfl⟩ := List.mem_map.1 hw
    exact .output ho hb
  signals e he := by
    have hsources := h.sources_inRange n.signals.entries fun _ he b hb => .signal he hb
    exact hsources e ((NameTable.mem_insertAll he).resolve_right List.not_mem_nil)

end Netlist

namespace Simulator

variable {c : Circuit} {size : Nat} {s t : Simulator} {op : Operation}

/-! ## Lengths -/

/-- The simulation runs the circuit, has a bit for each of its nodes and inputs, a clock for each of its
flip-flops and so many bytes of memory, and its memory is on a bus of the circuit if on any. -/
structure Sized (c : Circuit) (size : Nat) (s : Simulator) : Prop where
  circuit : s.circuit = c
  values : s.values.size = c.nodeCount
  pins : s.pins.size = c.inputWidth
  clocks : s.clocks.length = c.flops.length
  ram : s.ram.size = size
  joined : s.Joined

theorem sized_start (n : Netlist) (ram : Ram) :
    (ofNetlist n ram).value.Sized (Circuit.ofNetlist n).value ram.size where
  circuit := rfl
  values := Array.size_replicate
  pins := Array.size_replicate
  clocks := List.length_map _
  ram := rfl
  joined := joined_start n ram

/-- Another memory of the same size keeps the lengths. -/
theorem Sized.withRam (hs : s.Sized c size) {ram : Ram} (h : ram.size = size) :
    ({ s with ram := ram } : Simulator).Sized c size :=
  ⟨hs.circuit, hs.values, hs.pins, hs.clocks, h, hs.joined⟩

/-- So does another bus of the circuit. -/
theorem Sized.withBus (hs : s.Sized c size) {names : BusNames} {b : Bus} (h : s.busOf names = .ok b) :
    ({ s with bus := some b } : Simulator).Sized c size := by
  refine ⟨hs.circuit, hs.values, hs.pins, hs.clocks, hs.ram, fun b' hb' => ?_⟩
  cases hb'
  exact ⟨names, (busOf_congr rfl names).trans h⟩

theorem Sized.driveReadData (hs : s.Sized c size) : s.driveReadData.Sized c size := by
  obtain ⟨hcircuit, hvalues, hclocks, -, hpins⟩ := s.frames_driveReadData
  exact ⟨hcircuit.trans hs.circuit, hvalues ▸ hs.values, hpins.trans hs.pins, hclocks ▸ hs.clocks,
    s.driveReadData_ram ▸ hs.ram, hs.joined.congr hcircuit s.driveReadData_bus⟩

theorem Sized.settled (hs : s.Sized c size) : s.settle.value.Sized c size :=
  ⟨hs.circuit, (size_settleWithin _ _ _ _).trans hs.values, hs.pins, hs.clocks, hs.ram, hs.joined⟩

theorem size_capture (s : Simulator) : s.capture.values.size = s.values.size := by
  unfold capture
  dsimp only
  generalize s.circuit.flops.zip _ = rows
  generalize s.values = values
  induction rows generalizing values with
  | nil => rfl
  | cons row rows ih =>
    rw [List.foldl_cons, ih]
    split
    · exact Array.size_setIfInBounds
    · rfl

theorem Sized.capture (hs : s.Sized c size) : s.capture.Sized c size :=
  ⟨hs.circuit, s.size_capture.trans hs.values, hs.pins, (List.length_map _).trans (hs.circuit ▸ rfl), hs.ram,
    hs.joined⟩

theorem size_written (s : Simulator) : s.written.size = s.ram.size := by
  unfold written
  split
  · rfl
  · split
    · exact Ram.size_write _ _ _
    · rfl

theorem Sized.tick (hs : s.Sized c size) : ({ s with ticks := s.ticks + 1 } : Simulator).Sized c size :=
  ⟨hs.circuit, hs.values, hs.pins, hs.clocks, hs.ram, hs.joined⟩

theorem Sized.step (hs : s.Sized c size) : s.step.value.Sized c size := by
  have hcaptured : s.captured.Sized c size := hs.tick.settled.capture
  rw [step_eq]
  exact (hcaptured.withRam (s.captured.size_written.trans hcaptured.ram)).driveReadData

theorem Sized.cleared (hs : s.Sized c size) : s.cleared.Sized c size :=
  ⟨hs.circuit, Array.size_replicate.trans hs.values, hs.pins, (List.length_map _).trans hs.clocks, hs.ram,
    hs.joined⟩

/-- **Every operation keeps the lengths.** -/
theorem Sized.effect (hs : s.Sized c size) (h : s.Effect op t) : t.Sized c size := by
  cases h with
  | tick => exact hs.step
  | ticks k => exact kept_run (fun _ => Sized.step) k hs
  | reset => exact hs.cleared.settled.driveReadData
  | pin _ => exact ⟨hs.circuit, hs.values, (Pin.size_drive _ _ _).trans hs.pins, hs.clocks, hs.ram, hs.joined⟩
  | memory _ hsize => exact (hs.withRam (hsize.trans hs.ram)).driveReadData
  | joined _ hbus => exact (hs.withBus hbus).driveReadData
  | none => exact hs

/-- Ticks are counted one by one. -/
theorem ticks_step (s : Simulator) : s.step.value.ticks = s.ticks + 1 := by
  rw [step_eq]
  exact (frames_driveReadData _).ticks

theorem ticks_run (s : Simulator) (k : Nat) : (s.run k).value.ticks = s.ticks + k := by
  induction k with
  | zero => rfl
  | succ k ih => rw [run_succ, ticks_step, ih, Nat.add_assoc]

theorem ticks_effect (h : s.Effect op t) : t.ticks ≤ s.ticks + op.ticks := by
  cases h with
  | tick => exact s.ticks_step.le
  | ticks k => exact (s.ticks_run k).le
  | reset => exact (frames_driveReadData _).ticks.le.trans (Nat.zero_le _)
  | pin _ => exact Nat.le_add_right _ _
  | memory _ _ => exact (frames_driveReadData _).ticks.le.trans (Nat.le_add_right _ _)
  | joined _ _ => exact (frames_driveReadData _).ticks.le.trans (Nat.le_add_right _ _)
  | none => exact Nat.le_add_right _ _

/-! ## Accesses -/

variable (hc : c.InRange) (hs : s.Sized c size)

include hs in
theorem Sized.inRange {x : Source} (hx : c.Has x) : x.InRange s.values.size s.pins.size := by
  rw [hs.values, hs.pins]
  exact hx

include hs in
theorem value?_eq {xs : List Source} (hxs : ∀ x ∈ xs, c.Has x) : s.value? xs = some (s.value xs) := by
  rw [value?, NandHdl.value?,
    mapM_eq fun x hx => Source.read?_eq (hs.inRange (hxs x (List.mem_of_mem_take hx)))]
  rfl

include hs in
theorem drive?_eq {p : Pin} (hp : p.offset + p.width ≤ c.inputWidth) (value : Nat) :
    p.drive? value s.pins = some (p.drive value s.pins) := Pin.drive?_eq (hs.pins ▸ hp) value

include hc hs

theorem Sized.has_busSources {name : String} {xs : List Source} (h : s.busSources name = .ok xs) :
    ∀ x ∈ xs, c.Has x := by
  unfold busSources at h
  rw [hs.circuit] at h
  split at h
  · next o ho =>
    cases h
    exact hc.outputs o (List.mem_of_find?_eq_some ho)
  · split at h
    · next hx =>
      cases h
      exact hc.signals _ (NameTable.mem_of_get? hx)
    · cases h

theorem settle?_eq : s.settle? = some s.settle.value := by
  rw [settle?, settleWithin?_eq settleLimit (by rw [hs.circuit, hs.values, hs.pins]; exact hc.gates)]
  rfl

theorem capture?_eq : s.capture? = some s.capture := by
  have hread : ∀ f ∈ s.circuit.flops, f.InRange s.values.size s.pins.size := by
    rw [hs.circuit, hs.values, hs.pins]
    exact hc.flops
  have hclocks : s.clocks.length = s.circuit.flops.length := hs.circuit ▸ hs.clocks
  rw [capture?, mapM_eq fun f hf => Source.read?_eq (hread f hf).clk,
    mapM_eq fun f hf => Source.read?_eq (hread f hf).d]
  simp only [Option.bind_eq_bind, Option.bind_some]
  set clocks := s.circuit.flops.map fun f => f.clk.read s.values s.pins
  set data := s.circuit.flops.map fun f => f.d.read s.values s.pins
  have hrows : (s.clocks.zip (clocks.zip data)).length = s.circuit.flops.length := by
    simp [clocks, data, hclocks]
  rw [foldlM_eq (P := fun x => x.size = s.values.size) ((forall₂_zipIdx hrows).imp ?_) rfl]
  · rfl
  rintro ⟨_, i⟩ ⟨f, before, now, d⟩ ⟨rfl, hf, hrow⟩ x hx
  obtain ⟨hbefore, hrow⟩ := List.getElem?_zip_eq_some.1 hrow
  obtain ⟨hnow, hd⟩ := List.getElem?_zip_eq_some.1 hrow
  have hout : f.out < x.size := hx ▸ (hread f hf).out
  simp only [hbefore, hnow, hd, put?_eq hout, Option.bind_some]
  split
  · exact ⟨rfl, Array.size_setIfInBounds.trans hx⟩
  · exact ⟨rfl, hx⟩

theorem driveReadData?_eq : s.driveReadData? = some s.driveReadData := by
  unfold driveReadData?
  split
  · next hb => simp only [Simulator.driveReadData, hb]
  · next b hb =>
    obtain ⟨names, hnames⟩ := hs.joined b hb
    obtain ⟨haddr, -, -, hpin⟩ := busOf_ok hnames
    have hvalue := value?_eq hs (hs.has_busSources hc haddr)
    have hdrive := drive?_eq hs (hc.inputs _ _ (hs.circuit ▸ hpin)) (s.ram.read (s.value b.addr)).toNat
    simp only [driveReadData_of_bus hb, hvalue, Ram.read?_eq, hdrive, Option.bind_eq_bind, Option.bind_some,
      Option.pure_def]

theorem serviceBus?_eq : s.serviceBus? = some s.serviceBus.value := by
  have hwritten := driveReadData?_eq hc (hs.withRam (s.size_written.trans hs.ram))
  rw [serviceBus_eq, ← hwritten]
  unfold serviceBus?
  split
  · next hb =>
    have hsame : s.written = s.ram := by rw [written, hb]
    rw [hsame]
    change some s = s.driveReadData?
    rw [driveReadData?, hb]
  · next b hb =>
    obtain ⟨names, hnames⟩ := hs.joined b hb
    obtain ⟨haddr, henable, hdata, -⟩ := busOf_ok hnames
    simp only [value?_eq hs (hs.has_busSources hc haddr), value?_eq hs (hs.has_busSources hc henable),
      value?_eq hs (hs.has_busSources hc hdata), Option.bind_eq_bind, Option.bind_some, Ram.write?_eq,
      written_of_bus hb]
    split
    · rfl
    · rfl

/-- **The checks of a tick pass.** -/
theorem step?_eq (hticks : s.ticks + 1 < 2 ^ wordBits) : s.step? = some s.step.value := by
  have hsettle := settle?_eq hc hs.tick
  have hcapture := capture?_eq hc hs.tick.settled
  have hservice := serviceBus?_eq hc hs.tick.settled.capture
  rw [step?, countTick?, if_pos hticks]
  simp only [Option.bind_eq_bind, Option.bind_some, hsettle, hcapture, hservice]
  rfl

theorem run?_eq {k : Nat} (hticks : s.ticks + k < 2 ^ wordBits) : s.run? k = some (s.run k).value := by
  induction k with
  | zero => rfl
  | succ k ih =>
    have hrun : (s.run k).value.Sized c size := kept_run (fun _ => Sized.step) k hs
    have hlt : (s.run k).value.ticks + 1 < 2 ^ wordBits := by
      rw [ticks_run]
      omega
    rw [run?, ih (by omega), run_succ, Option.bind_eq_bind, Option.bind_some, step?_eq hc hrun hlt]

theorem reset?_eq : s.reset? = some s.reset.value := by
  rw [reset?, settle?_eq hc hs.cleared, Option.bind_eq_bind, Option.bind_some,
    driveReadData?_eq hc hs.cleared.settled]
  rfl

theorem loadImage?_eq (image : Array UInt8) : s.loadImage? image = some (s.loadImage image).value := by
  have hsize : (s.ram.load image).value.size = size := by
    rw [Ram.value_load, Ram.size_overwrite, hs.ram]
  rw [loadImage?, Ram.load?_eq, Option.bind_eq_bind, Option.bind_some, driveReadData?_eq hc (hs.withRam hsize)]
  rfl

theorem writeRam?_eq (addr : Nat) (byte : UInt8) : s.writeRam? addr byte = some (s.writeRam addr byte) := by
  rw [writeRam?, Ram.write?_eq, Option.bind_eq_bind, Option.bind_some,
    driveReadData?_eq hc (hs.withRam ((Ram.size_write _ _ _).trans hs.ram))]
  rfl

theorem setInput?_eq (name : String) (value : Nat) : s.setInput? name value = some (s.setInput name value) := by
  unfold setInput? setInput
  cases hp : s.circuit.inputs.get? name with
  | none => rfl
  | some p =>
    simp only [drive?_eq hs (hc.inputs _ _ (hs.circuit ▸ hp)) value, Option.bind_eq_bind, Option.bind_some,
      Option.pure_def, withPins]

theorem attach?_eq (names : BusNames) :
    s.attach? names = some ((s.attach names).map Logged.value) := by
  unfold attach? attach
  cases hb : s.busOf names with
  | error e => rfl
  | ok bus =>
    simp only [driveReadData?_eq hc (hs.withBus hb), Option.bind_eq_bind, Option.bind_some, Option.pure_def]
    rfl

/-! ## What is seen -/

theorem output?_eq (name : String) : s.output? name = some (s.output name) := by
  unfold output? output
  cases ho : s.circuit.outputs.find? (·.1 = name) with
  | none => rfl
  | some o =>
    have hhas : ∀ x ∈ o.2, c.Has x := hc.outputs o (hs.circuit ▸ List.mem_of_find?_eq_some ho)
    simp only [value?_eq hs hhas, Option.bind_eq_bind, Option.bind_some, Option.pure_def]

theorem wire?_eq (name : String) : s.wire? name = some (s.wire name) := by
  unfold wire? wire
  cases hx : s.circuit.signals.get? name with
  | none => rfl
  | some xs =>
    have hhas : ∀ x ∈ xs, c.Has x := hc.signals _ (hs.circuit ▸ NameTable.mem_of_get? hx)
    simp only [value?_eq hs hhas, Option.bind_eq_bind, Option.bind_some, Option.pure_def]

theorem snapshot?_eq : s.snapshot? = some s.snapshot := by
  refine mapM_eq fun e he => ?_
  have hhas : ∀ x ∈ e.2, c.Has x := hc.signals e (hs.circuit ▸ he)
  simp only [value?_eq hs hhas, Option.bind_eq_bind, Option.bind_some, Option.pure_def]

theorem text?_eq : s.text? = some s.text := by
  rw [text?, snapshot?_eq hc hs, Option.bind_eq_bind, Option.bind_some, Option.pure_def, text]

theorem view?_eq : s.view? = some s.view := by
  have houtputs : (s.circuit.outputs.mapM fun o => do
      return (o.1, (← s.output? o.1).toOption.getD 0)) =
        some (s.circuit.outputs.map fun o => (o.1, (s.output o.1).toOption.getD 0)) :=
    mapM_eq fun o _ => by
      simp only [output?_eq hc hs, Option.bind_eq_bind, Option.bind_some, Option.pure_def]
  rw [view?, snapshot?_eq hc hs, houtputs]
  rfl

theorem seen?_eq : s.seen? = some s.seen := by
  rw [seen?, view?_eq hc hs, Option.bind_eq_bind, Option.bind_some, Option.pure_def, seen]

/-- **The checks of an operation pass.** -/
theorem perform?_eq (hticks : s.ticks + op.ticks < 2 ^ wordBits) :
    s.perform? op = some (s.perform op).value := by
  have hnext : ∀ {t}, s.Effect op t → t.seen? = some t.seen := fun h => seen?_eq hc (hs.effect h)
  cases op with
  | setInput name value =>
    rw [perform?, setInput?_eq hc hs, Option.bind_eq_bind, Option.bind_some, perform, setInput]
    cases hp : s.circuit.inputs.get? name with
    | none => rfl
    | some p => exact hnext (.pin hp)
  | step =>
    rw [perform?, step?_eq hc hs hticks, Option.bind_eq_bind, Option.bind_some]
    exact hnext .tick
  | run k =>
    rw [perform?, run?_eq (k := k) hc hs hticks, Option.bind_eq_bind, Option.bind_some]
    exact hnext (.ticks k)
  | reset =>
    rw [perform?, reset?_eq hc hs, Option.bind_eq_bind, Option.bind_some]
    exact hnext .reset
  | loadImage image =>
    rw [perform?, loadImage?_eq hc hs, Option.bind_eq_bind, Option.bind_some]
    exact hnext (s.effect_perform (.loadImage image))
  | writeRam addr byte =>
    rw [perform?, writeRam?_eq hc hs, Option.bind_eq_bind, Option.bind_some]
    exact hnext (s.effect_perform (.writeRam addr byte))
  | attach names =>
    have heffect := s.effect_perform (.attach names)
    rw [perform?, attach?_eq hc hs, Option.bind_eq_bind, Option.bind_some]
    rw [perform] at heffect ⊢
    cases h : s.attach names with
    | error e => rfl
    | ok x =>
      rw [h] at heffect
      exact hnext heffect
  | attachDefault =>
    rw [perform?, attach?_eq hc hs, Option.bind_eq_bind, Option.bind_some, perform, attachDefault]
    cases s.attach {} <;> rfl
  | output name => rw [perform?, output?_eq hc hs]; rfl
  | wire name => rw [perform?, wire?_eq hc hs]; rfl
  | readRam addr => rw [perform?, Ram.read?_eq]; rfl
  | memory => rfl
  | names => rfl
  | table => rw [perform?, text?_eq hc hs]; rfl

omit hs in
/-- **The checks of a run pass** if it has fewer ticks than a word can count. -/
theorem performAll?_eq (ops : List Operation) : ∀ {s : Simulator}, s.Sized c size →
    s.ticks + (ops.map Operation.ticks).sum < 2 ^ wordBits →
      s.performAll? ops = some (s.performAll ops).value := by
  induction ops with
  | nil => exact fun _ _ => rfl
  | cons op ops ih =>
    intro s hs hticks
    rw [List.map_cons, List.sum_cons] at hticks
    have heffect := s.effect_perform op
    have hcount := ticks_effect heffect
    rw [performAll?, perform?_eq hc hs (by omega), Option.bind_eq_bind, Option.bind_some,
      ih (hs.effect heffect) (by omega)]
    rfl

end Simulator

/-- **No simulation of a compiled module uses a place out of range.** Take any module of any design that
compiles, any memory, and any operations with fewer ticks than a word can count. With every access to the bits
of nodes and inputs, to the clocks and to the memory checked, and the ticks counted in a word, the run does not
fail and comes to the same. Each input bit is that of exactly one pin, and there are as many bits, clocks and
bytes as at the start. -/
theorem Simulator.runs_stay_in_range {l : Ledger} {ms : List Module} {lib : Library} {n : Netlist}
    (h : (l.compile ms).result = .ok lib) (hn : n ∈ lib.netlists) (ram : Ram) (ops : List Operation)
    (hticks : (ops.map Operation.ticks).sum < 2 ^ wordBits) :
    let s := (ofNetlist n ram).value
    let t := (s.performAll ops).value.1
    s.performAll? ops = some (s.performAll ops).value ∧ Tiles t.circuit.inputs n.inputs t.pins.size ∧
      t.values.size = n.nodes.size ∧ t.pins.size = n.inputWidth ∧ t.clocks.length = n.flops.length ∧
      t.ram.size = ram.size := by
  intro s t
  have hwell : n.WellFormed := Elaboration.wellFormed_of_mem h hn
  have hstart := sized_start n ram
  have ht : t.Sized (Circuit.ofNetlist n).value ram.size :=
    kept_performAll (fun s op hs => hs.effect (s.effect_perform op)) ops hstart
  have hnames : (n.inputs.map Port.name).Nodup := (List.nodup_append.1 hwell.ports_differ).1
  refine ⟨performAll?_eq hwell.inRange ops hstart ?_, ?_, ht.values, ht.pins, ht.clocks, ht.ram⟩
  · rwa [show s.ticks = 0 from rfl, Nat.zero_add]
  · rw [ht.circuit, ht.pins]
    exact Netlist.tiles_pins hnames

/-- A port to a memory that writes back what it reads. -/
def echo : Module :=
  ⟨"Echo", [⟨"clk", 1⟩, ⟨"go", 1⟩, ⟨"read_data", 8⟩], [⟨"addr", 1⟩, ⟨"write_enable", 1⟩, ⟨"write_data", 8⟩],
    [⟨⟨"addr", none⟩, .call "nand" [.identifier "go", .identifier "go"]⟩,
      ⟨⟨"write_enable", none⟩, .call "dff" [.identifier "go", .identifier "clk"]⟩,
      ⟨⟨"write_data", none⟩, .identifier "read_data"⟩]⟩

theorem echo_sizes : ((Ledger.compile {} [echo]).result.toOption.map fun lib =>
    lib.netlists.map fun n => (n.nodes.size, n.inputWidth)) = some [(2, 10)] := by decide +kernel

theorem echo_compiles : ∃ lib n, (Ledger.compile {} [echo]).result = .ok lib ∧ n ∈ lib.netlists ∧
    n.nodes.size = 2 ∧ n.inputWidth = 10 := by
  have hsizes := echo_sizes
  cases h : (Ledger.compile {} [echo]).result with
  | error e =>
    rw [h] at hsizes
    cases hsizes
  | ok lib =>
    rw [h] at hsizes
    have hsizes : (lib.netlists.map fun n => (n.nodes.size, n.inputWidth)) = [(2, 10)] :=
      Option.some.inj hsizes
    obtain ⟨n, hn, hsize⟩ := List.mem_map.1 (hsizes ▸ List.mem_singleton_self (2, 10))
    exact ⟨lib, n, rfl, hn, congrArg Prod.fst hsize, congrArg Prod.snd hsize⟩

/-- The port with a memory of one byte, an image that is too long for it and a name that it does not have. -/
theorem Simulator.echo_in_range : ∃ lib n, (Ledger.compile {} [echo]).result = .ok lib ∧ n ∈ lib.netlists ∧
    let ops : List Operation := [.attachDefault, .setInput "go" 1, .setInput "clk" 3, .run 3, .loadImage #[1, 2],
      .writeRam 70 5, .setInput "stop" 1, .reset, .step, .table]
    (ops.map Operation.ticks).sum = 4 ∧
      let s := (ofNetlist n (.zeros 0)).value
      let t := (s.performAll ops).value.1
      s.performAll? ops = some (s.performAll ops).value ∧ Tiles t.circuit.inputs n.inputs t.pins.size ∧
        t.values.size = 2 ∧ t.pins.size = 10 ∧ t.clocks.length = n.flops.length ∧ t.ram.size = 1 := by
  obtain ⟨lib, n, h, hn, hnodes, hwidth⟩ := echo_compiles
  obtain ⟨hchecked, htiles, hvalues, hpins, hclocks, hram⟩ :=
    runs_stay_in_range h hn (.zeros 0) [.attachDefault, .setInput "go" 1, .setInput "clk" 3, .run 3,
      .loadImage #[1, 2], .writeRam 70 5, .setInput "stop" 1, .reset, .step, .table] (by decide)
  exact ⟨lib, n, h, hn, rfl, hchecked, htiles, hvalues.trans hnodes, hpins.trans hwidth, hclocks, hram⟩

end NandHdl
