import NandHdl.Proofs.Paste
import NandHdl.Proofs.Realize
import NandHdl.Proofs.Tick

/-!
# Simulations compute what modules mean

* `computes_netlist`: the nodes of a netlist compute the meaning of its module.
* `feedbackFree_of_ordered`: nodes that read earlier ones only feed no gate back.
* `Simulator.valuation`: the values of all bits in one tick of a simulation.
* `Simulator.Keeps`: the registers are the flip-flops of a simulation.
* `Simulator.tick_eq`: **a tick of a simulation is a tick of the meaning.**
* `trace_eq_meaning`: whole runs.
-/

namespace NandHdl

open Elaboration

/-! ## Netlists of modules without early reads -/

section Netlists

variable {es : List Module} {m : Module} {first : Nat} {n : Netlist} {s' : State}

/-- The nodes of the netlist compute the meaning of the module, and each reads earlier ones only. -/
theorem computes_netlist (hfree : ForwardFree es m)
    (h : Gives (netlist (calleesOf es) m) (State.initial first) n s') (V : Valuation) :
    (∀ node ∈ n.nodes.toList, node.cell.All (Bit.Before node.id)) ∧ ∀ t, Solves V n.nodes.toList t →
      ((Function.ofModule (Function.ofModules es) m).apply
        ((inputWires 0 m.inputs).map (Wire.valued V))).run t =
        some (valuedWires V (namedOutputs n), afterNodes V n.nodes.toList t) := by
  obtain ⟨ρ, hfirst, hwidth⟩ := exists_renaming first (m.inputs.map Port.width).sum
  obtain ⟨u, hu, hnodes, -⟩ := innerBody_of_netlist (follows_calleesOf ρ es) hfirst hwidth h
  have hinputs : ∀ w ∈ inputWires 0 m.inputs,
      w.All (Bit.Before (State.outermost first m).inner.nextId) := by
    refine fun w hw => (mem_inputWires hw).imp fun x ⟨i, _, hx⟩ => ?_
    rw [hx]
    trivial
  -- what the module makes instances of is free of early reads as well
  have hrealized : ∀ st ∈ m.statements, ∀ name ∈ st.expr.instances (definedFor es m),
      Realized V ⟨m, [m.name], visibleFrom (calleesOf es) m⟩
        (Function.recursive m :: Function.ofModules es) name := by
    cases hfree with
    | intro _ hinner =>
      exact fun st hst name hname => realized_visible fun d es' hd =>
        realizes_ofModule (hinner st hst name hname d es' hd)
  have hreads : readsBound (definedFor es m) m (m.inputs.map Port.name) m.statements = true := by
    cases hfree with
    | intro hreads _ => exact hreads
  obtain ⟨Δ, hext, -, hrun⟩ := computes_innerBody (calls_visible (List.cons_ne_nil _ _)) hinputs
    (length_inputWires 0 m.inputs) hreads hrealized rfl rfl _ u hu
  have hΔ : n.nodes.toList = Δ := by
    rw [← hnodes, hext.nodes]
    rfl
  rw [hΔ]
  exact ⟨hext.ordered, hrun⟩

/-- The number of a node stands for its place. -/
theorem place?_of_ids (hids : ∀ i node, n.nodes[i]? = some node → node.id = first + i) {i : Nat}
    {node : Node} (hi : n.nodes[i]? = some node) : n.place? node.id = some i := by
  obtain ⟨j, hj⟩ := Netlist.exists_place? (n := n) (c := node.cell) hi
  obtain ⟨c, hc⟩ := Netlist.place?_spec hj
  -- the places of two nodes of one number are equal
  have hjid := hids j _ hc
  have hiid := hids i _ hi
  simp only at hjid
  rw [hj]
  congr 1
  omega

instance : Inhabited Valuation where
  default := ⟨fun x => .steady (x = .const true), fun v => by cases v <;> rfl, fun _ => rfl⟩

/-- Without early reads no gate feeds itself: gates read earlier nodes only. -/
theorem feedbackFree_of_forwardFree (hfree : ForwardFree es m)
    (h : Gives (netlist (calleesOf es) m) (State.initial first) n s') : n.FeedbackFree := by
  -- any values of the bits will do, since only the order of nodes matters
  obtain ⟨hordered, -⟩ := computes_netlist hfree h default
  refine Netlist.feedbackFree_of_rank id fun k j hk => ?_
  obtain ⟨-, a, b, hj, hab⟩ := hk
  obtain ⟨i, -, hi⟩ := Netlist.cell?_eq_some.1 hj
  have hmem : (⟨j, .nand a b⟩ : Node) ∈ n.nodes.toList := by
    rw [Array.mem_toList_iff]
    exact Array.mem_of_getElem? hi
  have hread : Bit.Before j (.node k) := by
    refine hordered _ hmem (.node k) ?_
    simp only [Cell.inputs, List.mem_cons, List.not_mem_nil, or_false]
    exact hab.imp Eq.symm Eq.symm
  exact hread

end Netlists

namespace Simulator

/-- What is seen of the outputs, bit by bit. -/
def outputBits (s : Simulator) : List (String × List Bool) :=
  s.circuit.outputs.map fun o => (o.1, o.2.map s.read)

/-- The value of an output is the number of its low bits. -/
theorem output_eq (s : Simulator) (name : String) : s.output name =
    match s.outputBits.find? (·.1 = name) with
    | some o => .ok (ofBits (o.2.take wordBits))
    | none => .error (.noSuchOutput name) := by
  rw [output, outputBits, List.find?_map]
  simp only [Function.comp_def]
  cases s.circuit.outputs.find? fun o => decide (o.1 = name) with
  | none => rfl
  | some o =>
    simp only [Option.map_some, value, List.map_take]

/-- Ticks one after another, each with its own input bits: what is seen of the outputs after each. -/
def trace (s : Simulator) : List (Array Bool) → List (List (String × List Bool))
  | [] => []
  | pins :: rest => (s.withPins pins).step.value.outputBits :: (s.withPins pins).step.value.trace rest

/-- Driving an input changes input bits only. -/
theorem setInput_eq {s s' : Simulator} {name : String} {value : Nat}
    (h : s.setInput name value = .ok s') : s' = s.withPins s'.pins ∧ s'.pins.size = s.pins.size := by
  have hpins := (frames_setInput h).pins
  rw [setInput] at h
  split at h
  · cases h
    exact ⟨rfl, hpins⟩
  · cases h

variable {n : Netlist} {s : Simulator} {before : Nat → Bool}

/-! ## One tick -/

theorem driveReadData_of_no_bus (hbus : s.bus = none) : s.driveReadData = s := by
  rw [driveReadData, hbus]

theorem serviceBus_of_no_bus (hbus : s.bus = none) : s.serviceBus.value = s := by
  rw [serviceBus, hbus]
  rfl

/-- Without a memory a tick ends when the flip-flops have captured. -/
theorem step_of_no_bus (hbus : s.bus = none) :
    s.step.value = { s with ticks := s.ticks + 1, values := s.settled.values }.capture := by
  rw [step_value]
  exact serviceBus_of_no_bus hbus

theorem Fits.outputBits (hfit : s.Fits n) :
    s.outputBits = n.outputs.map fun o => (o.1.name, o.2.bits.toList.map fun x => s.read (n.source x)) := by
  have houtputs : s.circuit.outputs =
      (n.outputs.map fun o => (o.1.name, o.2)).map fun w => (w.1, w.2.bits.toList.map n.source) := by
    rw [hfit.circuit]
    exact Wiring.value_namedSources n.name (Wiring.places n.nodes.toList) _
  rw [Simulator.outputBits, houtputs, List.map_map, List.map_map]
  refine List.map_congr_left fun o _ => ?_
  simp only [Function.comp_apply, List.map_map]
  rfl

/-- **The values of all bits in one tick**: what they evaluate to, and what is seen of them afterwards. -/
def valuation (h : n.FeedbackFree) (s : Simulator) : Valuation where
  value x := ⟨n.comb h s.pins (s.stored n) x, s.step.value.read (n.source x)⟩
  const v := by
    rw [Netlist.comb]
    rfl
  forward k := by
    rw [Netlist.comb]
    rfl

/-- The registers are the flip-flops among nodes that start at place `i`, each with its bit and its clock
at the last tick. -/
def Registers (bit clock : Nat → Bool) : Nat → List Node → List Register → Prop
  | _, [], _ => True
  | i, ⟨_, .nand _ _⟩ :: ns, rs => Registers bit clock (i + 1) ns rs
  | i, ⟨_, .dff _ _⟩ :: ns, rs => rs.headD {} = ⟨bit i, clock i⟩ ∧ Registers bit clock (i + 1) ns rs.tail

/-- The registers are the flip-flops of the simulation. -/
def Keeps (n : Netlist) (s : Simulator) (before : Nat → Bool) (rs : List Register) : Prop :=
  Registers (fun i => s.values.getD i false) before 0 n.nodes.toList rs

/-- The first of the nodes from a place on is the node at that place. -/
theorem nodes_drop {i : Nat} {node : Node} {ns : List Node} (h : n.nodes.toList.drop i = node :: ns) :
    n.nodes[i]? = some node ∧ n.nodes.toList.drop (i + 1) = ns := by
  constructor
  · rw [← Array.getElem?_toList, ← List.head?_drop, h, List.head?_cons]
  · rw [← List.tail_drop, h, List.tail_cons]

/-- Flip-flops that hold 0 and saw their clocks at 0 need no registers yet. -/
theorem registers_nil {bit clock : Nat → Bool}
    (hzero : ∀ j id d clk, n.nodes[j]? = some ⟨id, .dff d clk⟩ → bit j = false ∧ clock j = false)
    (ns : List Node) : ∀ i, n.nodes.toList.drop i = ns → Registers bit clock i ns [] := by
  induction ns with
  | nil => exact fun _ _ => trivial
  | cons node ns ih =>
    intro i hdrop
    obtain ⟨hhead, hnext⟩ := nodes_drop hdrop
    obtain ⟨id, ⟨a, b⟩ | ⟨d, clk⟩⟩ := node
    · exact ih (i + 1) hnext
    · obtain ⟨hbit, hclock⟩ := hzero i id d clk hhead
      refine ⟨?_, ih (i + 1) hnext⟩
      rw [hbit, hclock]
      rfl

/-- In a tick every node has the value that it makes of those it reads, and the registers behind the
nodes are the flip-flops after the tick. -/
theorem Tracks.solves (ht : s.Tracks n before) (h : n.FeedbackFree) (first : Nat)
    (hids : ∀ i node, n.nodes[i]? = some node → node.id = first + i) (ns : List Node) :
    ∀ (i : Nat) (rs done : List Register), n.nodes.toList.drop i = ns →
      Registers (fun j => s.values.getD j false) before i ns rs →
      Solves (s.valuation h) ns ⟨rs, done⟩ ∧
      ∃ new, (afterNodes (s.valuation h) ns ⟨rs, done⟩).done = done ++ new ∧
        Registers (fun j => s.step.value.values.getD j false) (s.settledClock n) i ns new := by
  induction ns with
  | nil => exact fun _ _ done _ _ => ⟨trivial, [], (List.append_nil done).symm, trivial⟩
  | cons node ns ih =>
    intro i rs done hdrop hregs
    obtain ⟨hi, hnext⟩ := nodes_drop hdrop
    have hplace : n.place? node.id = some i := place?_of_ids hids hi
    have hread : s.step.value.read (n.source (.node node.id)) = s.step.value.values.getD i false := by
      rw [Netlist.source_node, hplace]
      rfl
    obtain ⟨id, ⟨a, b⟩ | ⟨d, clk⟩⟩ := node
    · -- a gate shows what it evaluates to
      have hcell : n.cell? id = some (.nand a b) := Netlist.cell?_eq_some.2 ⟨i, hplace, hi⟩
      obtain ⟨hsolves, new, hdone, hnew⟩ := ih (i + 1) rs done hnext hregs
      refine ⟨⟨?_, hsolves⟩, new, hdone, hnew⟩
      simp only [valuation, Node.evaluate, Sample.nand, Sample.steady, Sample.mk.injEq]
      exact ⟨Netlist.comb_nand h _ _ hcell, hread.trans (ht.step_nand h hi)⟩
    · -- a flip-flop shows what it has captured
      have hcell : n.cell? id = some (.dff d clk) := Netlist.cell?_eq_some.2 ⟨i, hplace, hi⟩
      obtain ⟨hhead, hregs⟩ := hregs
      generalize hnew : (rs.headD {}).next ((s.valuation h).value d) ((s.valuation h).value clk) = r
      have hcaptured : r = ⟨s.step.value.values.getD i false, s.settledClock n i⟩ := by
        rw [← hnew, hhead, ht.step_dff h hi, settledClock, hi]
        simp only [Register.next, valuation, Register.mk.injEq]
        exact ⟨rfl, (ht.toFits.settled_read h clk).symm⟩
      obtain ⟨hsolves, new, hdone, hregs'⟩ := ih (i + 1) rs.tail (done ++ [r]) hnext hregs
      have hnode : Node.evaluate (s.valuation h) ⟨id, .dff d clk⟩ ⟨rs, done⟩ =
          (⟨(rs.headD {}).bit, r.bit⟩, ⟨rs.tail, done ++ [r]⟩) := by
        simp only [Node.evaluate, Tape.capture, hnew]
      refine ⟨⟨?_, by rw [hnode]; exact hsolves⟩, r :: new, ?_, hcaptured, hregs'⟩
      · rw [hnode, hcaptured, hhead]
        simp only [valuation, Sample.mk.injEq]
        refine ⟨?_, hread⟩
        rw [Netlist.comb_dff h _ _ hcell, stored_of_place hplace]
      · rw [afterNodes, List.foldl_cons, hnode]
        rw [List.append_assoc] at hdone
        exact hdone

/-! ## Runs -/

/-- The arguments of a module on its own are its input bits. -/
theorem valued_inputWires (h : n.FeedbackFree) (hbus : s.bus = none) (ps : List Port) : ∀ offset,
    (inputWires offset ps).map (Wire.valued (s.valuation h)) = Function.arguments s.pins offset ps := by
  have hinput : ∀ i, (s.valuation h).value (.input i) = .steady (s.pins.getD i false) := by
    intro i
    simp only [valuation, Sample.steady, Sample.mk.injEq]
    rw [step_of_no_bus hbus, Netlist.comb]
    exact ⟨rfl, rfl⟩
  induction ps with
  | nil => exact fun _ => rfl
  | cons p ps ih =>
    intro offset
    rw [inputWires, List.map_cons, ih, Function.arguments, Wire.valued_ofFn]
    simp only [hinput]

variable {es : List Module} {m : Module} {first : Nat} {t : State}

/-- **A tick of a simulation is a tick of the meaning.** -/
theorem tick_eq (hfree : ForwardFree es m) (hn : Gives (netlist (calleesOf es) m) (State.initial first) n t)
    (ht : s.Tracks n before) (hbus : s.bus = none) {rs : List Register} (hkeeps : s.Keeps n before rs) :
    ∃ rs', (Function.ofModule (Function.ofModules es) m).tick rs s.pins =
        some (s.step.value.outputBits, rs') ∧
      s.step.value.Keeps n (s.settledClock n) rs' := by
  obtain ⟨hclosed, -⟩ := closed_of_netlist (fun ρ => follows_calleesOf ρ es) hn
  have h : n.FeedbackFree := feedbackFree_of_forwardFree hfree hn
  obtain ⟨-, hrun⟩ := computes_netlist hfree hn (s.valuation h)
  obtain ⟨hsolves, new, hdone, hnew⟩ := ht.solves h first hclosed.ids n.nodes.toList 0 rs [] rfl hkeeps
  have harguments := valued_inputWires h hbus m.inputs 0
  have hresult := hrun ⟨rs, []⟩ hsolves
  rw [harguments] at hresult
  refine ⟨new, ?_, hnew⟩
  -- the outputs are seen after the tick, when the registers have changed
  have houtputs : (valuedWires (s.valuation h) (namedOutputs n)).map
      (fun o => (o.1, o.2.map Sample.seen)) = s.step.value.outputBits := by
    rw [ht.tick.toFits.outputBits, valuedWires, namedOutputs, List.map_map, List.map_map]
    refine List.map_congr_left fun o _ => ?_
    simp only [Function.comp_apply, Wire.valued, List.map_map]
    rfl
  have happly : (Function.ofModule (Function.ofModules es) m).apply
      (Function.arguments s.pins 0 (Function.ofModule (Function.ofModules es) m).inputs) ⟨rs, []⟩ = _ :=
    hresult
  rw [Function.tick, happly]
  change some (_, (afterNodes (s.valuation h) n.nodes.toList ⟨rs, []⟩).done) = _
  rw [hdone, houtputs, List.nil_append]

/-- Before the first tick, and after a reset, the registers hold nothing. -/
theorem keeps_start (n : Netlist) (ram : Ram) : (ofNetlist n ram).value.Keeps n (fun _ => false) [] := by
  refine registers_nil (fun j id d clk _ => ⟨?_, rfl⟩) _ 0 rfl
  exact getD_replicate_false n.nodes.size j

theorem keeps_reset (ht : s.Tracks n before) :
    s.reset.value.Keeps n (fun _ => false) [] := by
  exact registers_nil (fun j id d clk hj => ⟨ht.reset_flop hj, rfl⟩) _ 0 rfl

/-- **Runs.** From registers that are the flip-flops of a simulation on, the meaning shows what the
simulation shows. -/
theorem trace_eq (hfree : ForwardFree es m)
    (hn : Gives (netlist (calleesOf es) m) (State.initial first) n t) (schedule : List (Array Bool)) :
    ∀ {s : Simulator} {before : Nat → Bool} {rs : List Register}, s.Tracks n before → s.bus = none →
      s.Keeps n before rs → (∀ pins ∈ schedule, pins.size = n.inputWidth) →
      (Function.ofModule (Function.ofModules es) m).trace rs schedule = some (s.trace schedule) := by
  induction schedule with
  | nil => exact fun _ _ _ _ => rfl
  | cons pins schedule ih =>
    intro s before rs ht hbus hkeeps hpins
    have ht' : (s.withPins pins).Tracks n before := ht.withPins (hpins pins List.mem_cons_self)
    have hbus₁ : (s.withPins pins).bus = none := hbus
    obtain ⟨rs', htick, hkeeps'⟩ := tick_eq hfree hn ht' hbus₁ hkeeps
    have hbus' : (s.withPins pins).step.value.bus = none := by
      rw [step_of_no_bus hbus₁]
      exact hbus
    have hrest := ih ht'.tick hbus' hkeeps' fun p hp => hpins p (List.mem_cons_of_mem pins hp)
    have htick : (Function.ofModule (Function.ofModules es) m).tick rs pins = _ := htick
    rw [Function.trace, htick, trace]
    change Option.bind _ _ = _
    simp only [Option.bind_some]
    rw [hrest]
    rfl

end Simulator

/-- **Simulations compute what modules mean.** In a design that compiles, take a module such that neither it
nor a module of which it makes an instance reads a name before the statement that assigns it. Whatever its
inputs are in each tick, after every tick since the start or a reset its outputs are those that its meaning
gives, if no memory is attached. -/
theorem trace_eq_meaning {l : Ledger} {ms : List Module} {lib : Library}
    (h : (l.compile ms).result = .ok lib) {k : Nat} {m : Module} (hm : ms[k]? = some m) {n : Netlist}
    (hn : lib.netlists[k]? = some n)
    (hfree : ForwardFree (ms.take k).reverse m) (schedule : List (Array Bool))
    (hpins : ∀ pins ∈ schedule, pins.size = n.inputWidth) :
    (∀ ram, (Function.ofModule (Function.ofModules (ms.take k).reverse) m).trace [] schedule =
      some ((Simulator.ofNetlist n ram).value.trace schedule)) ∧
    ∀ (s : Simulator) (before : Nat → Bool), s.Reached n before → s.bus = none →
      (Function.ofModule (Function.ofModules (ms.take k).reverse) m).trace [] schedule =
        some (s.reset.value.trace schedule) := by
  have hstart : ∀ ρ : Renaming, List.Forall₂ ρ.Follows (calleesOf []) (pastedOf l.nextId []) :=
    fun _ => .nil
  have hfaithful := faithful_of_compileFrom ms hstart (compileFrom_of_compile h) hm hn
  rw [List.append_nil, List.append_nil] at hfaithful
  obtain ⟨t, ht⟩ := hfaithful.own
  refine ⟨fun ram => ?_, fun s before hs hbus => ?_⟩
  · exact Simulator.trace_eq hfree ht schedule (Simulator.Reached.start ram).tracks rfl
      (Simulator.keeps_start n ram) hpins
  · have hloop := feedbackFree_of_forwardFree hfree ht
    have hbus' : s.reset.value.bus = none := by
      rw [Simulator.reset_value, Simulator.driveReadData_of_no_bus]
      · exact hbus
      · exact hbus
    exact Simulator.trace_eq hfree ht schedule hs.tracks.reset hbus'
      (Simulator.keeps_reset hs.tracks) hpins

/-- A flip-flop, and an instance of the inverter that reads it. -/
def delay : Module :=
  ⟨"Delay", [⟨"d", 1⟩, ⟨"clk", 1⟩], [⟨"q", 1⟩, ⟨"n", 1⟩],
    [⟨⟨"q", none⟩, .call "dff" [.identifier "d", .identifier "clk"]⟩,
      ⟨⟨"n", none⟩, .call "Not" [.identifier "q"]⟩]⟩

theorem inverter_forwardFree : ForwardFree [] inverter :=
  .intro (by decide) fun _ _ _ _ _ _ h => nomatch h

theorem delay_forwardFree : ForwardFree [inverter] delay := by
  refine .intro (by decide) fun _ _ name _ d es' hd => ?_
  rw [List.dropWhile_cons] at hd
  split at hd
  · cases hd
  · cases hd
    exact inverter_forwardFree

theorem delay_sizes : ((Ledger.compile {} [inverter, delay]).result.toOption.map fun lib =>
    lib.netlists.map fun n => (n.nodes.size, n.inputWidth)) = some [(1, 1), (2, 2)] := by decide +kernel

/-- The data is seen at the output in the tick in which the clock rises, and at the inverter one later. -/
theorem delay_trace : ∃ lib n, (Ledger.compile {} [inverter, delay]).result = .ok lib ∧
    lib.netlists[1]? = some n ∧ ForwardFree [inverter] delay ∧
    (∀ pins ∈ [#[true, false], #[true, true], #[false, false]], pins.size = n.inputWidth) ∧
    ∀ ram, (Simulator.ofNetlist n ram).value.trace [#[true, false], #[true, true], #[false, false]] =
      [[("q", [false]), ("n", [true])], [("q", [true]), ("n", [true])], [("q", [true]), ("n", [false])]] := by
  have hsizes := delay_sizes
  cases h : (Ledger.compile {} [inverter, delay]).result with
  | error e =>
    rw [h] at hsizes
    cases hsizes
  | ok lib =>
    rw [h] at hsizes
    have hsizes : (lib.netlists.map fun n => (n.nodes.size, n.inputWidth)) = [(1, 1), (2, 2)] :=
      Option.some.inj hsizes
    have hsecond : (lib.netlists[1]?).map (fun n => (n.nodes.size, n.inputWidth)) = some (2, 2) := by
      rw [← List.getElem?_map, hsizes]
      rfl
    obtain ⟨n, hn, hsize⟩ := Option.map_eq_some_iff.1 hsecond
    have hwidth : n.inputWidth = 2 := congrArg Prod.snd hsize
    have hpins : ∀ pins ∈ [#[true, false], #[true, true], #[false, false]],
        pins.size = n.inputWidth := by
      rw [hwidth]
      decide
    refine ⟨lib, n, rfl, hn, delay_forwardFree, hpins, fun ram => ?_⟩
    have htrace := (trace_eq_meaning h (k := 1) rfl hn delay_forwardFree _ hpins).1 ram
    refine (Option.some.inj (htrace.symm.trans ?_))
    decide +kernel

end NandHdl
