import NandHdl.Proofs.Wiring
import NandHdl.Simulation.Operation

/-!
# One tick without feedback

In a circuit whose gates do not feed themselves, a tick evaluates every gate as
a function of the input bits and the stored bits, whatever the gates held
before, and then lets the flip-flops capture all at once.

* `Netlist.comb`: the recursive evaluation of a bit.
* `Simulator.Reached`: the states of a simulation, with the clocks of the last tick.
* `settled_read`: settling computes `comb`.
* `step_of_feedbackFree`: the state after a tick, in terms of `comb` and the last clocks alone.
-/

namespace NandHdl

open Relation

namespace Netlist

variable {n : Netlist}

variable (n) in
/-- One bit is an input of the gate behind another. -/
def Under (x y : Bit) : Prop := ∃ id a b, y = .node id ∧ n.cell? id = some (.nand a b) ∧ (x = a ∨ x = b)

/-- A number that stands for a cell is that of a node. -/
theorem mem_ids {id : Nat} {c : Cell} (h : n.cell? id = some c) : id ∈ n.nodes.toList.map Node.id := by
  obtain ⟨i, -, hi⟩ := cell?_eq_some.1 h
  have hmem := List.mem_of_getElem? (by simpa using hi : n.nodes.toList[i]? = some _)
  exact List.mem_map.2 ⟨_, hmem, rfl⟩

/-- A bit that is no gate has no inputs. -/
theorem acc_of_not_gate {x : Bit} (h : ∀ id a b, x = .node id → n.cell? id ≠ some (.nand a b)) :
    Acc n.Under x := by
  refine ⟨_, fun y hy => ?_⟩
  obtain ⟨id, a, b, hid, hcell, -⟩ := hy
  exact absurd hcell (h id a b hid)

/-- Without feedback, going from gates to their inputs comes to an end: the numbers of nodes are
finitely many, and no gate feeds itself. -/
theorem FeedbackFree.wellFounded (h : n.FeedbackFree) : WellFounded n.Under := by
  let ids := (n.nodes.toList.map Node.id).toFinset
  let r : ids → ids → Prop := fun k j => TransGen n.Feeds k j
  have : IsTrans ids r := ⟨fun _ _ _ => TransGen.trans⟩
  have : Std.Irrefl r := ⟨fun k => h k⟩
  have hwf : WellFounded r := Finite.wellFounded_of_trans_of_irrefl r
  have hacc : ∀ j : ids, Acc n.Under (.node j) := fun j => by
    induction j using hwf.induction with
    | _ j ih =>
      refine ⟨_, fun x hx => ?_⟩
      obtain ⟨id, a, b, hid, hcell, hxab⟩ := hx
      cases hid
      by_cases hgate : ∃ k c d, x = .node k ∧ n.cell? k = some (.nand c d)
      · obtain ⟨k, c, d, rfl, hk⟩ := hgate
        have hfeeds : n.Feeds k j := ⟨⟨c, d, hk⟩, a, b, hcell, hxab.imp Eq.symm Eq.symm⟩
        exact ih ⟨k, List.mem_toFinset.2 (mem_ids hk)⟩ (.single hfeeds)
      · exact acc_of_not_gate fun k c d hx hk => hgate ⟨k, c, d, hx, hk⟩
  refine ⟨fun y => ?_⟩
  by_cases hgate : ∃ k c d, y = .node k ∧ n.cell? k = some (.nand c d)
  · obtain ⟨k, c, d, rfl, hk⟩ := hgate
    exact hacc ⟨k, List.mem_toFinset.2 (mem_ids hk)⟩
  · exact acc_of_not_gate fun k c d hy hk => hgate ⟨k, c, d, hy, hk⟩

/-- **The value of a bit**, evaluated through the gates down to input bits, constants and the bits
stored in flip-flops. A number that no node has reads as 0. -/
def comb (h : n.FeedbackFree) (pins : Array Bool) (stored : Nat → Bool) (x : Bit) : Bool :=
  match x with
  | .input i => pins.getD i false
  | .const v => v
  | .forward _ => false
  | .node id =>
    match _hc : n.cell? id with
    | none => false
    | some (.dff _ _) => stored id
    | some (.nand a b) => !(comb h pins stored a && comb h pins stored b)
termination_by h.wellFounded.wrap x
decreasing_by
  · exact ⟨id, a, b, rfl, _hc, .inl rfl⟩
  · exact ⟨id, a, b, rfl, _hc, .inr rfl⟩

theorem comb_nand (h : n.FeedbackFree) (pins : Array Bool) (stored : Nat → Bool) {id : Nat} {a b : Bit}
    (hc : n.cell? id = some (.nand a b)) :
    n.comb h pins stored (.node id) = !(n.comb h pins stored a && n.comb h pins stored b) := by
  rw [comb]
  split <;> simp_all

theorem comb_dff (h : n.FeedbackFree) (pins : Array Bool) (stored : Nat → Bool) {id : Nat} {d clk : Bit}
    (hc : n.cell? id = some (.dff d clk)) : n.comb h pins stored (.node id) = stored id := by
  rw [comb]
  split <;> simp_all

/-- Equal cells and equal stored bits give equal values. -/
theorem comb_congr {n n' : Netlist} (h : n.FeedbackFree) (h' : n'.FeedbackFree) (pins : Array Bool)
    {stored stored' : Nat → Bool} (hcell : ∀ id, n'.cell? id = n.cell? id)
    (hstored : ∀ id d clk, n.cell? id = some (.dff d clk) → stored' id = stored id) (x : Bit) :
    n'.comb h' pins stored' x = n.comb h pins stored x := by
  -- the induction follows the evaluation down to the inputs of gates
  induction x using h.wellFounded.induction with
  | _ x ih =>
    cases x with
    | node id =>
      cases hc : n.cell? id with
      | none =>
        have hc' := (hcell id).trans hc
        rw [comb, comb]
        split <;> split <;> simp_all
      | some c =>
        have hc' := (hcell id).trans hc
        cases c with
        | nand a b =>
          rw [comb_nand h pins stored hc, comb_nand h' pins stored' hc',
            ih a ⟨id, a, b, rfl, hc, .inl rfl⟩, ih b ⟨id, a, b, rfl, hc, .inr rfl⟩]
        | dff d clk => rw [comb_dff h pins stored hc, comb_dff h' pins stored' hc', hstored id d clk hc]
    | input i => rw [comb, comb]
    | const v => rw [comb, comb]
    | forward k => rw [comb, comb]

end Netlist

/-- What an operation does to the clocks seen: a tick or a reset moves them, all else leaves them. -/
def Operation.movesClocks : Operation → Bool
  | .step | .run _ | .reset => true
  | _ => false

namespace Simulator

/-- The state belongs to a netlist: it runs its circuit, and has a bit for every node and input. -/
structure Fits (n : Netlist) (s : Simulator) : Prop where
  circuit : s.circuit = (Circuit.ofNetlist n).value
  values : s.values.size = n.nodes.size
  pins : s.pins.size = n.inputWidth

/-- The clock of the flip-flop at a place once the gates have settled. -/
def settledClock (n : Netlist) (s : Simulator) (i : Nat) : Bool :=
  match n.nodes[i]? with
  | some ⟨_, .dff _ clk⟩ => (n.source clk).read s.settled.values s.pins
  | _ => false

/-- **The states of a simulation**, each with the clocks that the flip-flops had at the last tick, or 0
if there was none since the start or the last reset. -/
inductive Reached (n : Netlist) : Simulator → (Nat → Bool) → Prop
  | start (ram : Ram) : Reached n (ofNetlist n ram).value fun _ => false
  | tick {s : Simulator} {before : Nat → Bool} (h : Reached n s before) :
      Reached n s.step.value (s.settledClock n)
  | reset {s : Simulator} {before : Nat → Bool} (h : Reached n s before) :
      Reached n s.reset.value fun _ => false
  | other {s : Simulator} {before : Nat → Bool} (h : Reached n s before) {op : Operation}
      (hop : op.movesClocks = false) : Reached n (s.perform op).value.1 before

variable {n : Netlist} {s : Simulator} {before : Nat → Bool}

end Simulator

/-- Driving a pin keeps the number of input bits. -/
@[simp] theorem Pin.size_drive (p : Pin) (value : Nat) (pins : Array Bool) :
    (p.drive value pins).size = pins.size := by
  unfold Pin.drive
  generalize List.range p.width = is
  induction is generalizing pins with
  | nil => rfl
  | cons i is ih => rw [List.foldl_cons, ih, Array.size_setIfInBounds]

namespace Simulator

variable {n : Netlist} {s : Simulator} {before : Nat → Bool}

/-- The circuit, the bits behind its nodes, the clocks seen and the numbers of ticks and pins are the same. -/
structure Frames (s s' : Simulator) : Prop where
  circuit : s'.circuit = s.circuit
  values : s'.values = s.values
  clocks : s'.clocks = s.clocks
  ticks : s'.ticks = s.ticks
  pins : s'.pins.size = s.pins.size

theorem Frames.refl (s : Simulator) : s.Frames s := ⟨rfl, rfl, rfl, rfl, rfl⟩

/-- The memory drives pins alone. -/
theorem frames_driveReadData (s : Simulator) : s.Frames s.driveReadData := by
  unfold driveReadData
  split
  · exact .refl s
  · exact ⟨rfl, rfl, rfl, rfl, Pin.size_drive _ _ _⟩

theorem frames_serviceBus (s : Simulator) : s.Frames s.serviceBus.value := by
  unfold serviceBus
  split
  · exact .refl s
  · split
    · obtain ⟨hc, hv, hk, ht, hp⟩ := frames_driveReadData
        { s with ram := s.ram.write (s.value _) (UInt8.ofNat (s.value _)) }
      exact ⟨hc, hv, hk, ht, hp⟩
    · exact frames_driveReadData s

theorem frames_attach {names : BusNames} {x : Logged Event Simulator} (h : s.attach names = .ok x) :
    s.Frames x.value := by
  unfold attach at h
  cases hb : s.busOf names with
  | error e =>
    rw [hb] at h
    cases h
  | ok bus =>
    rw [hb] at h
    cases h
    obtain ⟨hc, hv, hk, ht, hp⟩ := frames_driveReadData { s with bus := some bus }
    exact ⟨hc, hv, hk, ht, hp⟩

theorem frames_setInput {name : String} {value : Nat} {s' : Simulator}
    (h : s.setInput name value = .ok s') : s.Frames s' := by
  unfold setInput at h
  cases hp : s.circuit.inputs.get? name with
  | none =>
    rw [hp] at h
    cases h
  | some p =>
    rw [hp] at h
    cases h
    exact ⟨rfl, rfl, rfl, rfl, Pin.size_drive _ _ _⟩

/-- An operation that moves no clocks leaves all bits but the pins alone. -/
theorem perform_frames (s : Simulator) {op : Operation} (hop : op.movesClocks = false) :
    s.Frames (s.perform op).value.1 := by
  cases op with
  | setInput name value =>
    simp only [perform]
    cases hx : s.setInput name value with
    | error e => exact .refl s
    | ok s' => exact frames_setInput hx
  | step => cases hop
  | run k => cases hop
  | reset => cases hop
  | loadImage image =>
    obtain ⟨hc, hv, hk, ht, hp⟩ := frames_driveReadData { s with ram := (s.ram.load image).value }
    exact ⟨hc, hv, hk, ht, hp⟩
  | writeRam addr byte =>
    obtain ⟨hc, hv, hk, ht, hp⟩ := frames_driveReadData { s with ram := s.ram.write addr byte }
    exact ⟨hc, hv, hk, ht, hp⟩
  | attach names =>
    simp only [perform]
    cases hx : s.attach names with
    | error e => exact .refl s
    | ok x => exact frames_attach hx
  | attachDefault =>
    simp only [perform, attachDefault]
    cases hx : s.attach {} with
    | error e => exact .refl s
    | ok x => exact frames_attach hx
  | output name => exact .refl s
  | wire name => exact .refl s
  | readRam addr => exact .refl s
  | memory => exact .refl s
  | names => exact .refl s
  | table => exact .refl s

/-- The state of a tick before the memory is served. -/
theorem step_value (s : Simulator) :
    s.step.value =
      ({ s with ticks := s.ticks + 1, values := s.settled.values }.capture).serviceBus.value := rfl

theorem reset_value (s : Simulator) :
    s.reset.value =
      ({ s with
          values := ({ s with values := Array.replicate s.values.size false }).settled.values
          clocks := s.clocks.map fun _ => false
          ticks := 0 } : Simulator).driveReadData := rfl

/-- The bits after the flip-flops with risen clocks have captured, where `before` are the old clocks. -/
theorem capture_values (s : Simulator) (before : Nat → Bool)
    (hclocks : s.clocks = s.circuit.flops.map fun f => before f.out) :
    s.capture.values = s.circuit.flops.foldl
      (fun values f => if !before f.out && s.read f.clk then values.setIfInBounds f.out (s.read f.d)
        else values) s.values := by
  unfold capture
  dsimp only
  rw [hclocks, List.zip_map', List.zip_map', ← List.map_prod_left_eq_zip, List.foldl_map]

/-- Captures leave every other place alone. -/
theorem getD_foldl_capture_frame {rises data : Flop → Bool} {flops : List Flop} {i : Nat}
    (hi : i ∉ flops.map Flop.out) (values : Array Bool) :
    (flops.foldl (fun values f => if rises f then values.setIfInBounds f.out (data f) else values)
      values).getD i false = values.getD i false := by
  induction flops generalizing values with
  | nil => rfl
  | cons f fs ih =>
    rw [List.map_cons, List.mem_cons, not_or] at hi
    rw [List.foldl_cons, ih hi.2]
    split
    · rw [getD_setIfInBounds, if_neg fun h => hi.1 h.1.symm]
    · rfl

/-- Every flip-flop whose clock rises gets its data, and the others keep their bits. -/
theorem getD_foldl_capture {rises data : Flop → Bool} {flops : List Flop}
    (hnodup : (flops.map Flop.out).Nodup) {values : Array Bool} {f : Flop} (hf : f ∈ flops)
    (hbound : f.out < values.size) :
    (flops.foldl (fun values f => if rises f then values.setIfInBounds f.out (data f) else values)
      values).getD f.out false = if rises f then data f else values.getD f.out false := by
  induction flops generalizing values with
  | nil => exact absurd hf List.not_mem_nil
  | cons g fs ih =>
    obtain ⟨hg, hnd⟩ := List.nodup_cons.1 (List.map_cons ▸ hnodup)
    rw [List.foldl_cons]
    -- the places are distinct, so the other captures leave the one of `f` alone
    rcases List.mem_cons.1 hf with rfl | hf
    · rw [getD_foldl_capture_frame hg]
      split
      · rw [getD_setIfInBounds, if_pos ⟨rfl, hbound⟩]
      · rfl
    · have hne : g.out ≠ f.out := fun h => hg (h ▸ List.mem_map_of_mem hf)
      by_cases hr : rises g
      · rw [if_pos hr, ih hnd hf (by rw [Array.size_setIfInBounds]; exact hbound), getD_setIfInBounds,
          if_neg fun h : g.out = f.out ∧ _ => hne h.1]
      · rw [if_neg hr]
        exact ih hnd hf hbound

theorem size_foldl_capture {rises data : Flop → Bool} (flops : List Flop) (values : Array Bool) :
    (flops.foldl (fun values f => if rises f then values.setIfInBounds f.out (data f) else values)
      values).size = values.size := by
  induction flops generalizing values with
  | nil => rfl
  | cons f fs ih =>
    rw [List.foldl_cons, ih]
    split
    · exact Array.size_setIfInBounds
    · rfl

/-- The invariant of a simulation: the state belongs to the netlist and remembers the clocks. -/
structure Tracks (n : Netlist) (s : Simulator) (before : Nat → Bool) : Prop extends s.Fits n where
  clocks : s.clocks = n.flops.map fun f => before f.out

theorem Fits.flops (h : s.Fits n) : s.circuit.flops = n.flops := by rw [h.circuit]; rfl

theorem Fits.gates (h : s.Fits n) : s.circuit.gates = GateOrder.orderGates n.gates := by
  rw [h.circuit]; rfl

/-- The remembered clocks are those of the settled flip-flops. -/
theorem settledClock_flops (n : Netlist) (s : Simulator) :
    (n.flops.map fun f => f.clk.read s.settled.values s.pins) =
      n.flops.map fun f => s.settledClock n f.out := by
  refine List.map_congr_left fun f hf => ?_
  obtain ⟨i, id, d, clk, hi, rfl⟩ := Netlist.mem_flops.1 hf
  simp only [settledClock, hi]

/-- A tick keeps the invariant. -/
theorem Tracks.tick (h : s.Tracks n before) : s.step.value.Tracks n (s.settledClock n) := by
  rw [step_value]
  set t : Simulator := { s with ticks := s.ticks + 1, values := s.settled.values } with ht
  -- the bits are settled before the clocks are compared with the old ones
  have hclocks : t.clocks = t.circuit.flops.map fun f => before f.out := by
    rw [h.toFits.flops]; exact h.clocks
  refine ⟨⟨?_, ?_, ?_⟩, ?_⟩
  · exact (frames_serviceBus _).circuit.trans h.circuit
  · rw [(frames_serviceBus _).values, capture_values t before hclocks, size_foldl_capture]
    show s.settled.values.size = _
    rw [settled, size_settleWithin, h.values]
  · exact (frames_serviceBus _).pins.trans h.pins
  · rw [(frames_serviceBus _).clocks, ← settledClock_flops, ← h.toFits.flops]
    rfl

theorem Tracks.reset (h : s.Tracks n before) : s.reset.value.Tracks n fun _ => false := by
  rw [reset_value]
  refine ⟨⟨?_, ?_, ?_⟩, ?_⟩
  · exact (frames_driveReadData _).circuit.trans h.circuit
  · rw [(frames_driveReadData _).values]
    show (settleWithin _ _ _ (Array.replicate s.values.size false)).values.size = _
    rw [size_settleWithin, Array.size_replicate, h.values]
  · exact (frames_driveReadData _).pins.trans h.pins
  · rw [(frames_driveReadData _).clocks]
    show (s.clocks.map fun _ => false) = _
    rw [h.clocks, List.map_map]
    rfl

theorem Tracks.other (h : s.Tracks n before) {op : Operation} (hop : op.movesClocks = false) :
    (s.perform op).value.1.Tracks n before := by
  have hf := s.perform_frames hop
  exact ⟨⟨hf.circuit.trans h.circuit, by rw [hf.values, h.values], hf.pins.trans h.pins⟩,
    hf.clocks.trans h.clocks⟩

/-- The invariant holds of every state of a simulation. -/
theorem Reached.tracks (h : s.Reached n before) : s.Tracks n before := by
  induction h with
  | start ram =>
    refine ⟨⟨rfl, ?_, ?_⟩, ?_⟩
    · exact Array.size_replicate
    · exact Array.size_replicate
    · rfl
  | tick _ ih => exact ih.tick
  | reset _ ih => exact ih.reset
  | other _ hop ih => exact ih.other hop

/-- Several ticks are ticks one after another. -/
theorem Reached.run (h : s.Reached n before) (k : Nat) :
    ∃ before', (s.run k).value.Reached n before' := by
  -- the ticks go on from what was logged so far, so any log may come first
  have key : ∀ (k : Nat) (x : Logged Event Simulator) (before : Nat → Bool),
      x.value.Reached n before → ∃ before', (runAfter k x).value.Reached n before' := by
    intro k
    induction k with
    | zero => exact fun x before hx => ⟨before, hx⟩
    | succ k ih => exact fun x before hx => ih (x >>= step) _ hx.tick
  exact key k (pure s) before h

/-- Every run of operations ends in a state of the simulation. -/
theorem Reached.performAll (h : s.Reached n before) (ops : List Operation) :
    ∃ before', (s.performAll ops).value.1.Reached n before' := by
  induction ops generalizing s before with
  | nil => exact ⟨before, h⟩
  | cons op ops ih =>
    have hop : ∃ before', (s.perform op).value.1.Reached n before' := by
      cases hm : op.movesClocks with
      | false => exact ⟨before, h.other hm⟩
      | true =>
        cases op with
        | step => exact ⟨_, h.tick⟩
        | run k => exact h.run k
        | reset => exact ⟨_, h.reset⟩
        | _ => cases hm
    obtain ⟨before', hr⟩ := hop
    exact ih hr

/-- The bit stored in the flip-flop of a number. -/
def stored (n : Netlist) (s : Simulator) (id : Nat) : Bool := s.read (n.source (.node id))

/-- Settling takes a pass, or one and another to confirm. -/
theorem Fits.settled_passes (hfit : s.Fits n) (h : n.FeedbackFree) :
    s.settled.values = s.circuit.gates.foldl (Gate.fire s.pins) s.values ∧
      (s.settled.passes = some 1 ∨ s.settled.passes = some 2) := by
  have hperm := GateOrder.orderGates_perm n.gates
  refine settleWithin_inOrder ?_ ?_ (fun g hg => ?_) 98
  · rw [hfit.gates]; exact (hperm.map Gate.out).nodup_iff.2 n.nodup_gates
  · rw [hfit.gates]; exact h.inOrder
  · rw [hfit.gates, hperm.mem_iff] at hg
    obtain ⟨i, id, a, b, hi, rfl⟩ := Netlist.mem_gates.1 hg
    rw [hfit.values]
    exact (Array.getElem?_eq_some_iff.1 hi).1

/-- After settling every gate has the output that its inputs ask for. -/
theorem Fits.settled_nand (hfit : s.Fits n) (h : n.FeedbackFree) {i id : Nat} {a b : Bit}
    (hi : n.nodes[i]? = some ⟨id, .nand a b⟩) :
    s.settled.values.getD i false =
      !((n.source a).read s.settled.values s.pins && (n.source b).read s.settled.values s.pins) := by
  have hperm := GateOrder.orderGates_perm n.gates
  rw [(hfit.settled_passes h).1, hfit.gates]
  refine foldl_fire_holds ((hperm.map Gate.out).nodup_iff.2 n.nodup_gates) h.inOrder (fun g hg => ?_)
    ⟨i, n.source a, n.source b⟩ (hperm.mem_iff.2 (Netlist.mem_gates.2 ⟨i, id, a, b, hi, rfl⟩))
  obtain ⟨j, id', a', b', hj, rfl⟩ := Netlist.mem_gates.1 (hperm.mem_iff.1 hg)
  rw [hfit.values]
  exact (Array.getElem?_eq_some_iff.1 hj).1

/-- Settling leaves the bits of flip-flops alone, whether it comes to an end or not. -/
theorem settled_dff (hcircuit : s.circuit = (Circuit.ofNetlist n).value) {i id : Nat} {d clk : Bit}
    (hi : n.nodes[i]? = some ⟨id, .dff d clk⟩) :
    s.settled.values.getD i false = s.values.getD i false := by
  -- the place of a flip-flop is the place of no gate
  refine settleWithin_frame _ (fun hmem => ?_) _ _
  obtain ⟨g, hg, rfl⟩ := List.mem_map.1 hmem
  rw [hcircuit] at hg
  obtain ⟨j, id', a, b, hj, rfl⟩ :=
    Netlist.mem_gates.1 ((GateOrder.orderGates_perm n.gates).mem_iff.1 hg)
  rw [hj] at hi
  cases hi

/-- **Settling computes the recursive evaluation** of every bit. -/
theorem Fits.settled_read (hfit : s.Fits n) (h : n.FeedbackFree) (x : Bit) :
    (n.source x).read s.settled.values s.pins = n.comb h s.pins (s.stored n) x := by
  induction x using h.wellFounded.induction with
  | _ x ih =>
    cases x with
    | node id =>
      cases hc : n.cell? id with
      | none =>
        have hplace : n.place? id = none := by
          cases hp : n.place? id with
          | none => rfl
          | some i =>
            obtain ⟨c, hi⟩ := Netlist.place?_spec hp
            rw [Netlist.cell?_eq_some.2 ⟨i, hp, hi⟩] at hc
            cases hc
        rw [Netlist.source_node, hplace, Netlist.comb]
        split <;> simp_all [Source.read]
      | some c =>
        obtain ⟨i, hp, hi⟩ := Netlist.cell?_eq_some.1 hc
        have hread : n.source (.node id) = .node i := by rw [Netlist.source_node, hp]; rfl
        cases c with
        | nand a b =>
          rw [hread, Netlist.comb_nand h _ _ hc, ← ih a ⟨id, a, b, rfl, hc, .inl rfl⟩,
            ← ih b ⟨id, a, b, rfl, hc, .inr rfl⟩]
          exact hfit.settled_nand h hi
        | dff d clk =>
          rw [Netlist.comb_dff h _ _ hc, stored, read, hread]
          exact settled_dff hfit.circuit hi
    | input i => rw [Netlist.comb]; rfl
    | const v => rw [Netlist.comb]; rfl
    | forward k => rw [Netlist.comb]; rfl

/-- What a tick reports about settling is that it came to an end. -/
theorem unsettled_not_mem_step {k : Nat} (h : s.settled.passes = some k) (module : String) (passes : Nat) :
    Event.unsettled module passes ∉ s.step.log := by
  have hsettled : ({ s with ticks := s.ticks + 1 } : Simulator).settled.passes = some k := h
  have hsettle : ({ s with ticks := s.ticks + 1 } : Simulator).settle.log = #[.settled s.name k] := by
    rw [settle, hsettled]
    rfl
  -- the memory is served last, in some state that settling does not report on
  obtain ⟨t, ht⟩ : ∃ t : Simulator, s.step.log = #[.tick s.name (s.ticks + 1)] ++
      (({ s with ticks := s.ticks + 1 } : Simulator).settle.log ++ t.serviceBus.log) := ⟨_, rfl⟩
  rw [ht, hsettle]
  simp only [Array.mem_append, Array.mem_singleton, reduceCtorEq, false_or]
  unfold serviceBus
  split
  · simp
  · split
    · simp [Logged.note]
    · simp

/-- Gates after a tick. -/
theorem Tracks.step_nand (ht : s.Tracks n before) (h : n.FeedbackFree) {i id : Nat} {a b : Bit}
    (hi : n.nodes[i]? = some ⟨id, .nand a b⟩) :
    s.step.value.values.getD i false =
      !(n.comb h s.pins (s.stored n) a && n.comb h s.pins (s.stored n) b) := by
  rw [step_value, (frames_serviceBus _).values,
    capture_values _ before (by exact ht.toFits.flops ▸ ht.clocks),
    getD_foldl_capture_frame]
  · rw [← ht.toFits.settled_read h, ← ht.toFits.settled_read h]
    exact ht.toFits.settled_nand h hi
  · -- no capture writes to the place of a gate
    show i ∉ s.circuit.flops.map Flop.out
    rw [ht.toFits.flops]
    intro hmem
    obtain ⟨f, hf, rfl⟩ := List.mem_map.1 hmem
    obtain ⟨j, id', d, clk, hj, rfl⟩ := Netlist.mem_flops.1 hf
    rw [hj] at hi
    cases hi

/-- Flip-flops after a tick, whether the gates have settled or not. -/
theorem Tracks.step_flop (ht : s.Tracks n before) {i id : Nat} {d clk : Bit}
    (hi : n.nodes[i]? = some ⟨id, .dff d clk⟩) :
    s.step.value.values.getD i false =
      if !before i && (n.source clk).read s.settled.values s.pins then
        (n.source d).read s.settled.values s.pins
      else s.values.getD i false := by
  have hmem : (⟨i, n.source d, n.source clk⟩ : Flop) ∈ s.circuit.flops := by
    rw [ht.toFits.flops]; exact Netlist.mem_flops.2 ⟨i, id, d, clk, hi, rfl⟩
  have hsize : i < s.settled.values.size := by
    rw [settled, size_settleWithin, ht.values]; exact (Array.getElem?_eq_some_iff.1 hi).1
  rw [step_value, (frames_serviceBus _).values,
    capture_values _ before (by exact ht.toFits.flops ▸ ht.clocks), ← settled_dff ht.circuit hi]
  exact getD_foldl_capture (by rw [ht.toFits.flops]; exact n.nodup_flops) hmem hsize

/-- Flip-flops after a tick without feedback. -/
theorem Tracks.step_dff (ht : s.Tracks n before) (h : n.FeedbackFree) {i id : Nat} {d clk : Bit}
    (hi : n.nodes[i]? = some ⟨id, .dff d clk⟩) :
    s.step.value.values.getD i false =
      if n.comb h s.pins (s.stored n) clk && !before i then n.comb h s.pins (s.stored n) d
      else s.values.getD i false := by
  rw [ht.step_flop hi, ht.toFits.settled_read h, ht.toFits.settled_read h, Bool.and_comm]

theorem getD_replicate_false (size i : Nat) : (Array.replicate size false).getD i false = false := by
  rw [Array.getD_eq_getD_getElem?, Array.getElem?_replicate]
  split <;> rfl

/-- A reset clears the flip-flops, and settling after it leaves them so. -/
theorem Tracks.reset_flop (ht : s.Tracks n before) {i id : Nat} {d clk : Bit}
    (hi : n.nodes[i]? = some ⟨id, .dff d clk⟩) : s.reset.value.values.getD i false = false := by
  rw [reset_value, (frames_driveReadData _).values]
  have hsettled := settled_dff (s := { s with values := Array.replicate s.values.size false }) ht.circuit hi
  exact hsettled.trans (getD_replicate_false _ _)

/-- The state with other input bits. -/
def withPins (s : Simulator) (pins : Array Bool) : Simulator := { s with pins := pins }

theorem Tracks.withPins (ht : s.Tracks n before) {pins : Array Bool}
    (hpins : pins.size = n.inputWidth) : (s.withPins pins).Tracks n before :=
  ⟨⟨ht.circuit, ht.values, hpins⟩, ht.clocks⟩

theorem stored_of_place {id i : Nat} (h : n.place? id = some i) :
    s.stored n id = s.values.getD i false := by
  rw [stored, read, Netlist.source_node, h]
  rfl

/-- Stored bits are no input bits. -/
theorem stored_withPins (pins : Array Bool) (id : Nat) :
    (s.withPins pins).stored n id = s.stored n id := by
  rw [stored, stored, read, read, Netlist.source_node]
  cases n.place? id <;> rfl

/-- Two states hold the same bits and the same last clocks in flip-flops that are one node. -/
def SameFlops (n : Netlist) (s : Simulator) (before : Nat → Bool) (n' : Netlist) (s' : Simulator)
    (before' : Nat → Bool) (i i' : Nat) : Prop :=
  ∀ id d clk, n.nodes[i]? = some ⟨id, .dff d clk⟩ → n'.nodes[i']? = some ⟨id, .dff d clk⟩ →
    s'.values.getD i' false = s.values.getD i false ∧ before' i' = before i

/-- What a tick makes of a node depends on the numbered cells, the input bits and the flip-flops. -/
theorem Tracks.step_congr (ht : s.Tracks n before) (h : n.FeedbackFree) {n' : Netlist} {s' : Simulator}
    {before' : Nat → Bool} (ht' : s'.Tracks n' before') (hpins : s'.pins = s.pins)
    (hcell : ∀ id, n'.cell? id = n.cell? id)
    (hstored : ∀ id d clk, n.cell? id = some (.dff d clk) → s'.stored n' id = s.stored n id)
    {i i' : Nat} {node : Node} (hi : n.nodes[i]? = some node) (hi' : n'.nodes[i']? = some node)
    (hflops : SameFlops n s before n' s' before' i i') :
    s'.step.value.values.getD i' false = s.step.value.values.getD i false := by
  have h' : n'.FeedbackFree := h.congr hcell
  have hcomb : ∀ x, n'.comb h' s'.pins (s'.stored n') x = n.comb h s.pins (s.stored n) x := by
    rw [hpins]
    exact Netlist.comb_congr h h' s.pins hcell hstored
  obtain ⟨id, ⟨a, b⟩ | ⟨d, clk⟩⟩ := node
  · rw [ht.step_nand h hi, ht'.step_nand h' hi', hcomb, hcomb]
  · obtain ⟨hbit, hclock⟩ := hflops id d clk hi hi'
    rw [ht.step_dff h hi, ht'.step_dff h' hi', hcomb, hcomb, hbit, hclock]

/-- A tick makes equal states of states with equal flip-flops, whatever the gates held. -/
theorem Tracks.step_eq (ht : s.Tracks n before) (h : n.FeedbackFree) {s' : Simulator}
    {before' : Nat → Bool} (ht' : s'.Tracks n before') (hpins : s'.pins = s.pins)
    (hflops : ∀ i, SameFlops n s before n s' before' i i) (i : Nat) :
    s'.step.value.values.getD i false = s.step.value.values.getD i false := by
  cases hi : n.nodes[i]? with
  | some node =>
    refine ht.step_congr h ht' hpins (fun _ => rfl) (fun id d clk hc => ?_) hi hi (hflops i)
    obtain ⟨j, hj, hnode⟩ := Netlist.cell?_eq_some.1 hc
    rw [stored_of_place hj, stored_of_place hj]
    exact (hflops j id d clk hnode hnode).1
  | none =>
    -- no node is there, so either state reads its default
    have hsize := Array.getElem?_eq_none_iff.1 hi
    rw [Array.getD_eq_getD_getElem?, Array.getD_eq_getD_getElem?,
      Array.getElem?_eq_none (ht'.tick.values ▸ hsize), Array.getElem?_eq_none (ht.tick.values ▸ hsize)]

/-- A tick makes the same of a node wherever it stands, provided that the numbers of nodes differ. -/
theorem Tracks.step_perm (ht : s.Tracks n before) (h : n.FeedbackFree) {n' : Netlist} {s' : Simulator}
    {before' : Nat → Bool} (ht' : s'.Tracks n' before') (hpins : s'.pins = s.pins)
    (hperm : n'.nodes.toList.Perm n.nodes.toList) (hids : (n.nodes.toList.map Node.id).Nodup)
    (hflops : ∀ i i', SameFlops n s before n' s' before' i i') {i i' : Nat} {node : Node}
    (hi : n.nodes[i]? = some node) (hi' : n'.nodes[i']? = some node) :
    s'.step.value.values.getD i' false = s.step.value.values.getD i false := by
  have hcell := Netlist.cell?_perm hperm hids
  refine ht.step_congr h ht' hpins hcell (fun id d clk hc => ?_) hi hi' (hflops i i')
  -- the number stands for a place in either order
  obtain ⟨j, hj, hnode⟩ := Netlist.cell?_eq_some.1 hc
  obtain ⟨j', hj', hnode'⟩ := Netlist.cell?_eq_some.1 ((hcell id).trans hc)
  rw [stored_of_place hj, stored_of_place hj']
  exact (hflops j j' id d clk hnode hnode').1

/-- **A tick without feedback.** From any state of a simulation and with any input bits, settling comes
to an end within two passes and says so. After the tick every gate is the NAND of its inputs'
evaluations, and every flip-flop has captured the evaluation of its data if that of its clock is 1 and
its clock was 0 at the last tick; all evaluations are over the bits stored before the tick. So neither
what the gates held before matters, nor, if the numbers of nodes differ, their order. -/
theorem step_of_feedbackFree {n : Netlist} (h : n.FeedbackFree) {s : Simulator} {before : Nat → Bool}
    (hr : s.Reached n before) (pins : Array Bool) (hpins : pins.size = n.inputWidth) :
    (∃ k, k ≤ 2 ∧ (s.withPins pins).settled.passes = some k) ∧
    (∀ module passes, Event.unsettled module passes ∉ (s.withPins pins).step.log) ∧
    (∀ (i id : Nat) (a b : Bit), n.nodes[i]? = some ⟨id, .nand a b⟩ →
      (s.withPins pins).step.value.values.getD i false =
        !(n.comb h pins (s.stored n) a && n.comb h pins (s.stored n) b)) ∧
    (∀ (i id : Nat) (d clk : Bit), n.nodes[i]? = some ⟨id, .dff d clk⟩ →
      (s.withPins pins).step.value.values.getD i false =
        if n.comb h pins (s.stored n) clk && !before i then n.comb h pins (s.stored n) d
        else s.values.getD i false) ∧
    (∀ (s' : Simulator) (before' : Nat → Bool), s'.Reached n before' →
      (∀ i, SameFlops n s before n s' before' i i) → ∀ i,
      (s'.withPins pins).step.value.values.getD i false =
        (s.withPins pins).step.value.values.getD i false) ∧
    (∀ (n' : Netlist) (s' : Simulator) (before' : Nat → Bool), s'.Reached n' before' →
      n'.inputs = n.inputs → n'.nodes.toList.Perm n.nodes.toList →
      (n.nodes.toList.map Node.id).Nodup → (∀ i i', SameFlops n s before n' s' before' i i') →
      ∀ (i i' : Nat) (node : Node), n.nodes[i]? = some node → n'.nodes[i']? = some node →
      (s'.withPins pins).step.value.values.getD i' false =
        (s.withPins pins).step.value.values.getD i false) := by
  have ht := hr.tracks.withPins hpins
  have hstored : (s.withPins pins).stored n = s.stored n := funext fun id => stored_withPins pins id
  obtain ⟨k, hk, hpass⟩ : ∃ k, k ≤ 2 ∧ (s.withPins pins).settled.passes = some k := by
    rcases (ht.toFits.settled_passes h).2 with hp | hp
    · exact ⟨1, by omega, hp⟩
    · exact ⟨2, le_rfl, hp⟩
  refine ⟨⟨k, hk, hpass⟩, unsettled_not_mem_step hpass, fun i id a b hi => ?_, fun i id d clk hi => ?_,
    fun s' before' hr' hflops i => ?_, fun n' s' before' hr' hin hperm hids hflops i i' node hi hi' => ?_⟩
  · rw [← hstored]
    exact ht.step_nand h hi
  · rw [← hstored]
    exact ht.step_dff h hi
  · exact ht.step_eq h (hr'.tracks.withPins hpins) rfl hflops i
  · have hpins' : pins.size = n'.inputWidth := by
      rw [hpins, Netlist.inputWidth, Netlist.inputWidth, hin]
    exact ht.step_perm h (hr'.tracks.withPins hpins') rfl hperm hids hflops hi hi'

end Simulator

/-- Two gates listed against the direction of their wires, and a flip-flop that closes a loop. -/
def tangled : Netlist where
  name := "tangled"
  inputs := [⟨"a", 1⟩]
  outputs := []
  nodes := #[⟨7, .nand (.node 3) (.node 5)⟩, ⟨3, .nand (.input 0) (.node 5)⟩,
    ⟨5, .dff (.node 7) (.input 0)⟩]
  signals := .empty

theorem tangled_cell {id : Nat} {c : Cell} :
    tangled.cell? id = some c ↔ (id = 7 ∧ c = .nand (.node 3) (.node 5)) ∨
      (id = 3 ∧ c = .nand (.input 0) (.node 5)) ∨ (id = 5 ∧ c = .dff (.node 7) (.input 0)) := by
  rw [Netlist.cell?_eq_some_iff_mem (by decide)]
  simp [tangled]

theorem tangled_feedbackFree : tangled.FeedbackFree := by
  refine Netlist.feedbackFree_of_rank id fun k j hk => ?_
  obtain ⟨⟨c, d, hk⟩, a, b, hj, hab⟩ := hk
  rcases tangled_cell.1 hj with ⟨rfl, h⟩ | ⟨rfl, h⟩ | ⟨-, h⟩
  · cases h
    rcases tangled_cell.1 hk with ⟨rfl, -⟩ | ⟨rfl, -⟩ | ⟨-, h⟩
    · simp at hab
    · decide
    · cases h
  · cases h
    rcases tangled_cell.1 hk with ⟨rfl, -⟩ | ⟨rfl, -⟩ | ⟨-, h⟩
    · simp at hab
    · simp at hab
    · cases h
  · cases h

namespace Simulator

/-- The first tick of `tangled` with its input at 1: both gates go to 1, and the flip-flop takes the 1
that the tick computes for it. -/
theorem tangled_step :
    tangled.FeedbackFree ∧ #[true].size = tangled.inputWidth ∧
      (ofNetlist tangled (.zeros 1)).value.Reached tangled (fun _ => false) ∧
      (((ofNetlist tangled (.zeros 1)).value.withPins #[true]).step.value.values.getD 0 false = true ∧
        ((ofNetlist tangled (.zeros 1)).value.withPins #[true]).step.value.values.getD 2 false = true) := by
  have hr := Reached.start (n := tangled) (.zeros 1)
  obtain ⟨-, -, hnand, hdff, -⟩ := step_of_feedbackFree tangled_feedbackFree hr #[true] rfl
  have hstored : (ofNetlist tangled (.zeros 1)).value.stored tangled 5 = false := by decide
  have h5 := Netlist.comb_dff tangled_feedbackFree #[true]
    ((ofNetlist tangled (.zeros 1)).value.stored tangled) (tangled_cell.2 (.inr (.inr ⟨rfl, rfl⟩)))
  have h7 := Netlist.comb_nand tangled_feedbackFree #[true]
    ((ofNetlist tangled (.zeros 1)).value.stored tangled) (tangled_cell.2 (.inl ⟨rfl, rfl⟩))
  have hclk : tangled.comb tangled_feedbackFree #[true]
      ((ofNetlist tangled (.zeros 1)).value.stored tangled) (.input 0) = true := by
    rw [Netlist.comb]
    rfl
  refine ⟨tangled_feedbackFree, rfl, hr, ?_, ?_⟩
  · rw [hnand 0 7 _ _ rfl, h5, hstored, Bool.and_false, Bool.not_false]
  · rw [hdff 2 5 _ _ rfl, hclk, h7, h5, hstored, Bool.and_false]
    rfl

end Simulator

end NandHdl
