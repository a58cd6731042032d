import NandHdl.Proofs.Pins

/-!
# What operations do

Whatever is asked of a simulation, few things can happen to its state, and most of them end with the read
pin of an attached memory being driven.

* `Simulator.captured`, `Simulator.written`: the state of a tick before its memory is served, and the memory
  that it is served with.
* `Simulator.cleared`: the state of a reset before its gates settle.
* `Simulator.Effect`, `effect_perform`: the ways in which an operation can change a state.
* `kept_run`, `kept_performAll`: **what one tick or operation keeps is kept over whole runs.**
* `Simulator.Joined`: the attached bus is one that the circuit offers.
-/

namespace NandHdl

/-- What an operation does to the memory: ticks and the two kinds of loads may write it. -/
def Operation.writesRam : Operation → Bool
  | .step | .run _ | .loadImage _ | .writeRam _ _ => true
  | _ => false

theorem Ram.value_load (r : Ram) (image : Array UInt8) : (r.load image).value = r.overwrite image := by
  unfold load
  split <;> rfl

namespace Simulator

variable {s t : Simulator} {op : Operation} {b : Bus}

/-- Driving the read pin changes input bits only. -/
theorem driveReadData_eq (s : Simulator) : s.driveReadData = s.withPins s.driveReadData.pins := by
  unfold driveReadData
  split <;> rfl

@[simp] theorem driveReadData_circuit (s : Simulator) : s.driveReadData.circuit = s.circuit := by
  rw [driveReadData_eq]
  rfl

@[simp] theorem driveReadData_ram (s : Simulator) : s.driveReadData.ram = s.ram := by
  rw [driveReadData_eq]
  rfl

@[simp] theorem driveReadData_bus (s : Simulator) : s.driveReadData.bus = s.bus := by
  rw [driveReadData_eq]
  rfl

theorem driveReadData_of_bus (hb : s.bus = some b) :
    s.driveReadData = s.withPins (b.readData.drive (s.ram.read (s.value b.addr)).toNat s.pins) := by
  unfold driveReadData
  split
  · next hnone => cases hb.symm.trans hnone
  · next hsome =>
    cases hb.symm.trans hsome
    rfl

/-- A tick up to the point where its memory is served: the gates have been evaluated and the flip-flops have
captured. -/
def captured (s : Simulator) : Simulator :=
  ({ s with ticks := s.ticks + 1, values := s.settled.values } : Simulator).capture

/-- The memory after it has been served: the addressed byte is replaced if the bus enables writing. -/
def written (s : Simulator) : Ram :=
  match s.bus with
  | none => s.ram
  | some b =>
    if (s.value b.writeEnable).testBit 0 then
      s.ram.write (s.value b.addr) (UInt8.ofNat (s.value b.writeData))
    else s.ram

theorem written_of_bus (hb : s.bus = some b) : s.written =
    if (s.value b.writeEnable).testBit 0 then s.ram.write (s.value b.addr) (UInt8.ofNat (s.value b.writeData))
    else s.ram := by
  rw [written, hb]

/-- A reset up to the point where the gates settle: no flip-flop holds a bit, and no clock has been seen. -/
def cleared (s : Simulator) : Simulator :=
  { s with
    values := Array.replicate s.values.size false
    clocks := s.clocks.map fun _ => false
    ticks := 0 }

theorem serviceBus_eq (s : Simulator) :
    s.serviceBus.value = ({ s with ram := s.written } : Simulator).driveReadData := by
  obtain ⟨c, values, pins, clocks, ticks, ram, _ | b⟩ := s
  · rfl
  · simp only [serviceBus, written]
    split <;> rfl

/-- **A tick** ends by serving the memory. -/
theorem step_eq (s : Simulator) :
    s.step.value = ({ s.captured with ram := s.captured.written } : Simulator).driveReadData :=
  serviceBus_eq s.captured

/-- **An operation and the state it leaves.** One that is refused or only looks leaves the state as it was. -/
inductive Effect (s : Simulator) : Operation → Simulator → Prop
  | tick : Effect s .step s.step.value
  | ticks (k : Nat) : Effect s (.run k) (s.run k).value
  | reset : Effect s .reset s.reset.value
  | pin {name : String} {value : Nat} {p : Pin} (h : s.circuit.inputs.get? name = some p) :
      Effect s (.setInput name value) { s with pins := p.drive value s.pins }
  | memory {op : Operation} {ram : Ram} (hop : op.writesRam = true) (hsize : ram.size = s.ram.size) :
      Effect s op ({ s with ram := ram } : Simulator).driveReadData
  | joined {op : Operation} {names : BusNames} {bus : Bus} (hop : op = .attach names ∨ op = .attachDefault)
      (h : s.busOf names = .ok bus) : Effect s op ({ s with bus := some bus } : Simulator).driveReadData
  | none (op : Operation) : Effect s op s

/-- Joining the memory fails, or drives the read pin of a bus that the circuit offers. -/
theorem attach_cases (s : Simulator) (names : BusNames) :
    (∃ e, s.attach names = .error e) ∨ ∃ bus x, s.busOf names = .ok bus ∧ s.attach names = .ok x ∧
      x.value = ({ s with bus := some bus } : Simulator).driveReadData := by
  unfold attach
  cases hb : s.busOf names with
  | error e => exact .inl ⟨e, rfl⟩
  | ok bus => exact .inr ⟨bus, _, rfl, rfl, rfl⟩

/-- **Every operation has one of these effects.** -/
theorem effect_perform (s : Simulator) (op : Operation) : s.Effect op (s.perform op).value.1 := by
  cases op with
  | setInput name value =>
    simp only [perform, setInput]
    cases hp : s.circuit.inputs.get? name with
    | none => exact .none _
    | some p => exact .pin hp
  | step => exact .tick
  | run k => exact .ticks k
  | reset => exact .reset
  | loadImage image =>
    refine .memory rfl ?_
    rw [Ram.value_load, Ram.size_overwrite]
  | writeRam addr byte => exact .memory rfl (Ram.size_write s.ram addr byte)
  | attach names =>
    simp only [perform]
    rcases s.attach_cases names with ⟨e, h⟩ | ⟨bus, x, hbus, h, hx⟩
    · rw [h]
      exact .none _
    · rw [h]
      have hjoined : s.Effect (.attach names) _ := .joined (.inl rfl) hbus
      rwa [← hx] at hjoined
  | attachDefault =>
    simp only [perform, attachDefault]
    rcases s.attach_cases {} with ⟨e, h⟩ | ⟨bus, x, hbus, h, hx⟩
    · rw [h]
      exact .none _
    · rw [h]
      have hjoined : s.Effect .attachDefault _ := .joined (.inr rfl) hbus
      rwa [← hx] at hjoined
  | _ => exact .none _

/-! ## What is kept -/

theorem kept_run {P : Simulator → Prop} (hstep : ∀ s, P s → P s.step.value) (k : Nat) (h : P s) :
    P (s.run k).value := by
  induction k with
  | zero => exact h
  | succ k ih =>
    rw [run_succ]
    exact hstep _ ih

/-- What every operation keeps is kept over whole runs. -/
theorem kept_performAll {P : Simulator → Prop} (hop : ∀ s op, P s → P (s.perform op).value.1)
    (ops : List Operation) (h : P s) : P (s.performAll ops).value.1 := by
  induction ops generalizing s with
  | nil => exact h
  | cons op ops ih => exact ih (hop s op h)

/-- The attached bus is one that the circuit offers. -/
def Joined (s : Simulator) : Prop := ∀ b, s.bus = some b → ∃ names, s.busOf names = .ok b

/-- Which buses there are is a matter of the circuit. -/
theorem busOf_congr (h : t.circuit = s.circuit) (names : BusNames) : t.busOf names = s.busOf names := by
  simp only [busOf, busSources, h]

/-- The wires of a bus are outputs or named signals, and its read pin is an input. -/
theorem busOf_ok {names : BusNames} {b : Bus} (h : s.busOf names = .ok b) :
    s.busSources names.addr = .ok b.addr ∧ s.busSources names.writeEnable = .ok b.writeEnable ∧
      s.busSources names.writeData = .ok b.writeData ∧ s.circuit.inputs.get? names.readData = some b.readData := by
  unfold busOf at h
  cases ha : s.busSources names.addr with
  | error e => rw [ha] at h; cases h
  | ok a =>
    cases he : s.busSources names.writeEnable with
    | error e => rw [ha, he] at h; cases h
    | ok e =>
      cases hd : s.busSources names.writeData with
      | error e => rw [ha, he, hd] at h; cases h
      | ok d =>
        rw [ha, he, hd] at h
        cases hp : s.circuit.inputs.get? names.readData with
        | none => rw [hp] at h; cases h
        | some p => rw [hp] at h; cases h; exact ⟨rfl, rfl, rfl, rfl⟩

theorem Joined.congr (hs : s.Joined) (hcircuit : t.circuit = s.circuit) (hbus : t.bus = s.bus) :
    t.Joined := by
  intro b hb
  obtain ⟨names, hnames⟩ := hs b (hbus ▸ hb)
  exact ⟨names, (busOf_congr hcircuit names).trans hnames⟩

theorem Joined.step (hs : s.Joined) : s.step.value.Joined := by
  rw [step_eq]
  exact hs.congr (driveReadData_circuit _) (driveReadData_bus _)

theorem Joined.effect (hs : s.Joined) (h : s.Effect op t) : t.Joined := by
  cases h with
  | tick => exact hs.step
  | ticks k => exact kept_run (fun _ => Joined.step) k hs
  | reset => exact hs.congr (driveReadData_circuit _) (driveReadData_bus _)
  | pin _ => exact hs
  | memory _ _ => exact hs.congr (driveReadData_circuit _) (driveReadData_bus _)
  | @joined _ names bus _ h =>
    intro b hb
    rw [driveReadData_bus] at hb
    cases hb
    exact ⟨names, (busOf_congr (driveReadData_circuit _) names).trans h⟩
  | none => exact hs

theorem joined_start (n : Netlist) (ram : Ram) : (ofNetlist n ram).value.Joined := nofun

end Simulator

end NandHdl
