import NandHdl.Proofs.Effect

/-!
# Memory on a bus

A tick writes the memory that is attached, if its bus says so, and then shows the addressed byte on the read
pin. Every other operation that can change the byte or the address drives the pin as well.

* `Simulator.Serves`: what a tick does to the memory and to the input bits. `Reached.serves`
* `Bus.Clean`: the address does not depend directly on the byte read.
* `Simulator.Shows`, `Simulator.Coherent`: the read pin of a clean bus shows the addressed byte.
* `Simulator.Undisturbed`: operations that put nothing else on the read pin or on address bits.
* `coherent_perform`: one operation keeps the pin right.
* `memory_follows_bus`: **the memory and its read pin over whole runs.**
-/

namespace NandHdl

/-- A byte that is put at an address is found at all addresses that wrap to the same place. -/
theorem Ram.read_write (r : Ram) (addr addr' : Nat) (byte : UInt8) :
    (r.write addr byte).read addr' = if addr' % r.size = addr % r.size then byte else r.read addr' := by
  simp only [read, write, size, Array.size_set, Array.getElem_set, eq_comm]

/-- A byte has eight bits, which a word has room for. -/
theorem testBit_byte (byte : UInt8) (i : Nat) :
    (decide (i < wordBits) && byte.toNat.testBit i) = byte.toNat.testBit i := by
  by_cases hi : i < 8
  · rw [decide_eq_true (Nat.lt_trans hi (by decide : 8 < wordBits)), Bool.true_and]
  · have hlt : byte.toNat < 2 ^ i :=
      Nat.lt_of_lt_of_le byte.toNat_lt (Nat.pow_le_pow_right (by decide) (Nat.not_lt.1 hi))
    rw [Nat.testBit_lt_two_pow hlt, Bool.and_false]

/-- No bit of the read pin is one of the address wires. -/
def Bus.Clean (b : Bus) : Prop := ∀ j, b.readData.Covers j → Source.input j ∉ b.addr

namespace Simulator

variable {n : Netlist} {s t : Simulator} {before : Nat → Bool} {b : Bus}

/-! ## States of a simulation -/

theorem Reached.joined (hr : s.Reached n before) : s.Joined := by
  induction hr with
  | start ram => exact joined_start n ram
  | tick _ ih => exact ih.step
  | reset _ ih => exact ih.effect .reset
  | @other s _ _ op _ ih => exact ih.effect (s.effect_perform op)

theorem Reached.perform (hr : s.Reached n before) (op : Operation) :
    ∃ before', (s.perform op).value.1.Reached n before' := hr.performAll [op]

/-- The pins of a simulation are those of its netlist. -/
theorem Fits.inputs (h : s.Fits n) : s.circuit.inputs = n.pins := by rw [h.circuit, n.inputs_ofNetlist]

/-- The read pin lies within the input bits. -/
theorem Reached.readData_le (hr : s.Reached n before) (hb : s.bus = some b) :
    b.readData.offset + b.readData.width ≤ s.pins.size := by
  obtain ⟨names, hnames⟩ := hr.joined b hb
  rw [hr.tracks.pins]
  exact Netlist.pin_le (hr.tracks.toFits.inputs ▸ (busOf_ok hnames).2.2.2)

/-! ## The read pin -/

/-- The read pin shows the byte that the bus addresses: each of its bits is that of the byte, and 0 from the
eighth on. -/
def Shows (s : Simulator) (b : Bus) : Prop :=
  ∀ i < b.readData.width,
    s.pins.getD (b.readData.offset + i) false = (s.ram.read (s.value b.addr)).toNat.testBit i

/-- The read pin of an attached memory shows the addressed byte, provided that the bus is clean. -/
def Coherent (s : Simulator) : Prop := ∀ b, s.bus = some b → b.Clean → s.Shows b

/-- A number on a wire depends on the input bits in the wire alone. -/
theorem value_withPins {xs : List Source} {pins : Array Bool}
    (h : ∀ j, Source.input j ∈ xs → pins.getD j false = s.pins.getD j false) :
    (s.withPins pins).value xs = s.value xs := by
  rw [value, value]
  refine congrArg ofBits (List.map_congr_left fun x hx => ?_)
  have hmem : x ∈ xs := List.mem_of_mem_take hx
  cases x with
  | node i => rfl
  | input j => exact h j hmem
  | const v => rfl

/-- Driving the read pin shows the byte addressed before. -/
theorem getD_driveReadData (hb : s.bus = some b)
    (hle : b.readData.offset + b.readData.width ≤ s.pins.size) {i : Nat} (hi : i < b.readData.width) :
    s.driveReadData.pins.getD (b.readData.offset + i) false =
      (s.ram.read (s.value b.addr)).toNat.testBit i := by
  rw [driveReadData_of_bus hb]
  refine (Pin.getD_drive hle _ _).trans ?_
  rw [if_pos ⟨by omega, by omega⟩, Nat.add_sub_cancel_left, testBit_byte]

/-- Driving the read pin leaves all other input bits alone. -/
theorem getD_driveReadData_of_not_covers (hb : s.bus = some b)
    (hle : b.readData.offset + b.readData.width ≤ s.pins.size) {j : Nat} (hj : ¬ b.readData.Covers j) :
    s.driveReadData.pins.getD j false = s.pins.getD j false := by
  rw [driveReadData_of_bus hb]
  exact (Pin.getD_drive hle _ _).trans (if_neg hj)

/-- **Driving the read pin** of a clean bus does not move the address, so the byte shown is the one addressed. -/
theorem coherent_driveReadData (hr : s.driveReadData.Reached n before) : s.driveReadData.Coherent := by
  intro b hb hclean
  rw [driveReadData_bus] at hb
  have hle := hr.readData_le (b := b) (by rw [driveReadData_bus, hb])
  rw [driveReadData_of_bus hb] at hle
  replace hle : b.readData.offset + b.readData.width ≤ s.pins.size := by
    rwa [← Pin.size_drive b.readData (s.ram.read (s.value b.addr)).toNat s.pins]
  have haddr : s.driveReadData.value b.addr = s.value b.addr := by
    rw [driveReadData_of_bus hb]
    refine value_withPins fun j hj => (Pin.getD_drive hle _ _).trans (if_neg fun hcovers => ?_)
    exact hclean j hcovers hj
  intro i hi
  rw [getD_driveReadData hb hle hi, driveReadData_ram, haddr]

/-! ## Operations -/

/-- In this state the operation drives neither the read pin of the attached memory nor a bit of its address. -/
def Spares (s : Simulator) : Operation → Prop
  | .setInput name _ => ∀ b p, s.bus = some b → s.circuit.inputs.get? name = some p →
      ∀ j, p.Covers j → ¬ b.readData.Covers j ∧ Source.input j ∉ b.addr
  | _ => True

/-- All of the operations, performed one after another, spare the bus that is attached at the time. -/
def Undisturbed : Simulator → List Operation → Prop
  | _, [] => True
  | s, op :: ops => s.Spares op ∧ (s.perform op).value.1.Undisturbed ops

theorem Reached.coherent_step (hr : s.Reached n before) : s.step.value.Coherent := by
  have htick := hr.tick
  rw [step_eq] at htick ⊢
  exact coherent_driveReadData htick

/-- A pin that is driven apart from the read pin and the address leaves both as they were. -/
theorem Coherent.pin (hs : s.Coherent) (hr : s.Reached n before) {name : String} {value : Nat} {p : Pin}
    (hp : s.circuit.inputs.get? name = some p) (hspare : s.Spares (.setInput name value)) :
    (s.withPins (p.drive value s.pins)).Coherent := by
  intro b hb hclean
  have hle : p.offset + p.width ≤ s.pins.size := by
    rw [hr.tracks.pins]
    exact Netlist.pin_le (hr.tracks.toFits.inputs ▸ hp)
  have hfar : ∀ j, p.Covers j → ¬ b.readData.Covers j ∧ Source.input j ∉ b.addr := hspare b p hb hp
  have haddr : (s.withPins (p.drive value s.pins)).value b.addr = s.value b.addr :=
    value_withPins fun j hj => (Pin.getD_drive hle _ _).trans (if_neg fun hcovers => (hfar j hcovers).2 hj)
  intro i hi
  have hread : b.readData.Covers (b.readData.offset + i) := ⟨by omega, by omega⟩
  have hsame : (p.drive value s.pins).getD (b.readData.offset + i) false =
      s.pins.getD (b.readData.offset + i) false :=
    (Pin.getD_drive hle _ _).trans (if_neg fun hcovers => (hfar _ hcovers).1 hread)
  rw [haddr]
  exact hsame.trans (hs b hb hclean i hi)

/-- **One operation keeps the read pin right**, unless it drives the pin or the address itself. -/
theorem coherent_perform (hr : s.Reached n before) (hs : s.Coherent) {op : Operation} (hspare : s.Spares op) :
    (s.perform op).value.1.Coherent := by
  obtain ⟨before', hr'⟩ := hr.perform op
  have heffect := s.effect_perform op
  generalize (s.perform op).value.1 = t at hr' heffect ⊢
  cases heffect with
  | tick => exact hr.coherent_step
  | ticks k =>
    cases k with
    | zero => exact hs
    | succ k =>
      obtain ⟨_, hk⟩ := hr.run k
      rw [run_succ]
      exact hk.coherent_step
  | reset => exact coherent_driveReadData hr'
  | pin hp => exact hs.pin hr hp hspare
  | memory _ _ => exact coherent_driveReadData hr'
  | joined _ _ => exact coherent_driveReadData hr'
  | none => exact hs

theorem coherent_performAll (ops : List Operation) : ∀ {s : Simulator} {before : Nat → Bool},
    s.Reached n before → s.Coherent → s.Undisturbed ops → (s.performAll ops).value.1.Coherent := by
  induction ops with
  | nil => exact fun _ hs _ => hs
  | cons op ops ih =>
    intro s before hr hs hspare
    obtain ⟨_, hr'⟩ := hr.perform op
    exact ih hr' (coherent_perform hr hs hspare.1) hspare.2

/-- Only ticks and loads write the memory. -/
theorem ram_perform {op : Operation} (hop : op.writesRam = false) : (s.perform op).value.1.ram = s.ram := by
  have heffect := s.effect_perform op
  generalize (s.perform op).value.1 = t at heffect ⊢
  cases heffect with
  | tick => cases hop
  | ticks k => cases hop
  | reset => exact driveReadData_ram _
  | pin _ => rfl
  | memory hwrites _ => rw [hop] at hwrites; cases hwrites
  | joined _ _ => exact driveReadData_ram _
  | none => rfl

/-! ## One tick -/

/-- **What a tick does** to the memory and the input bits. The wires of the bus count as they are once the
flip-flops have captured: the addressed byte is replaced if the lowest bit that enables writing is 1, the read
pin shows the byte that is then there, and all else stays. -/
structure Serves (s : Simulator) (b : Bus) : Prop where
  size : s.step.value.ram.size = s.ram.size
  bytes : ∀ addr, s.step.value.ram.read addr =
    if (s.captured.value b.writeEnable).testBit 0 ∧ addr % s.ram.size = s.captured.value b.addr % s.ram.size then
      UInt8.ofNat (s.captured.value b.writeData)
    else s.ram.read addr
  shown : ∀ i < b.readData.width, s.step.value.pins.getD (b.readData.offset + i) false =
    (s.step.value.ram.read (s.captured.value b.addr)).toNat.testBit i
  others : ∀ j, ¬ b.readData.Covers j → s.step.value.pins.getD j false = s.pins.getD j false

theorem Reached.serves (hr : s.Reached n before) (hb : s.bus = some b) : s.Serves b := by
  have hbus : s.captured.bus = some b := hb
  have hle := hr.readData_le hb
  -- the memory is written first, which moves neither the wires of the bus nor the pins
  set t : Simulator := { s.captured with ram := s.captured.written } with ht
  have hstep : s.step.value = t.driveReadData := step_eq s
  have hram : s.step.value.ram = s.captured.written := by rw [hstep, driveReadData_ram]
  have hwritten := written_of_bus hbus
  refine ⟨?_, fun addr => ?_, fun i hi => ?_, fun j hj => ?_⟩
  · rw [hram, hwritten]
    split
    · exact Ram.size_write _ _ _
    · rfl
  · rw [hram, hwritten]
    by_cases henable : (s.captured.value b.writeEnable).testBit 0 = true
    · simp only [henable, true_and, if_true]
      exact Ram.read_write s.ram _ addr _
    · rw [if_neg henable, if_neg fun h => henable h.1]
      rfl
  · rw [hstep, getD_driveReadData (s := t) hbus hle hi, driveReadData_ram]
    rfl
  · rw [hstep]
    exact getD_driveReadData_of_not_covers (s := t) hbus hle hj

/-- **The memory over whole runs**, for any netlist and whatever has been asked of it. A tick with an attached
bus writes the addressed byte if it is enabled and then shows the byte that is addressed; no operation but ticks
and loads changes the memory; and from the moment a clean bus is attached the read pin shows the addressed
byte, for as long as nobody drives the pin or an address bit. -/
theorem memory_follows_bus (n : Netlist) (ram : Ram) (ops : List Operation) :
    let s := ((ofNetlist n ram).value.performAll ops).value.1
    (∀ b, s.bus = some b → s.Serves b) ∧
    (∀ op : Operation, op.writesRam = false → (s.perform op).value.1.ram = s.ram) ∧
    ∀ names x, s.attach names = .ok x → ∀ later, x.value.Undisturbed later →
      (x.value.performAll later).value.1.Coherent := by
  intro s
  obtain ⟨before, hr⟩ := (Reached.start (n := n) ram).performAll ops
  refine ⟨fun b hb => hr.serves hb, fun op hop => ram_perform hop, fun names x hx later hlater => ?_⟩
  have hattached : (s.perform (.attach names)).value.1 = x.value := by
    simp only [perform, hx]
    rfl
  obtain ⟨_, hr'⟩ := hr.perform (.attach names)
  rw [hattached] at hr'
  refine coherent_performAll later hr' ?_ hlater
  obtain ⟨e, h⟩ | ⟨bus, y, -, h, hy⟩ := s.attach_cases names
  · cases h.symm.trans hx
  · cases h.symm.trans hx
    rw [hy] at hr' ⊢
    exact coherent_driveReadData hr'

end Simulator

/-- A port to a memory. The address is captured when `clk` rises, and the read pin is wider than a byte. -/
def port : Netlist where
  name := "port"
  inputs := [⟨"clk", 1⟩, ⟨"a", 2⟩, ⟨"write_enable", 1⟩, ⟨"write_data", 8⟩, ⟨"read_data", 10⟩]
  outputs := [(⟨"addr", 2⟩, ⟨#[.node 0, .node 1]⟩)]
  nodes := #[⟨0, .dff (.input 1) (.input 0)⟩, ⟨1, .dff (.input 2) (.input 0)⟩]
  signals := NameTable.empty.insertAll
    [("write_enable", ⟨#[.input 3]⟩), ("write_data", .ofFn 8 fun i => .input (4 + i))]

/-- The wires that join a memory to `port`. -/
def portBus : Bus :=
  ⟨[.node 0, .node 1], [.input 3], (List.range 8).map fun i => .input (4 + i), ⟨12, 10⟩⟩

theorem portBus_clean : portBus.Clean := fun j _ h => by
  simp [portBus] at h

namespace Simulator

/-- A memory of three bytes on `port`. The tick that captures the address 3 writes byte 0, and the ten bits of
the read pin show it in the same tick. -/
theorem port_served :
    let s := (ofNetlist port (.zeros 3)).value
    let ops : List Operation := [.attach {}, .setInput "a" 3, .setInput "clk" 1, .setInput "write_enable" 1,
      .setInput "write_data" 0x142]
    let later : List Operation := [.setInput "a" 3, .step]
    ((s.performAll ops).value.1.bus = some portBus ∧
      (s.performAll ops).value.1.step.value.ram.read 0 = 0x42 ∧
      ∀ i < 10, (s.performAll ops).value.1.step.value.pins.getD (12 + i) false = Nat.testBit 0x42 i) ∧
    Operation.writesRam .reset = false ∧ (s.perform .reset).value.1.ram = s.ram ∧
    ∃ x, s.attach {} = .ok x ∧ (x.value.bus = some portBus ∧ portBus.Clean) ∧ x.value.Undisturbed later ∧
      (x.value.performAll later).value.1.Coherent := by
  intro s ops later
  have hbus : (s.performAll ops).value.1.bus = some portBus := by decide +kernel
  obtain ⟨hserves, -, -⟩ := memory_follows_bus port (.zeros 3) ops
  obtain ⟨-, hkept, hcoherent⟩ := memory_follows_bus port (.zeros 3) []
  obtain ⟨-, hbytes, hshown, -⟩ := hserves portBus hbus
  have haddr : (s.performAll ops).value.1.captured.value portBus.addr = 3 := by decide +kernel
  have hread : (s.performAll ops).value.1.step.value.ram.read 0 = 0x42 :=
    (hbytes 0).trans (by decide +kernel)
  have hread' : (s.performAll ops).value.1.step.value.ram.read 3 = 0x42 :=
    (hbytes 3).trans (by decide +kernel)
  refine ⟨⟨hbus, hread, fun i hi => ?_⟩, rfl, hkept .reset rfl, ?_⟩
  · refine (hshown i hi).trans ?_
    rw [haddr, hread']
    rfl
  · have hjoins : s.busOf {} = .ok portBus := by decide +kernel
    obtain ⟨e, h⟩ | ⟨bus, x, hbus, h, hx⟩ := s.attach_cases {}
    · have hok : (s.attach {}).toBool = true := by decide +kernel
      rw [h] at hok
      cases hok
    · cases hjoins.symm.trans hbus
      have hlater : x.value.Undisturbed later := by
        refine ⟨fun b p hb hp j hj => ?_, trivial, trivial⟩
        rw [hx, driveReadData_bus] at hb
        rw [hx, driveReadData_circuit] at hp
        cases hb
        refine ⟨fun hread => ?_, by simp [portBus]⟩
        exact Netlist.pins_disjoint (n := port) hp (by decide +kernel) (by decide : "a" ≠ "read_data") j
          ⟨hj, hread⟩
      have hjoined : x.value.bus = some portBus := by rw [hx, driveReadData_bus]
      exact ⟨x, h, ⟨hjoined, portBus_clean⟩, hlater, hcoherent {} x h later hlater⟩

end Simulator

end NandHdl
