import NandHdl.Elaboration.Compile
import NandHdl.Proofs.Memory
import NandHdl.Proofs.Reset

/-!
# Two resets in a row

A reset settles the gates and only then puts the addressed byte on the read pin of an attached memory, for the
next tick. The gates see that byte when they settle again, so a second reset can differ from the first, but
only in what the gates make of the byte.

* `settleWithin_congr`: settling looks only at the input bits that gates read.
* `Bus.Unread`: neither the gates nor the address see the read pin at once.
* `reset_reset`: **the second reset does what the first would have done had the byte been on the pin before.**
* `reset_twice`: when two resets are one.
* `mirror_reset_twice`: a gate that reads the byte tells them apart.
-/

namespace NandHdl

/-! ## Input bits that gates read -/

section Settling

variable {pins pins' : Array Bool} {gates : List Gate}

/-- The gate reads the input bit. -/
def Gate.ReadsInput (g : Gate) (j : Nat) : Prop := g.a = .input j ∨ g.b = .input j

theorem Source.read_congr_pins {x : Source} (values : Array Bool)
    (h : ∀ j, x = .input j → pins.getD j false = pins'.getD j false) :
    x.read values pins = x.read values pins' := by
  cases x with
  | node i => rfl
  | input j => exact h j rfl
  | const b => rfl

/-- A gate's output depends on the input bits that it reads alone. -/
theorem Gate.output_congr_pins {g : Gate} (values : Array Bool)
    (h : ∀ j, g.ReadsInput j → pins.getD j false = pins'.getD j false) :
    g.output values pins = g.output values pins' := by
  rw [Gate.output, Gate.output, Source.read_congr_pins values fun j hj => h j (.inl hj),
    Source.read_congr_pins values fun j hj => h j (.inr hj)]

theorem passOver_congr (h : ∀ g ∈ gates, ∀ j, g.ReadsInput j → pins.getD j false = pins'.getD j false)
    (values : Array Bool) : passOver pins gates values = passOver pins' gates values := by
  unfold passOver
  refine List.foldl_ext _ _ _ fun s g hg => ?_
  simp only [Gate.output_congr_pins s.1 (h g hg)]

/-- **Settling** looks only at the input bits that gates read. -/
theorem settleWithin_congr (h : ∀ g ∈ gates, ∀ j, g.ReadsInput j → pins.getD j false = pins'.getD j false)
    (limit : Nat) (values : Array Bool) :
    settleWithin pins gates limit values = settleWithin pins' gates limit values := by
  induction limit generalizing values with
  | zero => rfl
  | succ limit ih => rw [settleWithin_succ, settleWithin_succ, passOver_congr h, ih]

end Settling

/-- Neither the address nor a gate of the circuit reads a bit of the read pin. A flip-flop may read it. -/
def Bus.Unread (b : Bus) (c : Circuit) : Prop :=
  ∀ j, b.readData.Covers j → Source.input j ∉ b.addr ∧ ∀ g ∈ c.gates, ¬ g.ReadsInput j

/-- Driving a pin with what is on it changes nothing. -/
theorem Pin.drive_of_shown {p : Pin} {pins : Array Bool} (h : p.offset + p.width ≤ pins.size) {value : Nat}
    (hshown : ∀ i < p.width, pins.getD (p.offset + i) false = (decide (i < wordBits) && value.testBit i)) :
    p.drive value pins = pins := by
  have hget : ∀ j, (p.drive value pins).getD j false = pins.getD j false := fun j => by
    rw [Pin.getD_drive h]
    split
    · next hj =>
      obtain ⟨hlo, hhi⟩ := hj
      rw [← hshown (j - p.offset) (by omega), Nat.add_sub_cancel' hlo]
    · rfl
  refine Array.ext (Pin.size_drive p value pins) fun j hj hj' => ?_
  have hbit := hget j
  rwa [Array.getD_eq_getD_getElem?, Array.getD_eq_getD_getElem?, Array.getElem?_eq_getElem hj,
    Array.getElem?_eq_getElem hj', Option.getD_some, Option.getD_some] at hbit

namespace Simulator

variable {n : Netlist} {s : Simulator} {before : Nat → Bool} {b : Bus}

/-! ## The second reset -/

/-- A reset up to the point where the read pin is driven: the gates have settled from the cleared state. -/
def quieted (s : Simulator) : Simulator := { s.cleared with values := s.cleared.settled.values }

theorem reset_eq (s : Simulator) : s.reset.value = s.quieted.driveReadData := rfl

/-- What a reset leaves is the settled state with its read pin driven. -/
theorem reset_eq_withPins (s : Simulator) : s.reset.value = s.quieted.withPins s.reset.value.pins :=
  driveReadData_eq s.quieted

/-- Clearing the state after a reset leaves nothing of it but the input bits. -/
theorem cleared_reset (s : Simulator) : s.reset.value.cleared = (s.withPins s.reset.value.pins).cleared := by
  have hsize : s.quieted.values.size = s.values.size := by
    show (settleWithin s.pins s.circuit.gates settleLimit (Array.replicate s.values.size false)).values.size = _
    rw [size_settleWithin, Array.size_replicate]
  have hclocks : (s.quieted.clocks.map fun _ => false) = s.clocks.map fun _ => false := List.map_map
  rw [reset_eq_withPins]
  show ({ s.quieted.withPins _ with
    values := Array.replicate s.quieted.values.size false
    clocks := s.quieted.clocks.map fun _ => false
    ticks := 0 } : Simulator) = _
  rw [hsize, hclocks]
  rfl

/-- **The second reset**, its reports included, is the first one of a state in which the byte that the first one
puts on the read pin is there already. -/
theorem reset_reset (s : Simulator) : s.reset.value.reset = (s.withPins s.reset.value.pins).reset :=
  reset_congr (cleared_reset s)

/-- Without a byte that is new on the read pin the second reset is the first. -/
theorem reset_reset_of_pins (h : s.reset.value.pins = s.pins) : s.reset.value.reset = s.reset := by
  rw [reset_reset, h]
  rfl

theorem pins_reset_of_no_bus (h : s.bus = none) : s.reset.value.pins = s.pins := by
  have hbus : s.quieted.bus = none := h
  rw [reset_eq, driveReadData, hbus]
  rfl

/-- What a reset keeps, whatever was asked before. -/
theorem Reached.reset_others (hr : s.Reached n before) {j : Nat}
    (hj : ∀ b, s.bus = some b → ¬ b.readData.Covers j) :
    s.reset.value.pins.getD j false = s.pins.getD j false := by
  cases hb : s.bus with
  | none => rw [pins_reset_of_no_bus hb]
  | some b =>
    have hbus : s.quieted.bus = some b := hb
    exact getD_driveReadData_of_not_covers hbus (hr.readData_le hb) (hj b hb)

/-! ## The byte on the read pin -/

/-- **The read pin shows the addressed byte** exactly if driving it changes nothing. -/
theorem Reached.driveReadData_eq_self_iff (hr : s.Reached n before) :
    s.driveReadData = s ↔ ∀ b, s.bus = some b → s.Shows b := by
  constructor
  · intro h b hb i hi
    rw [← getD_driveReadData hb (hr.readData_le hb) hi, h]
  · intro h
    cases hb : s.bus with
    | none => rw [driveReadData, hb]
    | some b =>
      have hshown : ∀ i < b.readData.width, s.pins.getD (b.readData.offset + i) false =
          (decide (i < wordBits) && (s.ram.read (s.value b.addr)).toNat.testBit i) := fun i hi => by
        rw [testBit_byte]
        exact h b hb i hi
      rw [driveReadData_of_bus hb, Pin.drive_of_shown (hr.readData_le hb) hshown]
      rfl

/-! ## Two resets -/

/-- **When two resets are one**: exactly if the gates settle alike with the byte that the first one puts on the
read pin, and the bus still addresses that byte. -/
theorem Reached.reset_reset_eq_iff (hr : s.Reached n before) :
    s.reset.value.reset.value = s.reset.value ↔
      (s.withPins s.reset.value.pins).cleared.settled.values = s.cleared.settled.values ∧
        ∀ b, s.bus = some b → s.reset.value.Shows b := by
  have hvalues : s.reset.value.values = s.cleared.settled.values := (frames_driveReadData s.quieted).values
  have hbus : s.reset.value.bus = s.bus := driveReadData_bus _
  have htwice : s.reset.value.reset.value = (s.withPins s.reset.value.pins).quieted.driveReadData := by
    rw [reset_reset, reset_eq]
  have hvalues' : s.reset.value.reset.value.values =
      (s.withPins s.reset.value.pins).cleared.settled.values := by
    rw [htwice]
    exact (frames_driveReadData _).values
  -- if the gates settle alike, the second reset drives the pin of the state after the first
  have hdrive : (s.withPins s.reset.value.pins).cleared.settled.values = s.cleared.settled.values →
      s.reset.value.reset.value = s.reset.value.driveReadData := fun halike => by
    have hquieted : (s.withPins s.reset.value.pins).quieted = s.reset.value := by
      rw [quieted, halike, reset_eq_withPins]
      rfl
    rw [htwice, hquieted]
  rw [← hbus, ← hr.reset.driveReadData_eq_self_iff]
  constructor
  · intro h
    have halike : (s.withPins s.reset.value.pins).cleared.settled.values = s.cleared.settled.values := by
      rw [← hvalues', ← hvalues, h]
    exact ⟨halike, (hdrive halike).symm.trans h⟩
  · rintro ⟨halike, hshown⟩
    exact (hdrive halike).trans hshown

/-- **A byte that no gate and no address reads** makes no difference to a second reset. -/
theorem Reached.reset_reset_of_unread (hr : s.Reached n before) (hb : s.bus = some b)
    (h : b.Unread s.circuit) : s.reset.value.reset.value = s.reset.value := by
  refine hr.reset_reset_eq_iff.2 ⟨?_, fun b' hb' => ?_⟩
  · refine congrArg Settled.values (settleWithin_congr (fun g hg j hj => ?_) settleLimit _)
    refine hr.reset_others fun b' hb' hcovers => ?_
    cases hb.symm.trans hb'
    exact (h j hcovers).2 g hg hj
  · cases hb.symm.trans hb'
    have hbus : s.quieted.driveReadData.bus = some b := (driveReadData_bus _).trans hb
    exact coherent_driveReadData (s := s.quieted) hr.reset b hbus fun j hj => (h j hj).1

/-- **A second reset**, for any netlist and whatever has been asked of it. It leaves all but the gates and the
read pin of an attached memory as the first one does. It does what the first one would have done had the byte
that the first one puts on the read pin been there before. It leaves the very state that the first one does
exactly if the gates settle alike with that byte and the bus still addresses it; so it is if no memory is
attached, if the byte was on the read pin before, or if neither a gate nor the address reads the pin. -/
theorem reset_twice (n : Netlist) (ram : Ram) (ops : List Operation) :
    let s := ((ofNetlist n ram).value.performAll ops).value.1
    let once := s.reset.value
    let twice := once.reset.value
    (twice.circuit = once.circuit ∧ twice.clocks = once.clocks ∧ twice.ticks = once.ticks ∧
      twice.ram = once.ram ∧ twice.bus = once.bus ∧
      ∀ j, (∀ b, s.bus = some b → ¬ b.readData.Covers j) →
        twice.pins.getD j false = once.pins.getD j false) ∧
    once.reset = (s.withPins once.pins).reset ∧
    (twice = once ↔ (s.withPins once.pins).cleared.settled.values = s.cleared.settled.values ∧
      ∀ b, s.bus = some b → once.Shows b) ∧
    (s.bus = none ∨ once.pins = s.pins ∨ (∃ b, s.bus = some b ∧ b.Unread s.circuit) → twice = once) := by
  intro s once twice
  obtain ⟨before, hr⟩ := (Reached.start (n := n) ram).performAll ops
  have hclocks : twice.clocks = once.clocks := by
    have htwice : twice.clocks = once.clocks.map fun _ => false := (frames_driveReadData once.quieted).clocks
    have honce : once.clocks = s.clocks.map fun _ => false := (frames_driveReadData s.quieted).clocks
    rw [htwice, honce, List.map_map]
    rfl
  have hticks : twice.ticks = once.ticks :=
    (frames_driveReadData once.quieted).ticks.trans (frames_driveReadData s.quieted).ticks.symm
  have hbus : once.bus = s.bus := driveReadData_bus s.quieted
  refine ⟨⟨driveReadData_circuit once.quieted, hclocks, hticks, driveReadData_ram once.quieted,
    driveReadData_bus once.quieted, fun j hj => ?_⟩, reset_reset s, hr.reset_reset_eq_iff, ?_⟩
  · exact hr.reset.reset_others fun b hb => hj b (hbus.symm.trans hb)
  · rintro (hnone | hpins | ⟨b, hb, hunread⟩)
    · exact congrArg Logged.value (reset_reset_of_pins (pins_reset_of_no_bus hnone))
    · exact congrArg Logged.value (reset_reset_of_pins hpins)
    · exact hr.reset_reset_of_unread hb hunread

end Simulator

/-- A flip-flop that captures what is read, behind it a gate that does not look at the read pin. -/
def fetch : Netlist where
  name := "fetch"
  inputs := [⟨"clk", 1⟩, ⟨"a", 1⟩, ⟨"d", 8⟩]
  outputs := [(⟨"q", 1⟩, ⟨#[.node 1]⟩)]
  nodes := #[⟨0, .dff (.input 2) (.input 0)⟩, ⟨1, .nand (.node 0) (.input 1)⟩]
  signals := NameTable.empty.insertAll [("a", ⟨#[.input 1]⟩)]

/-- A gate that reads the read pin. -/
def mirror : Module :=
  ⟨"mirror", [⟨"a", 1⟩, ⟨"d", 1⟩], [⟨"q", 1⟩],
    [⟨⟨"q", none⟩, .call "nand" [.identifier "d", .identifier "d"]⟩]⟩

/-- What it compiles to. -/
def mirrored : Netlist where
  name := "mirror"
  inputs := [⟨"a", 1⟩, ⟨"d", 1⟩]
  outputs := [(⟨"q", 1⟩, ⟨#[.node 0]⟩)]
  nodes := #[⟨0, .nand (.input 1) (.input 1)⟩]
  signals := NameTable.empty.insertAll [("a", ⟨#[.input 0]⟩), ("d", ⟨#[.input 1]⟩), ("q", ⟨#[.node 0]⟩)]

namespace Simulator

/-- The first reset of `fetch` puts a new byte on the read pin, the second one changes nothing. -/
theorem fetch_reset_twice :
    let ops : List Operation := [.loadImage #[0, 0x81], .attach ⟨"a", "a", "a", "d"⟩, .setInput "a" 1]
    let s := ((ofNetlist fetch (.zeros 2)).value.performAll ops).value.1
    (∃ b, s.bus = some b ∧ b.Unread s.circuit) ∧ s.reset.value.pins ≠ s.pins ∧
      s.reset.value.reset.value = s.reset.value := by
  intro ops s
  have hbus : s.bus = some ⟨[.input 1], [.input 1], [.input 1], ⟨2, 8⟩⟩ := by decide +kernel
  have hgates : s.circuit.gates = [⟨1, .node 0, .input 1⟩] := by decide +kernel
  have hunread : Bus.Unread ⟨[.input 1], [.input 1], [.input 1], ⟨2, 8⟩⟩ s.circuit := fun j hj => by
    obtain ⟨hlo, -⟩ : 2 ≤ j ∧ j < 10 := hj
    have hne : 1 ≠ j := by omega
    rw [hgates]
    simp [Gate.ReadsInput, hne, hne.symm]
  obtain ⟨-, -, -, hsame⟩ := reset_twice fetch (.zeros 2) ops
  exact ⟨⟨_, hbus, hunread⟩, by decide +kernel, hsame (.inr (.inr ⟨_, hbus, hunread⟩))⟩

/-- **Two resets are not one** where a gate reads the read pin. With the byte 1 at the address that has been set,
the first reset settles the gate while the pin is 0, and the second one while it is 1. -/
theorem mirror_reset_twice : (compile [mirror]).toOption = some ⟨[mirrored]⟩ ∧
    let ops : List Operation := [.loadImage #[0, 1], .attach ⟨"a", "a", "a", "d"⟩, .setInput "a" 1]
    let s := ((ofNetlist mirrored (.zeros 2)).value.performAll ops).value.1
    s.reset.value.output "q" = .ok 1 ∧ s.reset.value.reset.value.output "q" = .ok 0 ∧
      s.reset.value.reset.value ≠ s.reset.value := by
  refine ⟨by decide +kernel, ?_⟩
  intro ops s
  have honce : s.reset.value.output "q" = .ok 1 := by decide +kernel
  have htwice : s.reset.value.reset.value.output "q" = .ok 0 := by decide +kernel
  refine ⟨honce, htwice, fun h => ?_⟩
  rw [h, honce] at htwice
  cases htwice

end Simulator

end NandHdl
