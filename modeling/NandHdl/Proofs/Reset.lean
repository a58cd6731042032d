import NandHdl.Proofs.Effect

/-!
# Resets

A reset forgets everything but the input bits, the memory and its bus: what a simulation does from then on is
what a new one would do, whatever has happened before.

* `Simulator.afresh`: a simulation that has not run yet, with the input bits, memory and bus of another.
* `Tracks.cleared_eq`: clearing any state of a simulation gives the same as clearing a new one.
* `reset_eq_afresh`: a reset is that of a new simulation.
* `reset_erases_history`: **two simulations that agree on what a reset keeps cannot be told apart after it.**
-/

namespace NandHdl

namespace Simulator

variable {n : Netlist} {s t : Simulator} {before : Nat → Bool}

/-- A simulation of the netlist that has not run yet, with the input bits, the memory and the bus of another. -/
def afresh (n : Netlist) (s : Simulator) : Simulator :=
  { (ofNetlist n s.ram).value with
    pins := s.pins
    bus := s.bus }

/-- A reset, its reports included, starts from the cleared state. -/
theorem reset_congr (h : s.cleared = t.cleared) : s.reset = t.reset := by
  have key : ∀ u : Simulator, u.reset = do return (← u.cleared.settle).driveReadData := fun _ => rfl
  rw [key, key, h]

/-- **Clearing** a state of a simulation leaves no bit of a gate, of a flip-flop or of a clock behind. -/
theorem Tracks.cleared_eq (h : s.Tracks n before) : s.cleared = s.afresh n := by
  have hclocks : (s.clocks.map fun _ => false) = n.flops.map fun _ => false := by
    rw [h.clocks, List.map_map]
    rfl
  rw [cleared, hclocks, h.values, h.circuit]
  rfl

theorem cleared_afresh (n : Netlist) (s : Simulator) : (s.afresh n).cleared = s.afresh n := by
  have hvalues : Array.replicate (s.afresh n).values.size false = (s.afresh n).values := by
    show Array.replicate (Array.replicate n.nodes.size false).size false = Array.replicate n.nodes.size false
    rw [Array.size_replicate]
  have hclocks : ((s.afresh n).clocks.map fun _ => false) = (s.afresh n).clocks :=
    List.map_map
  rw [cleared, hvalues, hclocks]
  rfl

/-- **A reset is that of a new simulation** with the same input bits, memory and bus. -/
theorem reset_eq_afresh (hr : s.Reached n before) : s.reset = (s.afresh n).reset :=
  reset_congr (hr.tracks.cleared_eq.trans (cleared_afresh n s).symm)

/-- **A reset erases history.** Take two simulations of one netlist, each after operations of its own, gates that
hold bits by feedback or never settle and clocks that have been high included. If the input bits, the memories
and the buses are the same, then after a reset of both every sequence of operations has the same answers and
reports and leaves the same state. -/
theorem reset_erases_history (n : Netlist) (ram₁ ram₂ : Ram) (ops₁ ops₂ : List Operation) :
    let s₁ := ((ofNetlist n ram₁).value.performAll ops₁).value.1
    let s₂ := ((ofNetlist n ram₂).value.performAll ops₂).value.1
    s₁.pins = s₂.pins → s₁.ram = s₂.ram → s₁.bus = s₂.bus →
      ∀ ops, s₁.performAll (.reset :: ops) = s₂.performAll (.reset :: ops) := by
  intro s₁ s₂ hpins hram hbus ops
  obtain ⟨_, hr₁⟩ := (Reached.start (n := n) ram₁).performAll ops₁
  obtain ⟨_, hr₂⟩ := (Reached.start (n := n) ram₂).performAll ops₂
  have hafresh : s₁.afresh n = s₂.afresh n := by rw [afresh, afresh, hpins, hram, hbus]
  have hreset : s₁.reset = s₂.reset := by
    rw [reset_eq_afresh hr₁, reset_eq_afresh hr₂, hafresh]
  rw [performAll, performAll, perform, perform, hreset]

end Simulator

/-- A latch of two gates, a gate that feeds itself and never settles, and a flip-flop. -/
def restless : Netlist where
  name := "restless"
  inputs := [⟨"s", 1⟩, ⟨"r", 1⟩, ⟨"d", 1⟩, ⟨"clk", 1⟩]
  outputs := [(⟨"q", 1⟩, ⟨#[.node 0]⟩), (⟨"o", 1⟩, ⟨#[.node 2]⟩), (⟨"f", 1⟩, ⟨#[.node 3]⟩)]
  nodes := #[⟨0, .nand (.input 0) (.node 1)⟩, ⟨1, .nand (.input 1) (.node 0)⟩,
    ⟨2, .nand (.node 2) (.const true)⟩, ⟨3, .dff (.input 2) (.input 3)⟩]
  signals := .empty

namespace Simulator

/-- One simulation of `restless` has set its latch and has seen its clock high, the other has cleared the latch
and has made one tick less. After a reset both report the same and capture the same bit. -/
theorem restless_reset :
    let ops₁ : List Operation := [.setInput "r" 1, .setInput "d" 1, .setInput "clk" 1, .step, .step,
      .setInput "s" 1]
    let ops₂ : List Operation := [.setInput "s" 1, .step, .setInput "r" 1, .setInput "d" 1, .setInput "clk" 1]
    let s₁ := ((ofNetlist restless (.zeros 1)).value.performAll ops₁).value.1
    let s₂ := ((ofNetlist restless (.zeros 1)).value.performAll ops₂).value.1
    s₁.clocks ≠ s₂.clocks ∧ s₁.ticks ≠ s₂.ticks ∧
      s₁.pins = s₂.pins ∧ s₁.ram = s₂.ram ∧ s₁.bus = s₂.bus ∧
      s₁.performAll [.reset, .step, .output "f"] = s₂.performAll [.reset, .step, .output "f"] := by
  intro ops₁ ops₂ s₁ s₂
  have hpins : s₁.pins = s₂.pins := by decide +kernel
  have hram : s₁.ram = s₂.ram := rfl
  have hbus : s₁.bus = s₂.bus := by decide +kernel
  exact ⟨by decide +kernel, by decide +kernel, hpins, hram, hbus,
    reset_erases_history restless (.zeros 1) (.zeros 1) ops₁ ops₂ hpins hram hbus [.step, .output "f"]⟩

end Simulator

end NandHdl
