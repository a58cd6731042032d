import NandHdl.Proofs.Build
import NandHdl.Proofs.Chase

/-!
# Nodes under other numbers

Slots do not depend on the numbers of the nodes: which slot leads where, and whether all are open, is the
same when the nodes have other numbers.

* `Bit.rename`, `Node.rename`: other numbers for the nodes.
* `chase_rename`, `chaseAll_rename`, `resolve_rename`: what slots stand for, under other numbers.
-/

namespace NandHdl

/-- The bit with another number for its node. -/
def Bit.rename (g : Nat → Nat) : Bit → Bit
  | .node n => .node (g n)
  | b => b

/-- The node with other numbers. -/
def Node.rename (g : Nat → Nat) (n : Node) : Node := ⟨g n.id, n.cell.map (Bit.rename g)⟩

variable {g h : Nat → Nat}

@[simp] theorem Bit.rename_const (v : Bool) : (Bit.const v).rename g = .const v := rfl

@[simp] theorem Bit.rename_forward (n : Nat) : (Bit.forward n).rename g = .forward n := rfl

theorem Bit.rename_self (b : Bit) : (b.rename fun n => n) = b := by
  cases b <;> rfl

theorem Bit.rename_rename (b : Bit) : (b.rename g).rename h = b.rename fun n => h (g n) := by
  cases b <;> rfl

theorem Node.rename_self (n : Node) : (n.rename fun i => i) = n := by
  obtain ⟨_, cell⟩ := n
  cases cell <;> simp only [Node.rename, Cell.map, Bit.rename_self]

theorem Node.rename_rename (n : Node) : (n.rename g).rename h = n.rename fun i => h (g i) := by
  rw [Node.rename, Node.rename, Cell.map_map]
  simp only [Bit.rename_rename, Node.rename]

theorem Wire.map_rename_self (w : Wire) : w.map (Bit.rename fun n => n) = w := by
  rw [Wire.map, funext Bit.rename_self, Array.map_id']

/-! ## Slots -/

theorem slotBelow_rename (limit : Nat) (b : Bit) : (b.rename g).slotBelow limit = b.slotBelow limit := by
  cases b <;> rfl

theorem Wire.slotsBelow_rename (limit : Nat) (w : Wire) :
    (w.map (Bit.rename g)).slotsBelow limit = w.slotsBelow limit := by
  simp only [Wire.slotsBelow, Wire.map, Array.all_map, Function.comp_def, slotBelow_rename]

theorem Cell.slotsBelow_rename (limit : Nat) (c : Cell) :
    (c.map (Bit.rename g)).slotsBelow limit = c.slotsBelow limit := by
  simp only [Cell.slotsBelow, Cell.inputs_map, List.all_map, Function.comp_def, slotBelow_rename]

/-- Chains are the same under other numbers. -/
theorem chase_rename (g : Nat → Nat) (base : Nat) (direct : Array Bit) : ∀ fuel b,
    chase base (direct.map (Bit.rename g)) fuel (b.rename g) =
      (chase base direct fuel b).map (Bit.rename g) := by
  intro fuel
  induction fuel with
  | zero =>
    intro b
    rcases slot_or_below base b with ⟨n, hn, rfl⟩ | hb
    · rw [Bit.rename_forward, chase_zero hn, chase_zero hn]
      rfl
    · rw [chase_end hb, chase_end ((slotBelow_rename base b).trans hb)]
      rfl
  | succ fuel ih =>
    intro b
    rcases slot_or_below base b with ⟨n, hn, rfl⟩ | hb
    · have hget : (direct.map (Bit.rename g)).getD (n - base) (.const false) =
          (direct.getD (n - base) (.const false)).rename g := by
        rw [Array.getD_eq_getD_getElem?, Array.getD_eq_getD_getElem?, Array.getElem?_map]
        cases direct[n - base]? <;> rfl
      rw [Bit.rename_forward, chase_succ hn, chase_succ hn, hget, ih]
    · rw [chase_end hb, chase_end ((slotBelow_rename base b).trans hb)]
      rfl

theorem chaseAll_rename (g : Nat → Nat) (base : Nat) (direct : Array Bit) :
    chaseAll base (direct.map (Bit.rename g)) = (chaseAll base direct).map (Option.map (Bit.rename g)) := by
  simp only [chaseAll, Array.map_map, Array.size_map, Function.comp_def, chase_rename]

theorem resolve_rename (g : Nat → Nat) (base : Nat) (ends : Array (Option Bit)) (b : Bit) :
    (b.rename g).resolve base (ends.map (Option.map (Bit.rename g))) = (b.resolve base ends).rename g := by
  cases b with
  | forward n =>
    rw [Bit.rename_forward, Bit.resolve, Bit.resolve]
    split
    · rfl
    · rw [Array.getD_eq_getD_getElem?, Array.getD_eq_getD_getElem?, Array.getElem?_map]
      rcases ends[n - base]? with _ | _ | b <;> rfl
  | _ => rfl

end NandHdl
