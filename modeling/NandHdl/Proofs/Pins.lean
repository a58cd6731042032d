import NandHdl.Proofs.Capture

/-!
# Pins

The input bits of a circuit belong to its ports, which lie one after another.

* `Pin.Covers`: the bits of a pin.
* `Pin.getD_drive`: what driving a pin does to each input bit.
* `Netlist.pins`: the pins of a netlist. `pin_le`, `pins_disjoint`: they lie within the input bits, and
  no two of them share one.
* `Tiles`, `tiles_pins`: **if the names of the ports differ, every input bit is that of exactly one pin.**
-/

namespace NandHdl

namespace Pin

/-- The bit is one of the pin's. -/
def Covers (p : Pin) (j : Nat) : Prop := p.offset ≤ j ∧ j < p.offset + p.width

instance (p : Pin) (j : Nat) : Decidable (p.Covers j) :=
  inferInstanceAs (Decidable (p.offset ≤ j ∧ j < p.offset + p.width))

theorem covers_mk {offset width j : Nat} :
    (⟨offset, width⟩ : Pin).Covers j ↔ offset ≤ j ∧ j < offset + width := .rfl

theorem drive_succ (offset width value : Nat) (pins : Array Bool) :
    drive ⟨offset, width + 1⟩ value pins =
      (drive ⟨offset, width⟩ value pins).setIfInBounds (offset + width)
        (width < wordBits && value.testBit width) := by
  rw [drive, List.range_succ, List.foldl_append]
  rfl

/-- **Driving a pin** gives its bits those of the word, 0 past the end of the word, and leaves all others
alone. -/
theorem getD_drive {p : Pin} {pins : Array Bool} (h : p.offset + p.width ≤ pins.size) (value j : Nat) :
    (p.drive value pins).getD j false =
      if p.Covers j then decide (j - p.offset < wordBits) && value.testBit (j - p.offset)
      else pins.getD j false := by
  obtain ⟨offset, width⟩ := p
  dsimp only at h ⊢
  induction width with
  | zero =>
    rw [if_neg fun hj => by rw [covers_mk] at hj; omega]
    rfl
  | succ width ih =>
    rw [drive_succ, getD_setIfInBounds, size_drive, ih (by omega)]
    by_cases hj : offset + width = j
    · -- the last bit of the pin
      subst hj
      rw [if_pos ⟨rfl, by omega⟩, if_pos (covers_mk.2 (by omega)), Nat.add_sub_cancel_left]
    · rw [if_neg fun hlast => hj hlast.1]
      exact if_congr (by rw [covers_mk, covers_mk]; omega) rfl rfl

/-- **Where the pin of a port lies**: behind those of the ports before it. -/
theorem mem_ofPorts {offset : Nat} {ps : List Port} {e : String × Pin} : e ∈ ofPorts offset ps ↔
    ∃ before p after, ps = before ++ p :: after ∧
      e = (p.name, ⟨offset + (before.map Port.width).sum, p.width⟩) := by
  induction ps generalizing offset with
  | nil => simp [ofPorts]
  | cons q ps ih =>
    rw [ofPorts, List.mem_cons, ih]
    constructor
    · rintro (rfl | ⟨before, p, after, rfl, rfl⟩)
      · exact ⟨[], q, ps, rfl, rfl⟩
      · exact ⟨q :: before, p, after, rfl, by rw [List.map_cons, List.sum_cons, Nat.add_assoc]⟩
    · rintro ⟨_ | ⟨r, before⟩, p, after, hps, rfl⟩
      · cases hps
        exact .inl rfl
      · cases hps
        exact .inr ⟨before, p, after, rfl, by rw [List.map_cons, List.sum_cons, Nat.add_assoc]⟩

theorem map_fst_ofPorts (offset : Nat) (ps : List Port) :
    (ofPorts offset ps).map Prod.fst = ps.map Port.name := by
  induction ps generalizing offset with
  | nil => rfl
  | cons p ps ih => rw [ofPorts, List.map_cons, List.map_cons, ih]

/-- A pin lies within the bits of its ports. -/
theorem le_of_mem_ofPorts {offset : Nat} {ps : List Port} {e : String × Pin} (h : e ∈ ofPorts offset ps) :
    offset ≤ e.2.offset ∧ e.2.offset + e.2.width ≤ offset + (ps.map Port.width).sum := by
  obtain ⟨before, p, after, rfl, rfl⟩ := mem_ofPorts.1 h
  simp only [List.map_append, List.map_cons, List.sum_append, List.sum_cons]
  omega

/-- No two pins share a bit. -/
theorem pairwise_ofPorts (offset : Nat) (ps : List Port) :
    (ofPorts offset ps).Pairwise fun d e => ∀ j, ¬ (d.2.Covers j ∧ e.2.Covers j) := by
  induction ps generalizing offset with
  | nil => exact .nil
  | cons p ps ih =>
    refine .cons (fun e he j hj => ?_) (ih _)
    -- the other pin starts where this one ends
    have hle := (le_of_mem_ofPorts he).1
    obtain ⟨hd, he⟩ := hj
    simp only [Covers] at hd he
    omega

/-- Every bit is one of a pin. -/
theorem exists_covers {offset : Nat} {ps : List Port} {j : Nat} (h : offset ≤ j)
    (hj : j < offset + (ps.map Port.width).sum) : ∃ e ∈ ofPorts offset ps, e.2.Covers j := by
  induction ps generalizing offset with
  | nil =>
    rw [List.map_nil, List.sum_nil] at hj
    omega
  | cons p ps ih =>
    rw [List.map_cons, List.sum_cons] at hj
    by_cases hp : j < offset + p.width
    · exact ⟨_, List.mem_cons_self, h, hp⟩
    · obtain ⟨e, he, hcovers⟩ := ih (by omega : offset + p.width ≤ j) (by omega)
      exact ⟨e, List.mem_cons_of_mem _ he, hcovers⟩

end Pin

namespace Netlist

variable {n : Netlist} {name name' : String} {p q : Pin}

variable (n) in
/-- The pins of the inputs. Of inputs with one name the last counts. -/
def pins : NameTable Pin := NameTable.empty.insertAll (Pin.ofPorts 0 n.inputs)

theorem inputs_ofNetlist (n : Netlist) : (Circuit.ofNetlist n).value.inputs = n.pins := rfl

theorem inputWidth_eq (n : Netlist) : n.inputWidth = (n.inputs.map Port.width).sum :=
  List.sum_eq_foldr.symm

/-- A pin is that of a port. -/
theorem mem_pins {e : String × Pin} (h : e ∈ n.pins.entries) : e ∈ Pin.ofPorts 0 n.inputs :=
  (NameTable.mem_insertAll h).resolve_right List.not_mem_nil

/-- Pins lie within the input bits. -/
theorem pin_le (h : n.pins.get? name = some p) : p.offset + p.width ≤ n.inputWidth := by
  have hle := (Pin.le_of_mem_ofPorts (mem_pins (NameTable.mem_of_get? h))).2
  rwa [Nat.zero_add, ← inputWidth_eq] at hle

/-- **Pins of different names share no bit.** -/
theorem pins_disjoint (hp : n.pins.get? name = some p) (hq : n.pins.get? name' = some q)
    (hne : name ≠ name') (j : Nat) : ¬ (p.Covers j ∧ q.Covers j) := by
  have hsymm : Std.Symm fun d e : String × Pin => ∀ j, ¬ (d.2.Covers j ∧ e.2.Covers j) :=
    ⟨fun d e h j hj => h j ⟨hj.2, hj.1⟩⟩
  have hpair := Pin.pairwise_ofPorts 0 n.inputs
  exact hpair.forall (mem_pins (NameTable.mem_of_get? hp)) (mem_pins (NameTable.mem_of_get? hq))
    (fun heq => hne (congrArg Prod.fst heq)) j

end Netlist

/-- The pins in a table are those of the ports, one after another from bit 0 on, and cut `width` bits up:
each of these bits, and no other, is one of exactly one pin. -/
structure Tiles (table : NameTable Pin) (ports : List Port) (width : Nat) : Prop where
  consecutive : ∀ before p after, ports = before ++ p :: after →
    table.get? p.name = some ⟨(before.map Port.width).sum, p.width⟩
  named : ∀ name p, table.get? name = some p → name ∈ ports.map Port.name
  covered : ∀ j, j < width ↔ ∃! name, ∃ p, table.get? name = some p ∧ p.Covers j

/-- **Every input bit is that of exactly one pin** if the names of the inputs differ. -/
theorem Netlist.tiles_pins {n : Netlist} (h : (n.inputs.map Port.name).Nodup) :
    Tiles n.pins n.inputs n.inputWidth := by
  have hnodup : ((Pin.ofPorts 0 n.inputs).map Prod.fst).Nodup := by rwa [Pin.map_fst_ofPorts]
  have hget : ∀ e ∈ Pin.ofPorts 0 n.inputs, n.pins.get? e.1 = some e.2 :=
    fun e he => NameTable.get?_insertAll_of_mem hnodup he
  refine ⟨fun before p after hports => ?_, fun name p hp => ?_, fun j => ⟨fun hj => ?_, ?_⟩⟩
  · have hp := hget _ (Pin.mem_ofPorts.2 ⟨before, p, after, hports, rfl⟩)
    rwa [Nat.zero_add] at hp
  · rw [← Pin.map_fst_ofPorts 0]
    exact List.mem_map_of_mem (mem_pins (NameTable.mem_of_get? hp))
  · rw [inputWidth_eq, ← Nat.zero_add (List.sum _)] at hj
    obtain ⟨e, he, hcovers⟩ := Pin.exists_covers (Nat.zero_le j) hj
    refine ⟨e.1, ⟨e.2, hget e he, hcovers⟩, ?_⟩
    rintro name ⟨q, hq, hcovers'⟩
    by_contra hne
    exact pins_disjoint hq (hget e he) hne j ⟨hcovers', hcovers⟩
  · rintro ⟨name, ⟨p, hp, hcovers⟩, -⟩
    exact Nat.lt_of_lt_of_le hcovers.2 (pin_le hp)

end NandHdl
