import NandHdl.Proofs.Chase

/-!
# Chains are followed to their end

A chain of slots is cut off after a number of steps, and not where it comes back to a slot that it has passed. That
number is larger than any chain that ends can be long, since a chain that ends passes no slot twice.

* `ComesTo`: the end of a chain, said without counting steps.
* `ComesTo.isSome_of_stable`: once a step of fuel finds no new end, all chains that end have been found.
* `ComesTo.chase`: **no chain that ends is longer than there are slots.**
* `comesTo_of_chase`: what is found is the end of the chain.
* `chains_are_followed`: **every slot gives way to the end of its chain**, and to 0 if it has none.
-/

namespace NandHdl

/-- A bit comes to `c`, which is no slot from `base` on, through slots that are numbered from there. Each of them
stands for a bit of what its name is bound to in the end. -/
inductive ComesTo (scope : Scope Signal) (base : Nat) (slots : Array ForwardSlot) : Bit → Bit → Prop
  | here {c : Bit} (h : ∀ n, c = .forward n → n < base) : ComesTo scope base slots c c
  | next {i : Nat} {slot : ForwardSlot} {c : Bit} (hslot : slots[i]? = some slot)
    (h : ComesTo scope base slots (finalBit scope slot) c) : ComesTo scope base slots (.forward (base + i)) c

theorem Bit.slotBelow_iff {limit : Nat} {b : Bit} : b.slotBelow limit ↔ ∀ n, b = .forward n → n < limit := by
  cases b with
  | forward n =>
    refine ⟨fun h m heq => ?_, fun h => decide_eq_true (h n rfl)⟩
    cases heq
    exact of_decide_eq_true h
  | _ => exact ⟨fun _ _ => nofun, fun _ => rfl⟩

section Chains

variable {scope : Scope Signal} {base fuel : Nat} {slots : Array ForwardSlot} {b c d : Bit}

/-- What a slot that is open stands for. -/
theorem getD_finalBits {i : Nat} {slot : ForwardSlot} (hslot : slots[i]? = some slot) :
    (slots.map (finalBit scope)).getD i (.const false) = finalBit scope slot := by
  rw [Array.getD_eq_getD_getElem?, Array.getElem?_map, hslot]
  rfl

/-- One step from an open slot on. -/
theorem chase_next {i : Nat} {slot : ForwardSlot} (hslot : slots[i]? = some slot) :
    chase base (slots.map (finalBit scope)) (fuel + 1) (.forward (base + i)) =
      chase base (slots.map (finalBit scope)) fuel (finalBit scope slot) := by
  rw [chase_succ (Nat.le_add_right base i), Nat.add_sub_cancel_left, getD_finalBits hslot]

/-- What is found on a chain that ends is its end. -/
theorem ComesTo.eq_of_chase (h : ComesTo scope base slots b c)
    (hchase : chase base (slots.map (finalBit scope)) fuel b = some d) : d = c := by
  induction h generalizing fuel with
  | here h =>
    rw [chase_end (Bit.slotBelow_iff.2 h), Option.some.injEq] at hchase
    exact hchase.symm
  | @next i slot c hslot _ ih =>
    cases fuel with
    | zero =>
      rw [chase_zero (Nat.le_add_right base i)] at hchase
      cases hchase
    | succ fuel =>
      rw [chase_next hslot] at hchase
      exact ih hchase

/-- Once a step of fuel finds no new end, all chains that end have been found. -/
theorem ComesTo.isSome_of_stable (h : ComesTo scope base slots b c)
    (hstable : endingWithin base (slots.map (finalBit scope)) fuel =
      endingWithin base (slots.map (finalBit scope)) (fuel + 1)) :
    (chase base (slots.map (finalBit scope)) fuel b).isSome := by
  induction h with
  | here h =>
    rw [chase_end (Bit.slotBelow_iff.2 h)]
    rfl
  | @next i slot c hslot _ ih =>
    -- the chain from the next slot on is found, so this one is found a step later, and that is no later
    have hi : i < (slots.map (finalBit scope)).size := by
      rw [Array.size_map]
      exact (Array.getElem?_eq_some_iff.1 hslot).1
    have hlater : i ∈ endingWithin base (slots.map (finalBit scope)) (fuel + 1) := by
      rw [mem_endingWithin, chase_next hslot]
      exact ⟨hi, ih⟩
    rw [← hstable, mem_endingWithin] at hlater
    exact hlater.2

/-- **No chain that ends is longer than there are slots.** -/
theorem ComesTo.chase (h : ComesTo scope base slots b c) (hfuel : slots.size ≤ fuel) :
    chase base (slots.map (finalBit scope)) fuel b = some c := by
  obtain ⟨g, hg, hstable⟩ := exists_stable base (slots.map (finalBit scope))
  obtain ⟨d, hd⟩ := Option.isSome_iff_exists.1 (h.isSome_of_stable hstable)
  rw [Array.size_map] at hg
  rw [chase_mono (Nat.le_trans hg hfuel) hd, h.eq_of_chase hd]

/-- What is found is the end of the chain, unless it is the 0 behind a slot that is not open. -/
theorem comesTo_of_chase (h : chase base (slots.map (finalBit scope)) fuel b = some c) :
    ComesTo scope base slots b c ∨ c = .const false := by
  induction fuel generalizing b with
  | zero =>
    rcases slot_or_below base b with ⟨n, hn, rfl⟩ | hend
    · rw [chase_zero hn] at h
      cases h
    · rw [chase_end hend] at h
      cases h
      exact .inl (.here (Bit.slotBelow_iff.1 hend))
  | succ fuel ih =>
    rcases slot_or_below base b with ⟨n, hn, rfl⟩ | hend
    · obtain ⟨i, rfl⟩ := Nat.exists_eq_add_of_le hn
      cases hslot : slots[i]? with
      | some slot =>
        rw [chase_next hslot] at h
        exact (ih h).imp_left (.next hslot)
      | none =>
        have hzero : (slots.map (finalBit scope)).getD i (.const false) = .const false := by
          rw [Array.getD_eq_getD_getElem?, Array.getElem?_map, hslot]
          rfl
        rw [chase_succ hn, Nat.add_sub_cancel_left, hzero, chase_end rfl, Option.some.injEq] at h
        exact .inr h.symm
    · rw [chase_end hend] at h
      cases h
      exact .inl (.here (Bit.slotBelow_iff.1 hend))

end Chains

/-- **Every slot gives way to the end of its chain.** Whatever the scope, the number of the first slot and the slots
from there on: each of them gives way to one bit, which is none of them. If its chain comes to an end, however long it
is and whatever slots it goes through, then it is not cut off and the bit is that end, a slot of an outer body
included. If the chain has no end, the bit is 0. -/
theorem chains_are_followed (scope : Scope Signal) (base : Nat) (slots : Array ForwardSlot) :
    let ends := chaseAll base (slots.map (finalBit scope))
    ends.size = slots.size ∧ ∀ i < slots.size,
      let replaced := (Bit.forward (base + i)).resolve base ends
      (∀ n, replaced = .forward n → n < base) ∧
      (∀ c, ComesTo scope base slots (.forward (base + i)) c → ends[i]? = some (some c) ∧ replaced = c) ∧
      ((∀ c, ¬ ComesTo scope base slots (.forward (base + i)) c) → replaced = .const false) := by
  intro ends
  refine ⟨by simp only [ends, chaseAll, Array.size_map], fun i hi => ?_⟩
  intro replaced
  have hreplaced : replaced = (chase base (slots.map (finalBit scope)) (slots.size + 2)
      (.forward (base + i))).getD (.const false) := by
    rw [← Array.size_map (f := finalBit scope)]
    exact resolve_eq_chase base (slots.map (finalBit scope)) (.forward (base + i))
  obtain ⟨slot, hslot⟩ : ∃ slot, slots[i]? = some slot := ⟨slots[i], Array.getElem?_eq_getElem hi⟩
  refine ⟨Bit.slotBelow_iff.1 (slotBelow_resolve base _ _), fun c hc => ?_, fun hnone => ?_⟩
  · have hend : chase base (slots.map (finalBit scope)) (slots.size + 2) (.forward (base + i)) = some c :=
      hc.chase (Nat.le_add_right _ 2)
    constructor
    · -- the step from the slot itself is taken before the limit starts to count
      rw [chase_next hslot] at hend
      simp only [ends, chaseAll, Array.getElem?_map, hslot, Option.map_some, Array.size_map, hend]
    · rw [hreplaced, hend]
      rfl
  · rw [hreplaced]
    cases hchase : chase base (slots.map (finalBit scope)) (slots.size + 2) (.forward (base + i)) with
    | none => rfl
    | some c => exact (comesTo_of_chase hchase).resolve_left (hnone c)

/-- Two names lead to a slot of an outer body, and two others only to each other. -/
def knottedScope : Scope Signal :=
  (((Scope.empty.bind "a" (.wire ⟨#[.forward 4]⟩)).bind "b" (.wire ⟨#[.forward 1]⟩)).bind "c"
    (.wire ⟨#[.forward 6]⟩)).bind "d" (.wire ⟨#[.forward 5]⟩)

def knottedSlots : Array ForwardSlot := #[⟨"a", 0⟩, ⟨"b", 0⟩, ⟨"c", 0⟩, ⟨"d", 0⟩]

theorem knotted_comesTo : ComesTo knottedScope 3 knottedSlots (.forward 3) (.forward 1) :=
  .next (i := 0) rfl (.next (i := 1) rfl (.here fun n h => by cases h; decide))

theorem knotted_endless {b c : Bit} (h : ComesTo knottedScope 3 knottedSlots b c) :
    b ≠ .forward 5 ∧ b ≠ .forward 6 := by
  induction h with
  | here h =>
    exact ⟨fun heq => absurd (h 5 heq) (by decide), fun heq => absurd (h 6 heq) (by decide)⟩
  | @next i slot c hslot _ ih =>
    constructor
    · intro heq
      obtain rfl : i = 2 := Nat.add_left_cancel (Bit.forward.inj heq)
      cases hslot
      exact ih.2 rfl
    · intro heq
      obtain rfl : i = 3 := Nat.add_left_cancel (Bit.forward.inj heq)
      cases hslot
      exact ih.1 rfl

theorem knotted_followed :
    let ends := chaseAll 3 (knottedSlots.map (finalBit knottedScope))
    (0 < knottedSlots.size ∧ ComesTo knottedScope 3 knottedSlots (.forward 3) (.forward 1) ∧
      (Bit.forward 3).resolve 3 ends = .forward 1) ∧
    (2 < knottedSlots.size ∧ (∀ c, ¬ ComesTo knottedScope 3 knottedSlots (.forward 5) c) ∧
      (Bit.forward 5).resolve 3 ends = .const false) := by
  have hfollowed := (chains_are_followed knottedScope 3 knottedSlots).2
  have hendless : ∀ c, ¬ ComesTo knottedScope 3 knottedSlots (.forward 5) c := fun c h => (knotted_endless h).1 rfl
  exact ⟨⟨by decide, knotted_comesTo, ((hfollowed 0 (by decide)).2.1 _ knotted_comesTo).2⟩,
    by decide, hendless, (hfollowed 2 (by decide)).2.2 hendless⟩

end NandHdl
