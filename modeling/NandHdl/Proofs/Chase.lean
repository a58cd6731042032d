import Mathlib
import NandHdl.Elaboration.Forward

/-!
# Chains of forward slots

A chain of slots either ends after at most as many steps as there are slots or
never.

* `slotBelow_chase`, `slotBelow_resolve`: no slot of the chain is left at its end.
* `chase_mono`: more fuel finds the same end.
* `chase_eq`: **fuel beyond the number of slots changes nothing.**
* `resolve_append`: slots that are opened later change nothing for earlier ones.
-/

namespace NandHdl

variable {base fuel : Nat} {direct extra : Array Bit} {b c : Bit}

theorem chase_zero {n : Nat} (h : base ≤ n) : chase base direct 0 (.forward n) = none := by
  rw [chase, if_neg (by omega)]

theorem chase_succ {n : Nat} (h : base ≤ n) : chase base direct (fuel + 1) (.forward n) =
    chase base direct fuel (direct.getD (n - base) (.const false)) := by
  rw [chase, if_neg (by omega)]

/-- A bit is a slot of the body, or no slot from `base` on. -/
theorem slot_or_below (base : Nat) (b : Bit) : (∃ n, base ≤ n ∧ b = .forward n) ∨ b.slotBelow base := by
  cases b with
  | forward n =>
    rcases Nat.lt_or_ge n base with h | h
    · exact .inr (decide_eq_true h)
    · exact .inl ⟨n, h, rfl⟩
  | _ => exact .inr rfl

theorem Bit.slotBelow_mono {limit limit' : Nat} (hle : limit ≤ limit') (h : b.slotBelow limit) :
    b.slotBelow limit' := by
  cases b with
  | forward n => exact decide_eq_true (Nat.lt_of_lt_of_le (of_decide_eq_true h) hle)
  | _ => rfl

/-- A slot of the body that is open has a place among the open ones. -/
theorem sub_lt_of_slotBelow {n size : Nat} (hn : base ≤ n)
    (hb : (Bit.forward n).slotBelow (base + size)) : n - base < size := by
  simp only [Bit.slotBelow, decide_eq_true_eq] at hb
  omega

/-- What is no slot of the body ends its chain. -/
theorem chase_end (h : b.slotBelow base) : chase base direct fuel b = some b := by
  unfold chase
  cases b with
  | forward n => exact if_pos (of_decide_eq_true h)
  | _ => rfl

/-- A chain does not end with one of its slots. -/
theorem slotBelow_chase (h : chase base direct fuel b = some c) : c.slotBelow base := by
  induction fuel generalizing b with
  | zero =>
    rcases slot_or_below base b with ⟨n, hn, rfl⟩ | hend
    · rw [chase_zero hn] at h
      cases h
    · rw [chase_end hend] at h
      cases h
      exact hend
  | succ fuel ih =>
    rcases slot_or_below base b with ⟨n, hn, rfl⟩ | hend
    · rw [chase_succ hn] at h
      exact ih h
    · rw [chase_end hend] at h
      cases h
      exact hend

/-- More fuel finds the same end. -/
theorem chase_mono {fuel' : Nat} (hle : fuel ≤ fuel') (h : chase base direct fuel b = some c) :
    chase base direct fuel' b = some c := by
  induction fuel generalizing b fuel' with
  | zero =>
    rcases slot_or_below base b with ⟨n, hn, rfl⟩ | hend
    · rw [chase_zero hn] at h
      cases h
    · rw [chase_end hend] at h ⊢
      exact h
  | succ fuel ih =>
    rcases slot_or_below base b with ⟨n, hn, rfl⟩ | hend
    · obtain ⟨k, rfl⟩ : ∃ k, fuel' = k + 1 := ⟨fuel' - 1, by omega⟩
      rw [chase_succ hn] at h ⊢
      exact ih (by omega) h
    · rw [chase_end hend] at h ⊢
      exact h

/-- What an open slot stands for directly. -/
theorem slotBelow_getD (hd : ∀ b ∈ direct, b.slotBelow (base + direct.size)) (i : Nat) :
    (direct.getD i (.const false)).slotBelow (base + direct.size) := by
  rw [Array.getD_eq_getD_getElem?]
  cases h : direct[i]? with
  | none => rfl
  | some b => exact hd b (Array.mem_of_getElem? h)

/-- Slots that are opened later change nothing for the earlier ones. -/
theorem chase_append (hd : ∀ b ∈ direct, b.slotBelow (base + direct.size))
    (hb : b.slotBelow (base + direct.size)) :
    chase base (direct ++ extra) fuel b = chase base direct fuel b := by
  induction fuel generalizing b with
  | zero =>
    rcases slot_or_below base b with ⟨n, hn, rfl⟩ | hend
    · rw [chase_zero hn, chase_zero hn]
    · rw [chase_end hend, chase_end hend]
  | succ fuel ih =>
    rcases slot_or_below base b with ⟨n, hn, rfl⟩ | hend
    · have hlt := sub_lt_of_slotBelow hn hb
      have hget : (direct ++ extra).getD (n - base) (.const false) =
          direct.getD (n - base) (.const false) := by
        rw [Array.getD_eq_getD_getElem?, Array.getD_eq_getD_getElem?, Array.getElem?_append_left hlt]
      rw [chase_succ hn, chase_succ hn, hget]
      exact ih (slotBelow_getD hd _)
    · rw [chase_end hend, chase_end hend]

/-- The slots whose chain ends within `fuel` steps. -/
def endingWithin (base : Nat) (direct : Array Bit) (fuel : Nat) : Finset Nat :=
  (Finset.range direct.size).filter fun i => (chase base direct fuel (.forward (base + i))).isSome

theorem mem_endingWithin {i : Nat} : i ∈ endingWithin base direct fuel ↔
    i < direct.size ∧ (chase base direct fuel (.forward (base + i))).isSome := by
  rw [endingWithin, Finset.mem_filter, Finset.mem_range]

theorem endingWithin_mono (base : Nat) (direct : Array Bit) (fuel : Nat) :
    endingWithin base direct fuel ⊆ endingWithin base direct (fuel + 1) := by
  intro i hi
  rw [mem_endingWithin] at hi ⊢
  obtain ⟨c, hc⟩ := Option.isSome_iff_exists.1 hi.2
  rw [chase_mono (Nat.le_succ fuel) hc]
  exact ⟨hi.1, rfl⟩

/-- Once a step of fuel finds no new end, no fuel does. -/
theorem isSome_of_stable (hd : ∀ b ∈ direct, b.slotBelow (base + direct.size))
    (hstable : endingWithin base direct fuel = endingWithin base direct (fuel + 1)) (k : Nat)
    (hb : b.slotBelow (base + direct.size)) (h : (chase base direct (fuel + k) b).isSome) :
    (chase base direct fuel b).isSome := by
  induction k generalizing b with
  | zero => exact h
  | succ k ih =>
    rcases slot_or_below base b with ⟨n, hn, rfl⟩ | hend
    · have hlt := sub_lt_of_slotBelow hn hb
      rw [← Nat.add_assoc, chase_succ hn] at h
      -- the next slot ends within `fuel`, so this one does within one step more, which is no more
      have hnext := ih (slotBelow_getD hd (n - base)) h
      rw [← chase_succ hn] at hnext
      have hmem : n - base ∈ endingWithin base direct (fuel + 1) := by
        rw [mem_endingWithin, Nat.add_sub_cancel' hn]
        exact ⟨hlt, hnext⟩
      rw [← hstable, mem_endingWithin, Nat.add_sub_cancel' hn] at hmem
      exact hmem.2
    · rw [chase_end hend]
      rfl

/-- Up to any fuel, every step of it found a new end, or one of them found none. -/
theorem le_card_or_stable (base : Nat) (direct : Array Bit) (fuel : Nat) :
    fuel ≤ (endingWithin base direct fuel).card ∨
      ∃ g < fuel, endingWithin base direct g = endingWithin base direct (g + 1) := by
  induction fuel with
  | zero => exact .inl (Nat.zero_le _)
  | succ fuel ih =>
    rcases ih with ih | ⟨g, hg, hstable⟩
    · by_cases heq : endingWithin base direct fuel = endingWithin base direct (fuel + 1)
      · exact .inr ⟨fuel, Nat.lt_succ_self fuel, heq⟩
      · have hlt := Finset.card_lt_card ((endingWithin_mono base direct fuel).ssubset_of_ne heq)
        exact .inl (by omega)
    · exact .inr ⟨g, by omega, hstable⟩

/-- Of the steps of fuel up to the number of slots, one finds no new end. -/
theorem exists_stable (base : Nat) (direct : Array Bit) :
    ∃ g ≤ direct.size, endingWithin base direct g = endingWithin base direct (g + 1) := by
  -- each step up to one more than there are slots cannot find a new end
  have hcard : (endingWithin base direct (direct.size + 1)).card ≤ direct.size := by
    have := Finset.card_filter_le (Finset.range direct.size) fun i =>
      (chase base direct (direct.size + 1) (.forward (base + i))).isSome
    rwa [Finset.card_range] at this
  rcases le_card_or_stable base direct (direct.size + 1) with hle | ⟨g, hg, hstable⟩
  · omega
  · exact ⟨g, Nat.le_of_lt_succ hg, hstable⟩

/-- **Fuel beyond the number of slots changes nothing**, if no slot stands for one that is not open. -/
theorem chase_eq (hd : ∀ b ∈ direct, b.slotBelow (base + direct.size))
    (hb : b.slotBelow (base + direct.size)) (h : direct.size ≤ fuel) :
    chase base direct fuel b = chase base direct direct.size b := by
  obtain ⟨g, hg, hstable⟩ := exists_stable base direct
  cases hc : chase base direct fuel b with
  | some c =>
    have hsome : (chase base direct g b).isSome := by
      refine isSome_of_stable hd hstable (fuel - g) hb ?_
      rw [Nat.add_sub_cancel' (by omega), hc]
      rfl
    obtain ⟨c', hc'⟩ := Option.isSome_iff_exists.1 hsome
    rw [← hc, chase_mono (show g ≤ fuel by omega) hc', chase_mono (show g ≤ direct.size by omega) hc']
  | none =>
    cases hc' : chase base direct direct.size b with
    | none => rfl
    | some c =>
      rw [chase_mono h hc'] at hc
      cases hc

/-- The bit that replaces a bit is the end of its chain, and 0 if it has none. -/
theorem resolve_eq_chase (base : Nat) (direct : Array Bit) (b : Bit) :
    b.resolve base (chaseAll base direct) =
      (chase base direct (direct.size + 2) b).getD (.const false) := by
  rcases slot_or_below base b with ⟨n, hn, rfl⟩ | hend
  · rw [Bit.resolve, if_neg (by omega), chase_succ hn, chaseAll, Array.getD_eq_getD_getElem?,
      Array.getD_eq_getD_getElem?, Array.getElem?_map]
    cases direct[n - base]? with
    | none => rw [Option.map_none, Option.getD_none, Option.getD_none, chase_end rfl]; rfl
    | some b => rfl
  · rw [chase_end hend]
    cases b with
    | forward n => exact if_pos (of_decide_eq_true hend)
    | _ => rfl

/-- What replaces a bit is no slot of the body. -/
theorem slotBelow_resolve (base : Nat) (direct : Array Bit) (b : Bit) :
    (b.resolve base (chaseAll base direct)).slotBelow base := by
  rw [resolve_eq_chase]
  cases h : chase base direct (direct.size + 2) b with
  | none => rfl
  | some c => exact slotBelow_chase h

/-- Slots that are opened later do not change what replaces a bit. -/
theorem resolve_append (hd : ∀ b ∈ direct, b.slotBelow (base + direct.size))
    (hb : b.slotBelow (base + direct.size)) :
    b.resolve base (chaseAll base (direct ++ extra)) = b.resolve base (chaseAll base direct) := by
  have hlong : direct.size ≤ direct.size + extra.size + 2 := by omega
  have hshort : direct.size ≤ direct.size + 2 := by omega
  rw [resolve_eq_chase, resolve_eq_chase, chase_append hd hb, Array.size_append, chase_eq hd hb hlong,
    chase_eq hd hb hshort]

end NandHdl
