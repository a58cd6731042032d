import NandHdl.Proofs.GateOrder

/-!
# Feedback loops in the order of gates

Two gates are parts of one loop if each drives the other, directly or through other gates. In the order in
which gates are evaluated a loop stays together, and it stands behind the loops that drive it.

* `DrivesThrough`, `SameLoop`: driving through other gates, and loops.
* `exists_split`: a list in order of its keys holds the elements of one key side by side.
* `orderGates_loops`: **the order of gates respects their loops.**
-/

namespace NandHdl.GateOrder

open Relation

/-- One gate drives another, directly or through other gates, or is that gate. -/
def DrivesThrough (gates : List Gate) : Nat → Nat → Prop := ReflTransGen (Drives gates)

/-- Two gates are parts of one feedback loop, or are one gate. -/
def SameLoop (gates : List Gate) (u v : Nat) : Prop := DrivesThrough gates u v ∧ DrivesThrough gates v u

variable {gates : List Gate}

/-- The first search goes from gates to those that they drive. -/
theorem leads_fedBy (gates : List Gate) : Leads (fedBy gates) = DrivesThrough gates :=
  congrArg ReflTransGen (funext₂ fun u v => propext (mem_fedBy gates u v))

section Sorted

variable {α : Type} {key : α → Nat} {l : List α}

/-- A list in order of its keys falls into three parts: smaller keys, a given key and larger ones. -/
theorem exists_split (h : l.Pairwise fun x y => key x ≤ key y) (k : Nat) : ∃ before same after,
    l = before ++ same ++ after ∧ (∀ x ∈ before, key x < k) ∧ (∀ x ∈ same, key x = k) ∧
      ∀ x ∈ after, k < key x := by
  induction l with
  | nil => exact ⟨[], [], [], rfl, List.forall_mem_nil _, List.forall_mem_nil _, List.forall_mem_nil _⟩
  | cons x l ih =>
    obtain ⟨hx, hl⟩ := List.pairwise_cons.1 h
    obtain ⟨before, same, after, rfl, hbefore, hsame, hafter⟩ := ih hl
    -- what stands behind `x` has no smaller key, so the parts in front of that of `x` are empty
    have hnone : ∀ ys : List α, (∀ y ∈ ys, y ∈ before ++ same ++ after ∧ key y < key x) → ys = [] :=
      fun ys hys => List.eq_nil_iff_forall_not_mem.2 fun y hy =>
        Nat.not_lt.2 (hx y (hys y hy).1) (hys y hy).2
    rcases Nat.lt_trichotomy (key x) k with hlt | heq | hgt
    · exact ⟨x :: before, same, after, rfl, List.forall_mem_cons.2 ⟨hlt, hbefore⟩, hsame, hafter⟩
    · obtain rfl := hnone before fun y hy => ⟨by simp [hy], heq ▸ hbefore y hy⟩
      exact ⟨[], x :: same, after, rfl, List.forall_mem_nil _, List.forall_mem_cons.2 ⟨heq, hsame⟩, hafter⟩
    · obtain rfl := hnone before fun y hy => ⟨by simp [hy], (hbefore y hy).trans hgt⟩
      obtain rfl := hnone same fun y hy => ⟨by simp [hy], (hsame y hy).trans_lt hgt⟩
      exact ⟨[], [], x :: after, rfl, List.forall_mem_nil _, List.forall_mem_nil _,
        List.forall_mem_cons.2 ⟨hgt, hafter⟩⟩

/-- In a list in order of its keys, smaller keys stand first. -/
theorem sublist_of_key_lt (h : l.Pairwise fun x y => key x ≤ key y) {x y : α} (hx : x ∈ l) (hy : y ∈ l)
    (hxy : key x < key y) : [x, y].Sublist l := by
  obtain ⟨before, same, after, rfl, hbefore, hsame, hafter⟩ := exists_split h (key y)
  rw [List.append_assoc, List.mem_append] at hx hy
  have hx' : x ∈ before := hx.resolve_right fun hx => by
    rcases List.mem_append.1 hx with hx | hx
    · exact absurd (hsame x hx) (Nat.ne_of_lt hxy)
    · exact absurd (hafter x hx) (Nat.lt_asymm hxy)
  have hy' : y ∈ same ++ after := hy.resolve_left fun hy => Nat.lt_irrefl _ (hbefore y hy)
  rw [List.append_assoc]
  exact (List.singleton_sublist.2 hx').append (List.singleton_sublist.2 hy')

end Sorted

/-- **The order of gates respects their loops.** It only rearranges gates that have places of their own. A gate
that drives another, directly or through other gates, stands before it unless the other one drives it back; and
the gates of a loop stand side by side. -/
theorem orderGates_loops (hnodup : (gates.map Gate.out).Nodup) :
    (orderGates gates).Perm gates ∧
    (∀ g ∈ gates, ∀ h ∈ gates, DrivesThrough gates g.out h.out → ¬ DrivesThrough gates h.out g.out →
      [g, h].Sublist (orderGates gates)) ∧
    ∀ g ∈ gates, ∃ before loop after, orderGates gates = before ++ loop ++ after ∧
      (∀ h ∈ loop, SameLoop gates g.out h.out) ∧ ∀ h ∈ before ++ after, ¬ SameLoop gates g.out h.out := by
  have hperm := orderGates_perm gates
  have hsorted := orderGates_ranks gates
  have hplace : ∀ g ∈ gates, g.out ∈ gates.map Gate.out := fun g hg => List.mem_map_of_mem hg
  refine ⟨hperm, fun g hg h hh hgh hhg => ?_, fun g hg => ?_⟩
  · rw [← leads_fedBy] at hgh hhg
    exact sublist_of_key_lt hsorted (hperm.mem_iff.2 hg) (hperm.mem_iff.2 hh)
      (rank_lt_of_leads hnodup (hplace g hg) hgh hhg)
  · obtain ⟨before, loop, after, hsplit, hbefore, hloop, hafter⟩ :=
      exists_split hsorted ((keyTable gates).key g.out).rank
    have hmem : ∀ h ∈ before ++ loop ++ after, h ∈ gates := fun h hh => hperm.mem_iff.1 (hsplit ▸ hh)
    have hsame : ∀ h ∈ gates, SameLoop gates g.out h.out ↔
        ((keyTable gates).key g.out).rank = ((keyTable gates).key h.out).rank := fun h hh => by
      rw [rank_eq_iff hnodup (hplace g hg) (hplace h hh), leads_fedBy]
      rfl
    refine ⟨before, loop, after, hsplit, fun h hh => ?_, fun h hh => ?_⟩
    · exact (hsame h (hmem h (by simp [hh]))).2 (hloop h hh).symm
    · have hne : ((keyTable gates).key g.out).rank ≠ ((keyTable gates).key h.out).rank := by
        rcases List.mem_append.1 hh with hh | hh
        · exact (Nat.ne_of_lt (hbefore h hh)).symm
        · exact Nat.ne_of_lt (hafter h hh)
      have hh' : h ∈ gates := hmem h (by rcases List.mem_append.1 hh with hh | hh <;> simp [hh])
      exact fun hloop => hne ((hsame h hh').1 hloop)

/-- A latch of two gates, a gate that reads it twice, one that also feeds itself, and one that reads a flip-flop
at place 9. They are listed from back to front. -/
def latched : List Gate :=
  [⟨5, .node 5, .node 4⟩, ⟨4, .node 1, .node 1⟩, ⟨2, .node 1, .input 1⟩, ⟨7, .node 9, .const true⟩,
    ⟨1, .node 7, .node 2⟩]

/-- In this order the latch stands together, behind the gate that drives it and before those that read it. -/
theorem latched_loops : (latched.map Gate.out).Nodup ∧
    (DrivesThrough latched 1 5 ∧ ¬ DrivesThrough latched 5 1 ∧
      [⟨1, .node 7, .node 2⟩, ⟨5, .node 5, .node 4⟩].Sublist (orderGates latched)) ∧
    ∃ before loop after, orderGates latched = before ++ loop ++ after ∧
      (∀ h ∈ loop, SameLoop latched 1 h.out) ∧ ∀ h ∈ before ++ after, ¬ SameLoop latched 1 h.out := by
  have hnodup : (latched.map Gate.out).Nodup := by decide
  obtain ⟨-, hbefore, htogether⟩ := orderGates_loops hnodup
  have hthrough : DrivesThrough latched 1 5 :=
    .head (b := 4) ⟨by decide, ⟨4, .node 1, .node 1⟩, by decide, rfl, .inl rfl⟩
      (.single ⟨by decide, ⟨5, .node 5, .node 4⟩, by decide, rfl, .inr rfl⟩)
  -- the gate at place 5 drives itself alone
  have hback : ¬ DrivesThrough latched 5 1 := fun h => by
    have hself : ∀ v, DrivesThrough latched 5 v → v = 5 := fun v hv => by
      induction hv with
      | refl => rfl
      | tail _ hdr ih =>
        subst ih
        obtain ⟨-, g, hg, rfl, hreads⟩ := hdr
        simp only [latched, List.mem_cons, List.not_mem_nil, or_false] at hg
        rcases hg with rfl | rfl | rfl | rfl | rfl <;> simp [Gate.Reads] at hreads ⊢
    exact absurd (hself 1 h) (by decide)
  exact ⟨hnodup, ⟨hthrough, hback, hbefore ⟨1, .node 7, .node 2⟩ (by decide) ⟨5, .node 5, .node 4⟩ (by decide)
    hthrough hback⟩, htogether ⟨1, .node 7, .node 2⟩ (by decide)⟩

end NandHdl.GateOrder
