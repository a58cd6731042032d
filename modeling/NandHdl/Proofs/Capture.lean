import NandHdl.Proofs.Tick

/-!
# Capture on rising clocks

A flip-flop holds what its data were when its clock last rose. This needs no
order among the gates and no end of settling: whatever bits the gates are left
with in a tick are the ones that count.

* `RisesAt`, `heldAt`: a clock over time, and the bit that a flip-flop holds.
* `heldAt_of_isGreatest`: **the bit held is the data at the last rise.**
* `Simulator.past`: the states that ticks started from, since the start or the last reset.
* `captures_on_rises`: the flip-flops after any operations on any netlist.
-/

namespace NandHdl

/-! ## Clocks over time -/

/-- The clock is 1 at a time and 0 at the one before. -/
def RisesAt (clk : Nat → Bool) (t : Nat) : Prop := clk (t - 1) = false ∧ clk t = true

/-- The bit held after tick `t` by what captures `d` whenever `clk` rises, and holds 0 before the first tick. -/
def heldAt (clk d : Nat → Bool) : Nat → Bool
  | 0 => false
  | t + 1 => if !clk t && clk (t + 1) then d (t + 1) else heldAt clk d t

variable {clk d : Nat → Bool} {t r : Nat}

theorem risesAt_succ : RisesAt clk (t + 1) ↔ (!clk t && clk (t + 1)) = true := by
  rw [RisesAt, Nat.add_sub_cancel, Bool.and_eq_true, Bool.not_eq_true']

/-- A clock that starts at 0 does not rise at time 0. -/
theorem not_risesAt_zero (h : clk 0 = false) : ¬ RisesAt clk 0 := fun hrise => by
  rw [hrise.2] at h
  cases h

/-- **The bit held is the data at the last rise.** -/
theorem heldAt_of_isGreatest (h0 : clk 0 = false) (h : IsGreatest {r | r ≤ t ∧ RisesAt clk r} r) :
    heldAt clk d t = d r := by
  induction t with
  | zero =>
    have hr : r = 0 := Nat.le_zero.1 h.1.1
    exact absurd (hr ▸ h.1.2) (not_risesAt_zero h0)
  | succ t ih =>
    rw [heldAt]
    split
    · next hrise =>
      have hle : t + 1 ≤ r := h.2 ⟨Nat.le_refl _, risesAt_succ.2 hrise⟩
      rw [Nat.le_antisymm hle h.1.1]
    · next hno =>
      -- the clock does not rise now, so the last rise is one of those before
      have hne : r ≠ t + 1 := fun hr => hno (risesAt_succ.1 (hr ▸ h.1.2))
      have hle : r ≤ t := by
        have := h.1.1
        omega
      exact ih ⟨⟨hle, h.1.2⟩, fun q hq => h.2 ⟨Nat.le_succ_of_le hq.1, hq.2⟩⟩

/-- Without a rise the bit held is 0. -/
theorem heldAt_of_no_rise (h : ∀ r ≤ t, ¬ RisesAt clk r) : heldAt clk d t = false := by
  induction t with
  | zero => rfl
  | succ t ih =>
    rw [heldAt, if_neg fun hrise => h (t + 1) (Nat.le_refl _) (risesAt_succ.2 hrise)]
    exact ih fun r hr => h r (Nat.le_succ_of_le hr)

/-- The bit held depends on what has been so far. -/
theorem heldAt_congr {clk' d' : Nat → Bool} (hclk : ∀ r ≤ t, clk' r = clk r) (hd : ∀ r ≤ t, d' r = d r) :
    heldAt clk' d' t = heldAt clk d t := by
  induction t with
  | zero => rfl
  | succ t ih =>
    rw [heldAt, heldAt, hclk t (Nat.le_succ t), hclk (t + 1) (Nat.le_refl _), hd (t + 1) (Nat.le_refl _),
      ih (fun r hr => hclk r (Nat.le_succ_of_le hr)) fun r hr => hd r (Nat.le_succ_of_le hr)]

namespace Simulator

/-! ## The ticks so far -/

/-- The states from which ticks started, since the start or the last reset, after one more operation. -/
def record (s : Simulator) (past : List Simulator) : Operation → List Simulator
  | .step => past ++ [s]
  | .run k => past ++ (List.range k).map fun j => (s.run j).value
  | .reset => []
  | _ => past

/-- The states from which ticks started, since the start or the last reset, after some more operations. -/
def past : Simulator → List Simulator → List Operation → List Simulator
  | _, before, [] => before
  | s, before, op :: ops => past (s.perform op).value.1 (s.record before op) ops

/-- What a bit was in tick `t`: after the gates were evaluated, and before anything was captured. Before
the first tick all bits count as 0. -/
def settledAt (n : Netlist) (ticks : List Simulator) (x : Bit) : Nat → Bool
  | 0 => false
  | t + 1 =>
    match ticks[t]? with
    | some s => (n.source x).read s.settled.values s.pins
    | none => false

variable {n : Netlist} {s : Simulator} {ticks : List Simulator}

/-- One more tick does not change those before it. -/
theorem settledAt_append (x : Bit) {t : Nat} (h : t ≤ ticks.length) :
    settledAt n (ticks ++ [s]) x t = settledAt n ticks x t := by
  cases t with
  | zero => rfl
  | succ t => rw [settledAt, settledAt, List.getElem?_append_left (by omega)]

theorem settledAt_last (x : Bit) : settledAt n (ticks ++ [s]) x (ticks.length + 1) =
    (n.source x).read s.settled.values s.pins := by
  rw [settledAt, List.getElem?_concat_length]

/-- The clock of the flip-flop at a place in the last tick. -/
def lastClock (n : Netlist) (ticks : List Simulator) (i : Nat) : Bool :=
  match n.nodes[i]? with
  | some ⟨_, .dff _ clk⟩ => settledAt n ticks clk ticks.length
  | _ => false

/-- The flip-flops of a state remember what the ticks so far have left in them. -/
structure Remembers (n : Netlist) (s : Simulator) (ticks : List Simulator) : Prop where
  tracks : s.Tracks n (lastClock n ticks)
  count : s.ticks = ticks.length
  held : ∀ i id d clk, n.nodes[i]? = some ⟨id, .dff d clk⟩ →
    s.values.getD i false = heldAt (settledAt n ticks clk) (settledAt n ticks d) ticks.length

/-- Nothing is remembered before the first tick. -/
theorem lastClock_nil (n : Netlist) : lastClock n [] = fun _ => false := by
  funext i
  unfold lastClock
  split <;> rfl

theorem remembers_start (n : Netlist) (ram : Ram) : (ofNetlist n ram).value.Remembers n [] where
  tracks := by
    rw [lastClock_nil]
    exact (Reached.start ram).tracks
  count := rfl
  held i id d clk hi := getD_replicate_false n.nodes.size i

/-- **A tick** is remembered as one more. -/
theorem Remembers.tick (h : s.Remembers n ticks) : s.step.value.Remembers n (ticks ++ [s]) where
  tracks := by
    have hclocks : lastClock n (ticks ++ [s]) = s.settledClock n := by
      funext i
      unfold lastClock settledClock
      rcases n.nodes[i]? with _ | ⟨_, _ | ⟨d, clk⟩⟩
      · rfl
      · rfl
      · dsimp only
        rw [List.length_append, List.length_singleton, settledAt_last]
    rw [hclocks]
    exact h.tracks.tick
  count := by
    rw [step_value, (frames_serviceBus _).ticks, List.length_append, List.length_singleton, ← h.count]
    rfl
  held i id d clk hi := by
    have hbefore : lastClock n ticks i = settledAt n (ticks ++ [s]) clk ticks.length := by
      rw [settledAt_append clk (Nat.le_refl _), lastClock, hi]
    have hold : s.values.getD i false =
        heldAt (settledAt n (ticks ++ [s]) clk) (settledAt n (ticks ++ [s]) d) ticks.length := by
      rw [h.held i id d clk hi]
      exact (heldAt_congr (fun r hr => settledAt_append clk hr) fun r hr => settledAt_append d hr).symm
    rw [h.tracks.step_flop hi, List.length_append, List.length_singleton, heldAt, ← hold, ← hbefore,
      settledAt_last, settledAt_last]

theorem Remembers.reset (h : s.Remembers n ticks) : s.reset.value.Remembers n [] where
  tracks := by
    rw [lastClock_nil]
    exact h.tracks.reset
  count := (frames_driveReadData _).ticks
  held _ _ _ _ hi := h.tracks.reset_flop hi

theorem Remembers.other (h : s.Remembers n ticks) {op : Operation} (hop : op.movesClocks = false) :
    (s.perform op).value.1.Remembers n ticks where
  tracks := h.tracks.other hop
  count := (s.perform_frames hop).ticks.trans h.count
  held := by
    rw [(s.perform_frames hop).values]
    exact h.held

/-- The state after several ticks and one more. -/
theorem run_succ (s : Simulator) (k : Nat) : (s.run (k + 1)).value = (s.run k).value.step.value := by
  -- the ticks go on from what was logged so far, so any log may come first
  have key : ∀ (k : Nat) (x : Logged Event Simulator),
      (runAfter (k + 1) x).value = (runAfter k x).value.step.value := by
    intro k
    induction k with
    | zero => exact fun _ => rfl
    | succ k ih => exact fun x => ih (x >>= step)
  exact key k (pure s)

theorem Remembers.run (h : s.Remembers n ticks) (k : Nat) :
    (s.run k).value.Remembers n (ticks ++ (List.range k).map fun j => (s.run j).value) := by
  induction k with
  | zero => rwa [List.range_zero, List.map_nil, List.append_nil]
  | succ k ih =>
    rw [run_succ, List.range_succ, List.map_append, ← List.append_assoc]
    exact ih.tick

/-- **An operation** keeps the memory of the ticks so far. -/
theorem Remembers.perform (h : s.Remembers n ticks) (op : Operation) :
    (s.perform op).value.1.Remembers n (s.record ticks op) := by
  cases op with
  | step => exact h.tick
  | run k => exact h.run k
  | reset => exact h.reset
  | _ => exact h.other rfl

theorem Remembers.performAll (ops : List Operation) : ∀ {s : Simulator} {ticks : List Simulator},
    s.Remembers n ticks → (s.performAll ops).value.1.Remembers n (s.past ticks ops) := by
  induction ops with
  | nil => exact fun h => h
  | cons op ops ih => exact fun h => ih (h.perform op)

/-- **Flip-flops capture on rising clocks**, whatever netlist it is and whatever is asked of it. Time is
the number of ticks since the start or the last reset. The bit of a flip-flop is what its data were in
the last tick in which its clock was 1 after it had been 0 in the tick before, and 0 if there was none.
Settling does not write it, and of all operations only ticks and resets do. -/
theorem captures_on_rises (n : Netlist) (ram : Ram) (ops : List Operation) :
    let s := ((ofNetlist n ram).value.performAll ops).value.1
    let ticks := (ofNetlist n ram).value.past [] ops
    s.ticks = ticks.length ∧
    (∀ i id d clk, n.nodes[i]? = some ⟨id, .dff d clk⟩ →
      (∀ r, IsGreatest {r | r ≤ ticks.length ∧ RisesAt (settledAt n ticks clk) r} r →
        s.values.getD i false = settledAt n ticks d r) ∧
      ((∀ r ≤ ticks.length, ¬ RisesAt (settledAt n ticks clk) r) → s.values.getD i false = false) ∧
      ∀ s' : Simulator, s'.circuit = s.circuit → s'.settle.value.values.getD i false = s'.values.getD i false) ∧
    ∀ op : Operation, op.movesClocks = false → ∀ s' : Simulator, (s'.perform op).value.1.values = s'.values := by
  intro s ticks
  have h : s.Remembers n ticks := (remembers_start n ram).performAll ops
  refine ⟨h.count, fun i id d clk hi => ⟨fun r hr => ?_, fun hno => ?_, fun s' hs' => ?_⟩, fun op hop s' => ?_⟩
  · rw [h.held i id d clk hi]
    exact heldAt_of_isGreatest rfl hr
  · rw [h.held i id d clk hi]
    exact heldAt_of_no_rise hno
  · exact settled_dff (hs'.trans h.tracks.circuit) hi
  · exact (s'.perform_frames hop).values

/-- The first flip-flop captures in the only tick in which its clock rises, and nothing in those after it.
The second is clocked by the first, one tick later. -/
example :
    let n : Netlist := ⟨"ripple", [⟨"d", 1⟩, ⟨"clk", 1⟩], [],
      #[⟨0, .dff (.input 0) (.input 1)⟩, ⟨1, .dff (.input 0) (.node 0)⟩], .empty⟩
    let ops : List Operation := [.setInput "d" 1, .step, .setInput "clk" 1, .step, .setInput "d" 0, .run 2]
    let s := (ofNetlist n (.zeros 1)).value
    let ticks := s.past [] ops
    (List.range 5).map (settledAt n ticks (.input 0)) = [false, true, true, false, false] ∧
      (List.range 5).map (settledAt n ticks (.input 1)) = [false, false, true, true, true] ∧
      (List.range 5).map (settledAt n ticks (.node 0)) = [false, false, false, true, true] ∧
      (s.performAll ops).value.1.values = #[true, false] := by decide +kernel

end Simulator

end NandHdl
