import NandHdl.Proofs.Effect

/-!
# Gate equations

Gates are evaluated one after another, and each sees what those before it in the pass have made of their
places. Where a pass changes nothing, all of them agree at once, whatever feedback there is among them.

* `Netlist.Balanced`: every gate is the NAND of its inputs, for given bits of the gates and the flip-flops.
* `afterPasses`, `FirstSteady`: the bits after some passes, and the first ones that satisfy all equations.
* `settleWithin_eq_iff`: **settling ends with the first pass that starts with all equations satisfied**, if the
  limit lets it come to that pass.
* `Simulator.settle_balances`: what settling leaves, and what a tick leaves in the gates.
-/

namespace NandHdl

/-! ## Passes -/

section Passes

variable {pins values w : Array Bool} {gates : List Gate} {limit k : Nat}

/-- All equations of the gates hold. -/
def Steady (pins : Array Bool) (gates : List Gate) (values : Array Bool) : Prop :=
  ∀ g ∈ gates, g.Holds values pins

/-- The bits after `k` passes over the gates. -/
def afterPasses (pins : Array Bool) (gates : List Gate) (k : Nat) (values : Array Bool) : Array Bool :=
  (fun v => (passOver pins gates v).1)^[k] values

/-- All equations hold after `k` passes, and not after fewer. -/
def FirstSteady (pins : Array Bool) (gates : List Gate) (k : Nat) (values : Array Bool) : Prop :=
  Steady pins gates (afterPasses pins gates k values) ∧
    ∀ j < k, ¬ Steady pins gates (afterPasses pins gates j values)

theorem afterPasses_succ (k : Nat) (values : Array Bool) :
    afterPasses pins gates (k + 1) values = afterPasses pins gates k (passOver pins gates values).1 :=
  Function.iterate_succ_apply _ k values

theorem firstSteady_zero : FirstSteady pins gates 0 values ↔ Steady pins gates values :=
  and_iff_left fun _ hj => absurd hj (Nat.not_lt_zero _)

/-- A pass brings the first steady bits one pass closer. -/
theorem firstSteady_succ : FirstSteady pins gates (k + 1) values ↔
    ¬ Steady pins gates values ∧ FirstSteady pins gates k (passOver pins gates values).1 := by
  simp only [FirstSteady, Nat.forall_lt_succ_left', afterPasses_succ]
  exact and_left_comm

/-- The pass that finds nothing to change is counted. -/
theorem passes_ne_zero (limit : Nat) (values : Array Bool) :
    (settleWithin pins gates limit values).passes ≠ some 0 := by
  cases limit with
  | zero => exact nofun
  | succ limit =>
    rw [settleWithin_succ]
    split
    · simp
    · simp

theorem settleWithin_of_not_steady (h : ¬ Steady pins gates values) :
    settleWithin pins gates (limit + 1) values =
      ⟨(settleWithin pins gates limit (passOver pins gates values).1).values,
        (settleWithin pins gates limit (passOver pins gates values).1).passes.map (· + 1)⟩ := by
  have hchanged : (passOver pins gates values).2 = true := by
    rw [← Bool.not_eq_false, passOver_changed]
    exact h
  rw [settleWithin_succ, if_pos hchanged]

/-- **When settling ends.** It ends with the first pass that starts with all equations satisfied, if the limit
allows so many passes, and leaves the bits as that pass has found them. -/
theorem settleWithin_eq_iff : settleWithin pins gates limit values = ⟨w, some (k + 1)⟩ ↔
    k < limit ∧ w = afterPasses pins gates k values ∧ FirstSteady pins gates k values := by
  -- the limit and the number of passes go down together
  induction limit generalizing values k with
  | zero => simp [settleWithin]
  | succ limit ih =>
    by_cases hsteady : Steady pins gates values
    · rw [settleWithin_of_holds hsteady]
      cases k with
      | zero => simp [firstSteady_zero, hsteady, afterPasses, eq_comm]
      | succ k => simp [firstSteady_succ, hsteady]
    · rw [settleWithin_of_not_steady hsteady]
      cases k with
      | zero =>
        have hzero : (settleWithin pins gates limit (passOver pins gates values).1).passes ≠ some 0 :=
          passes_ne_zero limit _
        simp [firstSteady_zero, hsteady, hzero]
      | succ k =>
        have hrest := @ih (passOver pins gates values).1 k
        rw [Settled.mk.injEq, Option.map_eq_some_iff]
        rw [Nat.succ_lt_succ_iff, afterPasses_succ, firstSteady_succ, and_iff_right hsteady, ← hrest]
        cases settleWithin pins gates limit (passOver pins gates values).1
        simp

/-- Among the passes that start steady there is a first one. -/
theorem exists_firstSteady (h : Steady pins gates (afterPasses pins gates k values)) :
    ∃ j ≤ k, FirstSteady pins gates j values := by
  classical
  have hex : ∃ j, Steady pins gates (afterPasses pins gates j values) := ⟨k, h⟩
  exact ⟨Nat.find hex, Nat.find_min' hex h, Nat.find_spec hex, fun _ => Nat.find_min hex⟩

end Passes

/-! ## The equations of a netlist -/

namespace Netlist

variable {n : Netlist} {values pins : Array Bool}

variable (n) in
/-- The value of a bit if the gates hold `gates`, the flip-flops `stored` and the inputs `pins`. -/
def valueOf (gates stored pins : Array Bool) (x : Bit) : Bool :=
  match n.source x with
  | .node i =>
    match n.nodes[i]? with
    | some ⟨_, .nand _ _⟩ => gates.getD i false
    | _ => stored.getD i false
  | .input i => pins.getD i false
  | .const v => v

variable (n) in
/-- **All gates agree**: each is the NAND of its two inputs. -/
def Balanced (gates stored pins : Array Bool) : Prop :=
  ∀ i id a b, n.nodes[i]? = some ⟨id, .nand a b⟩ →
    gates.getD i false = !(n.valueOf gates stored pins a && n.valueOf gates stored pins b)

/-- If one array holds all bits, values are read from it. -/
theorem valueOf_self (values pins : Array Bool) (x : Bit) :
    n.valueOf values values pins x = (n.source x).read values pins := by
  unfold valueOf
  cases n.source x with
  | node i =>
    dsimp only [Source.read]
    split <;> rfl
  | input i => rfl
  | const v => rfl

/-- A value depends on the one array at the places of gates, and on the other at the rest. -/
theorem valueOf_congr {gates stored gates' stored' : Array Bool}
    (hgates : ∀ i id a b, n.nodes[i]? = some ⟨id, .nand a b⟩ → gates'.getD i false = gates.getD i false)
    (hstored : ∀ i, (∀ id a b, n.nodes[i]? ≠ some ⟨id, .nand a b⟩) →
      stored'.getD i false = stored.getD i false) (x : Bit) :
    n.valueOf gates' stored' pins x = n.valueOf gates stored pins x := by
  unfold valueOf
  cases n.source x with
  | node i =>
    dsimp only
    split
    · next id a b hi => exact hgates i id a b hi
    · next hne => exact hstored i fun id a b hi => hne id a b hi
  | input i => rfl
  | const v => rfl

theorem Balanced.congr {gates stored gates' stored' : Array Bool} (h : n.Balanced gates stored pins)
    (hgates : ∀ i id a b, n.nodes[i]? = some ⟨id, .nand a b⟩ → gates'.getD i false = gates.getD i false)
    (hstored : ∀ i, (∀ id a b, n.nodes[i]? ≠ some ⟨id, .nand a b⟩) →
      stored'.getD i false = stored.getD i false) : n.Balanced gates' stored' pins := by
  intro i id a b hi
  rw [hgates i id a b hi, valueOf_congr hgates hstored, valueOf_congr hgates hstored]
  exact h i id a b hi

/-- The gates of a circuit in the order of their evaluation satisfy the equations that their nodes stand for. -/
theorem steady_iff_balanced : Steady pins (GateOrder.orderGates n.gates) values ↔ n.Balanced values values pins := by
  have hmem : ∀ g, g ∈ GateOrder.orderGates n.gates ↔ g ∈ n.gates :=
    fun g => (GateOrder.orderGates_perm n.gates).mem_iff
  constructor
  · intro h i id a b hi
    rw [valueOf_self, valueOf_self]
    exact h ⟨i, n.source a, n.source b⟩ ((hmem _).2 (mem_gates.2 ⟨i, id, a, b, hi, rfl⟩))
  · intro h g hg
    obtain ⟨i, id, a, b, hi, rfl⟩ := mem_gates.1 ((hmem g).1 hg)
    have hgate := h i id a b hi
    rw [valueOf_self, valueOf_self] at hgate
    exact hgate

end Netlist

namespace Simulator

variable {n : Netlist} {s : Simulator} {i : Nat}

/-- A place of the netlist with no gate is not the place of a gate of its circuit. -/
theorem not_mem_gates (hs : s.circuit = (Circuit.ofNetlist n).value)
    (hi : ∀ id a b, n.nodes[i]? ≠ some ⟨id, .nand a b⟩) : i ∉ s.circuit.gates.map Gate.out := by
  intro hmem
  obtain ⟨g, hg, rfl⟩ := List.mem_map.1 hmem
  rw [hs] at hg
  obtain ⟨j, id, a, b, hj, rfl⟩ :=
    Netlist.mem_gates.1 ((GateOrder.orderGates_perm n.gates).mem_iff.1 hg)
  exact hi id a b hj

/-- Captures write to the places of flip-flops alone, whatever the clocks before were. -/
theorem getD_capture_of_not_flop (hi : i ∉ s.circuit.flops.map Flop.out) :
    s.capture.values.getD i false = s.values.getD i false := by
  unfold capture
  dsimp only
  generalize hrows : s.circuit.flops.zip _ = rows
  have hne : ∀ x ∈ rows, x.1.out ≠ i := fun x hx hout => by
    subst hrows
    exact hi (List.mem_map.2 ⟨x.1, (List.of_mem_zip hx).1, hout⟩)
  generalize s.values = values
  clear hrows
  induction rows generalizing values with
  | nil => rfl
  | cons x rows ih =>
    obtain ⟨hx, hrest⟩ := List.forall_mem_cons.1 hne
    rw [List.foldl_cons, ih hrest]
    split
    · rw [getD_setIfInBounds, if_neg fun h => hx h.1]
    · rfl

/-- A tick leaves in the gates what they have settled to. -/
theorem getD_step_of_gate (hs : s.circuit = (Circuit.ofNetlist n).value) {id : Nat} {a b : Bit}
    (hi : n.nodes[i]? = some ⟨id, .nand a b⟩) :
    s.step.value.values.getD i false = s.settled.values.getD i false := by
  rw [step_value, (frames_serviceBus _).values, getD_capture_of_not_flop]
  intro hmem
  obtain ⟨f, hf, rfl⟩ := List.mem_map.1 hmem
  have hf : f ∈ n.flops := by
    rw [show s.circuit.flops = n.flops by rw [hs]; rfl] at hf
    exact hf
  obtain ⟨j, id', d, clk, hj, rfl⟩ := Netlist.mem_flops.1 hf
  rw [hj] at hi
  cases hi

/-- The bits after `k` passes over the gates. -/
def after (s : Simulator) (k : Nat) : Array Bool := afterPasses s.pins s.circuit.gates k s.values

/-- **Settling with feedback**, from any state of any circuit. Settling changes bits of gates and nothing else. It
succeeds exactly if the gates agree at the start of one of its passes, and ends with the first such pass. If it
does, all gates agree with what their inputs are afterwards, and settling once more changes nothing and is over in
one pass. And the gates that a tick leaves then agree with the input bits and the stored bits that the tick
started from. -/
theorem settle_balances (n : Netlist) (s : Simulator) (hs : s.circuit = (Circuit.ofNetlist n).value) :
    let t := s.settle.value
    (t = { s with values := t.values } ∧ t.values.size = s.values.size ∧
      ∀ i, (∀ id a b, n.nodes[i]? ≠ some ⟨id, .nand a b⟩) →
        t.values.getD i false = s.values.getD i false) ∧
    ((∃ k, s.settled.passes = some k) ↔
      ∃ k < settleLimit, n.Balanced (s.after k) (s.after k) s.pins) ∧
    ∀ passes, s.settled.passes = some passes →
      (∃ k < settleLimit, passes = k + 1 ∧ t.values = s.after k ∧
        ∀ j < k, ¬ n.Balanced (s.after j) (s.after j) s.pins) ∧
      n.Balanced t.values t.values t.pins ∧
      t.settled = ⟨t.values, some 1⟩ ∧ t.settle.value = t ∧
      n.Balanced s.step.value.values s.values s.pins := by
  intro t
  have hsteady : ∀ values, Steady s.pins s.circuit.gates values ↔ n.Balanced values values s.pins := fun values => by
    rw [hs]
    exact Netlist.steady_iff_balanced
  have hframe : ∀ i, (∀ id a b, n.nodes[i]? ≠ some ⟨id, .nand a b⟩) →
      t.values.getD i false = s.values.getD i false :=
    fun i hi => settleWithin_frame s.pins (not_mem_gates hs hi) settleLimit s.values
  -- success takes a pass at least, and is the first pass without a change
  have hsuccess : ∀ passes, s.settled.passes = some passes → ∃ k < settleLimit, passes = k + 1 ∧
      t.values = s.after k ∧ FirstSteady s.pins s.circuit.gates k s.values := by
    intro passes hpasses
    cases passes with
    | zero => exact absurd hpasses (passes_ne_zero settleLimit s.values)
    | succ k =>
      have hsettled : s.settled = ⟨t.values, some (k + 1)⟩ := by
        rw [← hpasses]
        rfl
      obtain ⟨hlt, hvalues, hfirst⟩ := settleWithin_eq_iff.1 hsettled
      exact ⟨k, hlt, rfl, hvalues, hfirst⟩
  refine ⟨⟨rfl, size_settleWithin _ _ _ _, hframe⟩, ⟨fun ⟨passes, hpasses⟩ => ?_, fun ⟨k, hk, hbalanced⟩ => ?_⟩,
    fun passes hpasses => ?_⟩
  · obtain ⟨k, hlt, -, -, hfirst⟩ := hsuccess passes hpasses
    exact ⟨k, hlt, (hsteady _).1 hfirst.1⟩
  · obtain ⟨j, hj, hfirst⟩ := exists_firstSteady ((hsteady _).2 hbalanced)
    have hsettled := settleWithin_eq_iff.2 ⟨Nat.lt_of_le_of_lt hj hk, rfl, hfirst⟩
    exact ⟨j + 1, congrArg Settled.passes hsettled⟩
  · obtain ⟨k, hlt, hk, hvalues, hfirst⟩ := hsuccess passes hpasses
    have hagree : Steady s.pins s.circuit.gates t.values := hvalues ▸ hfirst.1
    -- the pass that would come next finds nothing to change
    have hagain : t.settled = ⟨t.values, some 1⟩ := settleWithin_of_holds hagree 99
    have htwice : t.settle.value = { t with values := t.settled.values } := rfl
    rw [hagain] at htwice
    have hbalanced := (hsteady _).1 hagree
    refine ⟨⟨k, hlt, hk, hvalues, fun j hj => mt (hsteady _).2 (hfirst.2 j hj)⟩, hbalanced, hagain, htwice, ?_⟩
    exact hbalanced.congr (fun i id a b hi => getD_step_of_gate hs hi) fun i hi => (hframe i hi).symm

end Simulator

/-- A latch that is set and cleared by inputs that are 0, and a flip-flop that takes what it holds. -/
def holder : Netlist where
  name := "holder"
  inputs := [⟨"set", 1⟩, ⟨"clear", 1⟩, ⟨"clk", 1⟩]
  outputs := [(⟨"q", 1⟩, ⟨#[.node 0]⟩)]
  nodes := #[⟨0, .nand (.input 0) (.node 1)⟩, ⟨1, .nand (.input 1) (.node 0)⟩, ⟨2, .dff (.node 0) (.input 2)⟩]
  signals := .empty

/-- The gate with the greater number goes first: it reads what the other has made of the bit before. -/
theorem orderGates_holder :
    GateOrder.orderGates holder.gates = [⟨1, .input 1, .node 0⟩, ⟨0, .input 0, .node 1⟩] := by
  have hlate : ((GateOrder.keyTable [⟨0, .input 0, .node 1⟩, ⟨1, .input 1, .node 0⟩]).key 0).le
      ((GateOrder.keyTable [⟨0, .input 0, .node 1⟩, ⟨1, .input 1, .node 0⟩]).key 1) = false := by decide +kernel
  have hgates : holder.gates = [⟨0, .input 0, .node 1⟩, ⟨1, .input 1, .node 0⟩] := by decide
  rw [hgates]
  simp [GateOrder.orderGates, List.mergeSort, List.MergeSort.Internal.splitInTwo, hlate]

namespace Simulator

/-- The latch is set in a tick that starts from a state in which its gates disagree. -/
theorem holder_balances :
    let s := (ofNetlist holder (.zeros 1)).value.withPins #[false, true, true]
    s.circuit = (Circuit.ofNetlist holder).value ∧ ¬ holder.Balanced s.values s.values s.pins ∧
      s.settled = ⟨#[true, false, false], some 3⟩ ∧ s.settle.value.settled.passes = some 1 ∧
      holder.Balanced s.step.value.values s.values s.pins := by
  intro s
  obtain ⟨-, -, hsettles⟩ := settle_balances holder s rfl
  have hsettled : s.settled = ⟨#[true, false, false], some 3⟩ := by
    show settleWithin #[false, true, true] (GateOrder.orderGates holder.gates) settleLimit #[false, false, false] = _
    rw [orderGates_holder]
    rfl
  obtain ⟨⟨k, -, hk, -, hearlier⟩, -, hagain, -, hstep⟩ := hsettles 3 (congrArg Settled.passes hsettled)
  exact ⟨rfl, hearlier 0 (by omega), hsettled, congrArg Settled.passes hagain, hstep⟩

/-- A gate that inverts itself never settles. -/
example :
    let n : Netlist := ⟨"ring", [], [], #[⟨0, .nand (.node 0) (.node 0)⟩], .empty⟩
    (ofNetlist n (.zeros 1)).value.settled.passes = none := by decide +kernel

end Simulator

end NandHdl
