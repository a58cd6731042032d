import NandHdl.Proofs.GateOrder
import NandHdl.Simulation.Simulator

/-!
# Settling

What passes over the gates do to the bits of a circuit.

* `Gate.Holds`: the equation of a gate.
* `passOver_values`: a pass fires the gates one after another.
* `passOver_changed`: a pass changes nothing exactly if all equations hold.
* `settleWithin_frame`: settling changes gates alone.
* `InOrder`: no gate reads itself or a later one.
* `settleWithin_inOrder`: gates in order settle in one pass and one to confirm.
-/

namespace NandHdl

variable {pins values : Array Bool} {gates : List Gate}

/-- The bit of a gate is what its inputs make it. -/
def Gate.Holds (values pins : Array Bool) (g : Gate) : Prop :=
  values.getD g.out false = g.output values pins

/-- The bits after a gate has been evaluated. -/
def Gate.fire (pins values : Array Bool) (g : Gate) : Array Bool :=
  values.setIfInBounds g.out (g.output values pins)

theorem getD_setIfInBounds (values : Array Bool) (i j : Nat) (b : Bool) :
    (values.setIfInBounds i b).getD j false =
      if i = j ∧ i < values.size then b else values.getD j false := by
  simp only [Array.getD_eq_getD_getElem?, Array.getElem?_setIfInBounds]
  by_cases h : i = j
  · subst h
    by_cases hi : i < values.size
    · simp [hi]
    · simp [hi]
  · simp [h]

@[simp] theorem Gate.size_fire (pins values : Array Bool) (g : Gate) :
    (g.fire pins values).size = values.size := Array.size_setIfInBounds

/-- A gate whose equation holds changes nothing. -/
theorem Gate.fire_of_holds {g : Gate} (h : g.Holds values pins) : g.fire pins values = values := by
  refine Array.ext Array.size_setIfInBounds fun i hi hi' => ?_
  simp only [Gate.fire, Array.getElem_setIfInBounds hi']
  split
  · next heq =>
    subst heq
    rw [← h, Array.getD_eq_getD_getElem?, Array.getElem?_eq_getElem hi', Option.getD_some]
  · rfl

open Classical in
/-- A pass is a fold that evaluates a gate and notes whether its equation failed before. -/
theorem passOver_eq (pins : Array Bool) (gates : List Gate) (values : Array Bool) :
    passOver pins gates values = gates.foldl
      (fun s g => (g.fire pins s.1, s.2 || !decide (g.Holds s.1 pins))) (values, false) := by
  unfold passOver
  congr 1
  funext ⟨values, changed⟩ g
  by_cases h : g.Holds values pins
  · have h' : values.getD g.out false = g.output values pins := h
    simp only [Gate.fire_of_holds h, h, h', if_true, decide_true, Bool.not_true, Bool.or_false]
  · have h' : ¬ values.getD g.out false = g.output values pins := h
    simp only [h, h', Gate.fire, if_false, decide_false, Bool.not_false, Bool.or_true]

/-- A pass evaluates the gates one after another. -/
theorem passOver_values (pins : Array Bool) (gates : List Gate) (values : Array Bool) :
    (passOver pins gates values).1 = gates.foldl (Gate.fire pins) values := by
  rw [passOver_eq]
  generalize false = changed
  induction gates generalizing values changed with
  | nil => rfl
  | cons g gs ih => exact ih _ _

/-- A pass changes nothing exactly if every gate's equation holds before it. -/
theorem passOver_changed (pins : Array Bool) (gates : List Gate) (values : Array Bool) :
    (passOver pins gates values).2 = false ↔ ∀ g ∈ gates, g.Holds values pins := by
  classical
  -- the mark is set once and stays, and until then nothing has changed
  have key : ∀ (gs : List Gate) (values : Array Bool) (changed : Bool),
      (gs.foldl (fun s g => (g.fire pins s.1, s.2 || !decide (g.Holds s.1 pins)))
        (values, changed)).2 = false ↔ changed = false ∧ ∀ g ∈ gs, g.Holds values pins := by
    intro gs
    induction gs with
    | nil => intro values changed; simp
    | cons g gs ih =>
      intro values changed
      rw [List.foldl_cons, ih, List.forall_mem_cons]
      by_cases h : g.Holds values pins
      · simp [h, Gate.fire_of_holds h]
      · simp [h]
  rw [passOver_eq, key]
  simp

/-- Evaluating gates leaves every other place alone. -/
theorem foldl_fire_frame (pins : Array Bool) {gates : List Gate} {i : Nat}
    (hi : i ∉ gates.map Gate.out) (values : Array Bool) :
    (gates.foldl (Gate.fire pins) values).getD i false = values.getD i false := by
  induction gates generalizing values with
  | nil => rfl
  | cons g gs ih =>
    rw [List.map_cons, List.mem_cons, not_or] at hi
    rw [List.foldl_cons, ih hi.2, Gate.fire, getD_setIfInBounds, if_neg fun h => hi.1 h.1.symm]

@[simp] theorem size_foldl_fire (pins : Array Bool) (gates : List Gate) (values : Array Bool) :
    (gates.foldl (Gate.fire pins) values).size = values.size := by
  induction gates generalizing values with
  | nil => rfl
  | cons g gs ih => rw [List.foldl_cons, ih, Gate.size_fire]

/-- A source that reads none of some places reads the same where the rest agrees. -/
theorem Source.read_congr {x : Source} {values values' : Array Bool} (pins : Array Bool)
    (h : ∀ i, x = .node i → values.getD i false = values'.getD i false) :
    x.read values pins = x.read values' pins := by
  cases x with
  | node i => exact h i rfl
  | input i => rfl
  | const b => rfl

/-- A gate's output depends on what it reads alone. -/
theorem Gate.output_congr {g : Gate} {values values' : Array Bool} (pins : Array Bool)
    (h : ∀ i, g.Reads i → values.getD i false = values'.getD i false) :
    g.output values pins = g.output values' pins := by
  rw [Gate.output, Gate.output, Source.read_congr pins fun i hi => h i (.inl hi),
    Source.read_congr pins fun i hi => h i (.inr hi)]

/-- No gate reads itself or a later gate. -/
def InOrder (gates : List Gate) : Prop :=
  gates.Pairwise (fun g h => ¬ g.Reads h.out) ∧ ∀ g ∈ gates, ¬ g.Reads g.out

/-- **One pass over gates in order** makes every equation hold: once a gate has been evaluated, neither
it nor what it reads changes. -/
theorem foldl_fire_holds (hnodup : (gates.map Gate.out).Nodup) (horder : InOrder gates)
    (hbound : ∀ g ∈ gates, g.out < values.size) :
    ∀ g ∈ gates, g.Holds (gates.foldl (Gate.fire pins) values) pins := by
  induction gates generalizing values with
  | nil => exact fun g hg => absurd hg List.not_mem_nil
  | cons g gs ih =>
    obtain ⟨hg, hnd⟩ := List.nodup_cons.1 (List.map_cons ▸ hnodup)
    obtain ⟨hpair, hself⟩ := horder
    obtain ⟨hlater, hpair⟩ := List.pairwise_cons.1 hpair
    intro h hh
    rw [List.foldl_cons]
    rcases List.mem_cons.1 hh with rfl | hh
    · -- the gates behind `h` touch neither its place nor what it reads
      have hframe : ∀ i, i ∉ gs.map Gate.out →
          (gs.foldl (Gate.fire pins) (h.fire pins values)).getD i false =
            (h.fire pins values).getD i false := fun i hi => foldl_fire_frame pins hi _
      rw [Gate.Holds, hframe _ hg, Gate.fire, getD_setIfInBounds,
        if_pos ⟨rfl, hbound h List.mem_cons_self⟩]
      refine Gate.output_congr pins fun i hi => ?_
      have hne : h.out ≠ i := fun heq => hself h List.mem_cons_self (heq ▸ hi)
      have hgs : i ∉ gs.map Gate.out := fun hm => by
        obtain ⟨k, hk, rfl⟩ := List.mem_map.1 hm
        exact hlater k hk hi
      rw [← Gate.fire, hframe i hgs, Gate.fire, getD_setIfInBounds, if_neg fun h => hne h.1]
    · exact ih hnd ⟨hpair, fun k hk => hself k (List.mem_cons_of_mem _ hk)⟩
        (fun k hk => by rw [Gate.size_fire]; exact hbound k (List.mem_cons_of_mem _ hk)) h hh

theorem settleWithin_succ (pins : Array Bool) (gates : List Gate) (limit : Nat) (values : Array Bool) :
    settleWithin pins gates (limit + 1) values =
      if (passOver pins gates values).2 then
        let s := settleWithin pins gates limit (passOver pins gates values).1
        ⟨s.values, s.passes.map (· + 1)⟩
      else ⟨(passOver pins gates values).1, some 1⟩ := rfl

@[simp] theorem size_settleWithin (pins : Array Bool) (gates : List Gate) (limit : Nat)
    (values : Array Bool) : (settleWithin pins gates limit values).values.size = values.size := by
  induction limit generalizing values with
  | zero => rfl
  | succ limit ih =>
    rw [settleWithin_succ]
    split
    · show (settleWithin pins gates limit _).values.size = _
      rw [ih, passOver_values, size_foldl_fire]
    · show (passOver pins gates values).1.size = _
      rw [passOver_values, size_foldl_fire]

/-- Settling leaves every place alone that is the place of no gate, whether it comes to an end or not. -/
theorem settleWithin_frame (pins : Array Bool) {gates : List Gate} {i : Nat}
    (hi : i ∉ gates.map Gate.out) (limit : Nat) (values : Array Bool) :
    (settleWithin pins gates limit values).values.getD i false = values.getD i false := by
  induction limit generalizing values with
  | zero => rfl
  | succ limit ih =>
    have hpass : (passOver pins gates values).1.getD i false = values.getD i false := by
      rw [passOver_values, foldl_fire_frame pins hi]
    rw [settleWithin_succ]
    split
    · exact (ih _).trans hpass
    · exact hpass

/-- Once all equations hold, settling is over after the pass that finds so. -/
theorem settleWithin_of_holds (h : ∀ g ∈ gates, g.Holds values pins) (limit : Nat) :
    settleWithin pins gates (limit + 1) values = ⟨values, some 1⟩ := by
  have hvalues : (passOver pins gates values).1 = values := by
    rw [passOver_values]
    induction gates with
    | nil => rfl
    | cons g gs ih =>
      rw [List.foldl_cons, Gate.fire_of_holds (h g List.mem_cons_self)]
      exact ih fun k hk => h k (List.mem_cons_of_mem _ hk)
  have hchanged := (passOver_changed pins gates values).2 h
  rw [settleWithin_succ, if_neg (by simp [hchanged]), hvalues]

/-- **Gates in order settle** in one pass, and one more to confirm if the first changed anything. -/
theorem settleWithin_inOrder (hnodup : (gates.map Gate.out).Nodup) (horder : InOrder gates)
    (hbound : ∀ g ∈ gates, g.out < values.size) (limit : Nat) :
    (settleWithin pins gates (limit + 2) values).values = gates.foldl (Gate.fire pins) values ∧
      ((settleWithin pins gates (limit + 2) values).passes = some 1 ∨
        (settleWithin pins gates (limit + 2) values).passes = some 2) := by
  rw [settleWithin_succ, ← passOver_values]
  by_cases hc : (passOver pins gates values).2 = true
  · -- the first pass made all equations hold, so the second finds nothing to change
    have hholds : ∀ g ∈ gates, g.Holds (gates.foldl (Gate.fire pins) values) pins :=
      foldl_fire_holds hnodup horder hbound
    rw [← passOver_values] at hholds
    rw [if_pos hc, settleWithin_of_holds hholds limit]
    exact ⟨rfl, .inr rfl⟩
  · rw [if_neg hc]
    exact ⟨rfl, .inl rfl⟩

end NandHdl
