import NandHdl.Proofs.Aliases
import NandHdl.Proofs.Outlines

/-!
# Two runs under an alias

Of two runs of elaboration, one reads an alias and the other one the name that it stands for. They go the same way.

* `Alias.States`: states that differ at most in the names of slots and in warnings.
* `Alias.Together`, `Alias.Agree`: two steps have the same outcome. `Together.bind`: one after another.
* `agree_materialize`, `agree_project`, `agree_field`: signals that are alike are used alike.
* `agree_nand`, `agree_dff`: **gates agree**, if the natural widths of their operands do where they count.
-/

namespace NandHdl

open Elaboration

namespace Alias

/-! ## Two runs -/

/-- The states differ at most in the names of slots and in warnings. -/
structure States (a : Alias) (s t : State) : Prop where
  nextId : s.nextId = t.nextId
  nodes : s.nodes = t.nodes
  slotBase : s.slotBase = t.slotBase
  slots : s.slots.map a.slot = t.slots.map a.slot
  log : unwarned s.log = unwarned t.log

/-- The outcomes are alike: the same error, or results related by `R` in states related by `O`. -/
inductive SameOutcome (O : State → State → Prop) {α β : Type} (R : α → β → Prop) :
    Except CompileError α × State → Except CompileError β × State → Prop
  | ok {x : α} {y : β} {s t : State} (h : R x y) (hst : O s t) : SameOutcome O R (.ok x, s) (.ok y, t)
  | error {s t : State} (e : CompileError) (hlog : unwarned s.log = unwarned t.log) :
    SameOutcome O R (.error e, s) (.error e, t)

/-- The two steps go together: from states related by `I`, their outcomes are alike. -/
def Together (I O : State → State → Prop) {α β : Type} (R : α → β → Prop) (x : Build α) (y : Build β) : Prop :=
  ∀ s t, I s t → SameOutcome O R (ExceptT.run x s) (ExceptT.run y t)

/-- **The two steps agree**: they go together, from states that differ at most in the names of slots and in warnings
to such states. -/
def Agree (a : Alias) {α β : Type} (R : α → β → Prop) (x : Build α) (y : Build β) : Prop :=
  Together a.States a.States R x y

section Steps

variable {a : Alias} {α β γ δ : Type} {I M O : State → State → Prop} {R : α → β → Prop} {R' : γ → δ → Prop}
  {x : Build α} {y : Build β} {s t : State}

theorem Together.pure {u : α} {v : β} (h : R u v) : Together I I R (pure u) (pure v) := fun _ _ hst => .ok h hst

theorem Together.bind {g : α → Build γ} {h : β → Build δ} (hx : Together I M R x y)
    (hg : ∀ u v, R u v → Together M O R' (g u) (h v)) : Together I O R' (x >>= g) (y >>= h) := by
  intro s t hst
  rw [run_bind, run_bind]
  have hs := hx s t hst
  generalize ExceptT.run x s = r at hs ⊢
  generalize ExceptT.run y t = r' at hs ⊢
  cases hs with
  | ok huv hst' => exact hg _ _ huv _ _ hst'
  | error e hlog => exact .error e hlog

/-- What the first step returns is known afterwards. -/
theorem Together.returns {P : α → Prop} (h : Together I O R x y) (hx : Returns x P) :
    Together I O (fun u v => R u v ∧ P u) x y := by
  intro s t hst
  have hs := h s t hst
  have hP := hx s
  unfold Gives at hP
  generalize ExceptT.run x s = r at hs hP ⊢
  generalize ExceptT.run y t = r' at hs ⊢
  cases hs with
  | ok huv hst' => exact .ok ⟨huv, hP _ _ rfl⟩ hst'
  | error e hlog => exact .error e hlog

theorem Together.mono {I' O' : State → State → Prop} (h : Together I O R x y) (hI : ∀ s t, I' s t → I s t)
    (hO : ∀ s t, O s t → O' s t) : Together I' O' R x y := by
  intro s t hst
  have hs := h s t (hI s t hst)
  generalize ExceptT.run x s = r at hs ⊢
  generalize ExceptT.run y t = r' at hs ⊢
  cases hs with
  | ok huv hst' => exact .ok huv (hO _ _ hst')
  | error e hlog => exact .error e hlog

theorem Together.modifyGet {g : State → α × State} {h : State → β × State}
    (hg : ∀ s t, I s t → R (g s).1 (h t).1 ∧ O (g s).2 (h t).2) :
    Together I O R (modifyGet g) (modifyGet h) := fun s t hst => .ok (hg s t hst).1 (hg s t hst).2

theorem Together.modify {g h : State → State} (hg : ∀ s t, I s t → O (g s) (h t)) :
    Together I O (fun _ _ => True) (modify g) (modify h) :=
  Together.modifyGet (g := fun s => ((), g s)) (h := fun s => ((), h s)) fun s t hst => ⟨trivial, hg s t hst⟩

theorem together_get : Together I I I get get := fun _ _ hst => .ok hst hst

theorem Agree.throw (e : CompileError) : a.Agree R (throw e) (throw e) := fun _ _ hst => .error e hst.log

theorem Agree.throw_bind (e : CompileError) {g : γ → Build α} {h : δ → Build β} :
    a.Agree R (MonadExcept.throw e >>= g) (MonadExcept.throw e >>= h) := fun _ _ hst => .error e hst.log

theorem States.slots_size (h : a.States s t) : s.slots.size = t.slots.size := by
  simpa only [Array.size_map] using congrArg Array.size h.slots

/-- Where no name is replaced, the slots are the same, so they are whatever is replaced. -/
theorem States.of_self {name : String} (h : (self name).States s t) (a : Alias) : a.States s t := by
  have hslots := h.slots
  have hid : (self name).slot = fun r => r := funext (slot_of_value rfl)
  rw [hid, Array.map_id', Array.map_id'] at hslots
  exact ⟨h.nextId, h.nodes, h.slotBase, by rw [hslots], h.log⟩

/-- A warning on one side makes no difference. -/
theorem Agree.warn_left {e : Event} (he : e.level = .warn) (h : a.Agree R x y) : a.Agree R (do note e; x) y :=
  fun _ t hst => h _ t ⟨hst.nextId, hst.nodes, hst.slotBase, hst.slots, (unwarned_warning he _).trans hst.log⟩

/-- A warning on the other side makes no difference. -/
theorem Agree.warn_right {e : Event} (he : e.level = .warn) (h : a.Agree R x y) : a.Agree R x (do note e; y) :=
  fun s _ hst => h s _
    ⟨hst.nextId, hst.nodes, hst.slotBase, hst.slots, hst.log.trans (unwarned_warning he _).symm⟩

/-- Warnings on both sides. -/
theorem Agree.warn {e e' : Event} (he : e.level = .warn) (he' : e'.level = .warn) (h : a.Agree R x y) :
    a.Agree R (do note e; x) (do note e'; y) := (h.warn_right he').warn_left he

theorem agree_note (e : Event) : a.Agree (fun _ _ => True) (note e) (note e) :=
  Together.modify fun s t hst => ⟨hst.nextId, hst.nodes, hst.slotBase, hst.slots, by
    rw [unwarned_cons e s.log, unwarned_cons e t.log, hst.log]⟩

theorem agree_place (cell : Bit → Bit → Cell) (v w : Wire) : a.Agree Eq (place cell v w) (place cell v w) := by
  refine Together.modifyGet fun s t hst => ?_
  refine ⟨?_, ?_, ?_, hst.slotBase, hst.slots, hst.log⟩
  · simp only [hst.nextId]
  · simp only [hst.nextId]
  · simp only [hst.nextId, hst.nodes]

/-- Slots of names with the same root. -/
theorem agree_readForward {name name' : String} (h : a.root name = a.root name') (lo count : Nat) :
    a.Agree Eq (readForward name lo count) (readForward name' lo count) := by
  unfold readForward
  split
  · exact Agree.throw_bind _
  · refine Together.modifyGet fun s t hst => ?_
    refine ⟨?_, hst.nextId, hst.nodes, hst.slotBase, ?_, hst.log⟩
    · simp only [hst.slotBase, hst.slots_size]
    have hnew : ∀ other, (Array.ofFn fun i : Fin count => ForwardSlot.mk other (lo + i)).map a.slot =
        Array.ofFn fun i : Fin count => ForwardSlot.mk (a.root other) (lo + i) := fun other => Array.map_ofFn ..
    rw [Array.map_append, Array.map_append, hst.slots, hnew, hnew, h]

theorem agree_checkArity (name : String) (expected found : Nat) :
    a.Agree (fun _ _ => expected = found) (checkArity name expected found) (checkArity name expected found) := by
  unfold checkArity
  split
  · next h => exact Together.pure h
  · exact Agree.throw _

end Steps

/-! ## Signals -/

section Signals

variable {a : Alias} {b b' : Body} {scope scope' : Scope Signal} {x x' y y' : Signal}

theorem agree_materialize (hs : a.Scopes scope scope') (h : a.signal x = a.signal x') (want : Option Nat) :
    a.Agree Eq (materialize b scope x want) (materialize b' scope' x' want) := by
  have hsame := hs.follow h
  have hzeros : a.Agree Eq (pure (Wire.zeros (want.getD 1))) (pure (Wire.zeros (want.getD 1))) := Together.pure rfl
  unfold materialize
  generalize follow scope x = u, follow scope' x' = v at hsame
  cases hsame with
  | forward hroot => exact agree_readForward hroot 0 _
  | refl u =>
    cases u with
    | bundle fields =>
      match fields with
      | [] => exact hzeros.warn rfl rfl
      | [(_, w)] => exact Together.pure rfl
      | _ :: _ :: _ => exact hzeros.warn rfl rfl
    | forward name => exact agree_readForward rfl 0 _
    | _ => exact Together.pure rfl

theorem agree_fitted (hs : a.Scopes scope scope') (h : a.signal x = a.signal x') (width : Nat) :
    a.Agree Eq (fitted b scope x width) (fitted b' scope' x' width) :=
  (agree_materialize hs h (some width)).bind fun _ _ hw => Together.pure (congrArg (Wire.fit · width) hw)

theorem agree_extract (hs : a.Scopes scope scope') (h : a.signal x = a.signal x') (r : BitRange) :
    a.Agree Eq (do
      let w ← materialize b scope x none
      if w.width ≤ r.hi then note (.bitOutOfRange r.hi w.width b.module.name)
      return w.extract r.lo r.width) (do
      let w ← materialize b' scope' x' none
      if w.width ≤ r.hi then note (.bitOutOfRange r.hi w.width b'.module.name)
      return w.extract r.lo r.width) := by
  refine (agree_materialize hs h none).bind fun w w' hw => ?_
  subst hw
  have hpure : a.Agree Eq (pure (w.extract r.lo r.width)) (pure (w.extract r.lo r.width)) := Together.pure rfl
  split
  · exact hpure.warn rfl rfl
  · exact hpure

theorem agree_project (hs : a.Scopes scope scope') (h : a.signal x = a.signal x') (r : BitRange) :
    a.Agree Eq (project b scope x r) (project b' scope' x' r) := by
  have hsame := hs.follow h
  unfold project
  generalize follow scope x = u, follow scope' x' = v at hsame
  cases hsame with
  | forward hroot => exact agree_readForward hroot r.lo r.width
  | refl u =>
    cases u with
    | wire w => exact agree_extract hs rfl r
    | bundle fields => exact agree_extract hs rfl r
    | forward name => exact agree_readForward rfl r.lo r.width
    | _ => exact Together.pure rfl

theorem agree_blackBox : a.Agree a.Like (pure .blackBox) (pure .blackBox) := Together.pure (Like.refl _)

theorem agree_field (hs : a.Scopes scope scope') (h : a.signal x = a.signal x') (object object' : Expr)
    (name : String) : a.Agree a.Like (field scope object x name) (field scope' object' x' name) := by
  have hsame := hs.follow h
  unfold field
  generalize follow scope x = u, follow scope' x' = v at hsame
  cases hsame with
  | forward => exact agree_blackBox.warn rfl rfl
  | refl u =>
    cases u with
    | bundle fields =>
      simp only
      cases fields.find? (·.1 = name) with
      | none => exact agree_blackBox.warn rfl rfl
      | some f => exact Together.pure (Like.refl _)
    | blackBox => exact agree_blackBox
    | _ => exact agree_blackBox.warn rfl rfl

/-- Gates over two signals brought to one width. -/
theorem agree_gates (hs : a.Scopes scope scope') (hx : a.signal x = a.signal x') (hy : a.signal y = a.signal y')
    (width : Nat) : a.Agree a.Like (do
      let x ← fitted b scope x width
      let y ← fitted b scope y width
      return .wire (← place .nand x y)) (do
      let x ← fitted b' scope' x' width
      let y ← fitted b' scope' y' width
      return .wire (← place .nand x y)) := by
  refine (agree_fitted hs hx width).bind fun v v' hv => (agree_fitted hs hy width).bind fun w w' hw => ?_
  subst hv hw
  exact (agree_place .nand v w).bind fun z z' hz => Together.pure (hz ▸ Like.refl _)

/-- NAND gates agree, if they agree about natural widths wherever these count. -/
theorem agree_nand (hs : a.Scopes scope scope') (hx : a.Like x x') (hy : a.Like y y') (want : Option Nat)
    (hwidth : want = none → knownWidth scope x = none → knownWidth scope y = none →
      max x.naturalWidth y.naturalWidth = max x'.naturalWidth y'.naturalWidth) :
    a.Agree a.Like (nand b scope want x y) (nand b' scope' want x' y') := by
  -- a name that is read early insists on no width of its own in either run
  unfold nand
  rw [← hs.knownWidth_eq hx.same, ← hs.knownWidth_eq hy.same]
  cases hv : knownWidth scope x with
  | none =>
    cases hw : knownWidth scope y with
    | none =>
      have hnatural : want.getD (max x.naturalWidth y.naturalWidth) =
          want.getD (max x'.naturalWidth y'.naturalWidth) := by
        cases want with
        | some n => rfl
        | none => rw [hwidth rfl hv hw]
      rw [hnatural]
      exact agree_gates hs hx.same hy.same _
    | some w => exact agree_gates hs hx.same hy.same w
  | some v =>
    cases knownWidth scope y with
    | none => exact agree_gates hs hx.same hy.same v
    | some w =>
      by_cases heq : v = w
      · simp only [if_pos heq, pure_bind]
        exact agree_gates hs hx.same hy.same v
      · simp only [if_neg heq]
        exact Agree.throw_bind _

/-- Flip-flops agree, if they agree about the natural width of the data wherever it counts. -/
theorem agree_dff (hs : a.Scopes scope scope') (hx : a.Like x x') (hy : a.Like y y') (want : Option Nat)
    (hwidth : want = none → knownWidth scope x = none → x.naturalWidth = x'.naturalWidth) :
    a.Agree a.Like (dff b scope want x y) (dff b' scope' want x' y') := by
  have hdata : (knownWidth scope x).getD (want.getD x.naturalWidth) =
      (knownWidth scope x).getD (want.getD x'.naturalWidth) := by
    cases hv : knownWidth scope x with
    | some v => rfl
    | none =>
      cases want with
      | some n => rfl
      | none => rw [hwidth rfl hv]
  unfold dff
  rw [← hs.knownWidth_eq hx.same, ← hs.knownWidth_eq hy.same, hdata]
  generalize (knownWidth scope x).getD (want.getD x'.naturalWidth) = width
  refine (agree_fitted hs hx.same width).bind fun v v' hv => ?_
  subst hv
  have hcells : ∀ w w' : Wire, w = w' → a.Agree a.Like (do return .wire (← place .dff v w))
      (do return .wire (← place .dff v w')) := fun w w' hw =>
    hw ▸ (agree_place .dff v w).bind fun z z' hz => Together.pure (hz ▸ Like.refl _)
  -- one bit of clock is shared by all bits of data
  have hshared : a.Agree a.Like (do
      let c ← fitted b scope y 1
      let clk ← pure (.ofFn width fun _ => c.bitOrZero 0)
      return .wire (← place .dff v clk)) (do
      let c ← fitted b' scope' y' 1
      let clk ← pure (.ofFn width fun _ => c.bitOrZero 0)
      return .wire (← place .dff v clk)) := by
    refine (agree_fitted hs hy.same 1).bind fun c c' hc => ?_
    subst hc
    exact hcells _ _ rfl
  split
  · exact hshared
  · exact hshared
  · split
    · exact (agree_materialize hs hy.same (some width)).bind hcells
    · exact Agree.throw_bind _

end Signals

end Alias

end NandHdl
