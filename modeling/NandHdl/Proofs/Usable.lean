import NandHdl.Proofs.Guarded
import NandHdl.Proofs.Prophecy

/-!
# Expressions and statements stay in range

While a body is open, every wire in it has bits, and the slots that it names are open. So a subtraction, a place or a
width that the body comes to is never out of range. The same holds of what is asked for: it is bits, if it is
anything.

* `Wire.Usable`, `Signal.Usable`, `Scope.Usable`: wires with bits that name open slots only.
* `Frame.rows`: the rows of an open body, behind those of the bodies around it.
* `Safe`: a step does the same with its accesses checked, and what it gives can be used. `Safe.bind`: one step after
  another.
* `safe_materialize`, `safe_project`, `safe_nand`, `safe_dff`: signals.
* `safe_expr_arguments`: **nothing is out of range in an expression.**
* `safe_assign`: **nothing is out of range in a statement.**
* `safe_outputs`, `safe_locals`: what a body offers.
-/

namespace NandHdl

/-! ## What can be used -/

/-- The wire has bits, and the slots that it names are open. -/
structure Wire.Usable (limit : Nat) (w : Wire) : Prop where
  wide : 0 < w.width
  slots : w.All (·.slotBelow limit)

/-- All wires of the signal can be used. -/
def Signal.Usable (limit : Nat) (x : Signal) : Prop := ∀ w ∈ x.wires, w.Usable limit

/-- All that is bound can be used. -/
def Scope.Usable (limit : Nat) (scope : Scope Signal) : Prop := ∀ e ∈ scope.newestFirst, e.2.Usable limit

section Usable

variable {limit limit' n : Nat} {w part : Wire} {x : Signal} {scope : Scope Signal} {name : String}

theorem Wire.Usable.mono (hle : limit ≤ limit') (h : w.Usable limit) : w.Usable limit' :=
  ⟨h.wide, h.slots.imp fun _ => Bit.slotBelow_mono hle⟩

theorem Wire.usable_ofFn {f : Nat → Bit} (hn : 0 < n) (h : ∀ i < n, (f i).slotBelow limit) :
    (Wire.ofFn n f).Usable limit := ⟨by rwa [Wire.width_ofFn], Wire.all_ofFn h⟩

theorem Wire.usable_zeros (hn : 0 < n) : (Wire.zeros n).Usable limit :=
  ⟨by rwa [Wire.width_zeros], Wire.all_zeros (by rfl) n⟩

theorem Wire.usable_constant (value : Nat) (hn : 0 < n) : (Wire.constant value n).Usable limit :=
  Wire.usable_ofFn hn fun _ _ => rfl

theorem Wire.Usable.fit (h : w.Usable limit) (hn : 0 < n) : (w.fit n).Usable limit :=
  Wire.usable_ofFn hn fun i _ => h.slots.bitOrZero (by rfl) i

theorem Wire.Usable.extract (h : w.Usable limit) (lo : Nat) (hn : 0 < n) : (w.extract lo n).Usable limit :=
  Wire.usable_ofFn hn fun i _ => h.slots.bitOrZero (by rfl) (lo + i)

theorem Wire.Usable.splice (h : w.Usable limit) (hpart : part.Usable limit) (lo : Nat) :
    (w.splice lo part).Usable limit :=
  ⟨by rw [Wire.width_splice]; exact h.wide, h.slots.splice (by rfl) hpart.slots lo⟩

namespace Signal

theorem Usable.mono (hle : limit ≤ limit') (h : x.Usable limit) : x.Usable limit' :=
  fun w hw => (h w hw).mono hle

theorem usable_wire (h : w.Usable limit) : (wire w).Usable limit := List.forall_mem_singleton.2 h

theorem usable_literal (value : Nat) : (literal value).Usable limit := List.forall_mem_nil _

theorem usable_blackBox : blackBox.Usable limit := List.forall_mem_nil _

theorem usable_bundle {fields : List (String × Wire)} :
    (bundle fields).Usable limit ↔ ∀ f ∈ fields, f.2.Usable limit := List.forall_mem_map

theorem Usable.wide (h : x.Usable limit) : x.Wide := fun w hw => (h w hw).wide

theorem Usable.wire? (h : x.Usable limit) (hw : x.wire? = some w) : w.Usable limit := by
  unfold Signal.wire? at hw
  split at hw
  · cases hw
    exact h _ (List.mem_singleton.2 rfl)
  · cases hw
    exact h _ (List.mem_singleton.2 rfl)
  · cases hw

theorem Usable.bitOrZero (h : x.Usable limit) (i : Nat) : (x.bitOrZero i).slotBelow limit := by
  unfold Signal.bitOrZero
  split
  · rfl
  · split
    · next w hw => exact (h.wire? hw).slots.bitOrZero (by rfl) i
    · rfl

end Signal

namespace Scope

theorem Usable.mono (hle : limit ≤ limit') (h : scope.Usable limit) : scope.Usable limit' :=
  fun e he => (h e he).mono hle

theorem Usable.lookup (h : scope.Usable limit) (hx : scope.lookup name = some x) : x.Usable limit :=
  h _ (Scope.mem_of_lookup hx)

theorem Usable.bind (h : scope.Usable limit) (hx : x.Usable limit) (name : String) :
    (scope.bind name x).Usable limit := List.forall_mem_cons.2 ⟨hx, h⟩

/-- What is bound last is bound. -/
theorem Usable.latest (h : scope.Usable limit) : ∀ e ∈ scope.latest, e.2.Usable limit :=
  fun e he => h e (Scope.mem_of_mem_latest he)

end Scope

/-- Following names leads to what is bound. -/
theorem Signal.Usable.follow (hscope : scope.Usable limit) (hx : x.Usable limit) :
    (NandHdl.follow scope x).Usable limit := by
  rcases Relation.ReflTransGen.cases_tail (follow_reaches scope x) with heq | ⟨_, _, name, rfl, hy⟩
  · rwa [heq]
  · exact hscope.lookup hy

theorem knownWidth_pos (hscope : scope.Usable limit) (hx : x.Usable limit) (h : knownWidth scope x = some n) :
    0 < n := by
  obtain ⟨w, hw, rfl⟩ := Option.map_eq_some_iff.1 h
  exact ((hx.follow hscope).wire? hw).wide

theorem naturalWidth_pos (x : Signal) : 0 < x.naturalWidth := by
  cases x with
  | literal value =>
    change 0 < bitLength value
    rw [bitLength]
    split <;> omega
  | _ => exact Nat.one_pos

end Usable

/-- Bits are asked for in a number that is not 0, or not asked for. -/
def Asked (want : Option Nat) : Prop := ∀ n, want = some n → 0 < n

theorem asked_none : Asked none := nofun

theorem asked_some {n : Nat} (h : 0 < n) : Asked (some n) := fun _ hn => Option.some.inj hn ▸ h

theorem Asked.getD {want : Option Nat} (h : Asked want) {n : Nat} (hn : 0 < n) : 0 < want.getD n := by
  cases want with
  | none => exact hn
  | some k => exact h k rfl

theorem Asked.ne {want : Option Nat} (h : Asked want) : want ≠ some 0 := fun h0 => Nat.lt_irrefl 0 (h 0 h0)

namespace Elaboration

namespace Guarded

/-! ## Steps in rows -/

/-- What lies around an open body: the nodes and the slots of the bodies around it. -/
structure Frame where
  nodes : Array Node
  slots : Array ForwardSlot

/-- The rows of a body and of those around it. -/
def Frame.rows (F : Frame) (s : State) : Rows := ⟨s.nextId, F.nodes ++ s.nodes, F.slots ++ s.slots, s.log⟩

/-- The nodes of the open body name open slots only. -/
def Tidy (s : State) : Prop := ∀ n ∈ s.nodes, n.cell.All (·.slotBelow s.limit)

/-- The error is not one of the elaborator's own checks. -/
def Declared (e : CompileError) : Prop := ∀ fault, e ≠ .fault fault

/-- The same body is open, and its slots are still open. -/
structure Later (s s' : State) : Prop where
  slotBase : s'.slotBase = s.slotBase
  limit : s.limit ≤ s'.limit

/-- **Whatever `x` does, `y` does in rows**, and finds nothing out of range. What `x` gives has the property `P`. -/
def Safe {α : Type} (F : Frame) (s : State) (x : Build α) (y : Step α) (P : Nat → α → Prop) : Prop :=
  F.slots.size = s.slotBase → Tidy s →
    (∃ a s', Gives x s a s' ∧ ExceptT.run y (F.rows s) = some (.ok a, F.rows s') ∧ Later s s' ∧ Tidy s' ∧
      P s'.limit a) ∨
    ∃ e s' r, Fails x s e s' ∧ ExceptT.run y (F.rows s) = some (.error e, r) ∧ r.log = s'.log ∧ Declared e

section Steps

variable {α β : Type} {F : Frame} {s s' : State} {x : Build α} {y : Step α} {P Q : Nat → α → Prop}
  {R : Nat → β → Prop}

theorem Later.refl (s : State) : Later s s := ⟨rfl, Nat.le_refl _⟩

theorem Later.trans {s'' : State} (h : Later s s') (h' : Later s' s'') : Later s s'' :=
  ⟨h'.slotBase.trans h.slotBase, Nat.le_trans h.limit h'.limit⟩

theorem run_step_bind (y : Step α) (k : α → Step β) (r : Rows) :
    ExceptT.run (y >>= k) r = match ExceptT.run y r with
      | none => none
      | some (.ok a, r') => ExceptT.run (k a) r'
      | some (.error e, r') => some (.error e, r') := by
  change (ExceptT.run y r).bind (fun p => ExceptT.bindCont k p.1 p.2) = _
  rcases ExceptT.run y r with _ | ⟨_ | a, r'⟩ <;> rfl

theorem run_step_bind_of {k : α → Step β} {r r' : Rows} {a : α} (h : ExceptT.run y r = some (.ok a, r')) :
    ExceptT.run (y >>= k) r = ExceptT.run (k a) r' := by rw [run_step_bind, h]

theorem run_get (r : Rows) : ExceptT.run (get : Step Rows) r = some (.ok r, r) := rfl

theorem Safe.imp (h : Safe F s x y P) (hPQ : ∀ limit a, P limit a → Q limit a) : Safe F s x y Q := by
  intro hF hs
  rcases h hF hs with ⟨a, s', hx, hy, hlater, hs', ha⟩ | hfails
  · exact .inl ⟨a, s', hx, hy, hlater, hs', hPQ _ a ha⟩
  · exact .inr hfails

theorem Safe.pure {a : α} (ha : P s.limit a) : Safe F s (pure a) (pure a) P :=
  fun _ hs => .inl ⟨a, s, gives_pure.2 ⟨rfl, rfl⟩, rfl, .refl s, hs, ha⟩

theorem Safe.bind {k : α → Build β} {l : α → Step β} (hx : Safe F s x y P)
    (hk : ∀ a s', s.limit ≤ s'.limit → P s'.limit a → Safe F s' (k a) (l a) R) :
    Safe F s (x >>= k) (y >>= l) R := by
  intro hF hs
  rcases hx hF hs with ⟨a, s', hx, hy, hlater, hs', ha⟩ | ⟨e, s', r, hx, hy, hlog, he⟩
  · rcases hk a s' hlater.limit ha (hF.trans hlater.slotBase.symm) hs' with
      ⟨b, s'', hk, hl, hlater', hs'', hb⟩ | ⟨e, s'', r, hk, hl, hlog, he⟩
    · exact .inl ⟨b, s'', gives_bind.2 ⟨a, s', hx, hk⟩, (run_step_bind_of hy).trans hl, hlater.trans hlater',
        hs'', hb⟩
    · exact .inr ⟨e, s'', r, fails_bind.2 (.inr ⟨a, s', hx, hk⟩), (run_step_bind_of hy).trans hl, hlog, he⟩
  · exact .inr ⟨e, s', r, fails_bind.2 (.inl hx), by rw [run_step_bind, hy], hlog, he⟩

theorem Safe.throw {e : CompileError} (he : Declared e) : Safe F s (throw e : Build α) (throw e) P :=
  fun _ _ => .inr ⟨e, s, F.rows s, rfl, rfl, rfl, he⟩

theorem Safe.throw_bind {e : CompileError} (he : Declared e) (k : α → Build β) (l : α → Step β) :
    Safe F s (MonadExcept.throw e >>= k) (MonadExcept.throw e >>= l) R :=
  fun _ _ => .inr ⟨e, s, F.rows s, rfl, rfl, rfl, he⟩

theorem safe_note (e : Event) : Safe F s (Elaboration.note e) (note e) fun _ _ => True :=
  fun _ hs => .inl ⟨(), _, gives_note.2 rfl, rfl, ⟨rfl, Nat.le_refl _⟩, hs, trivial⟩

/-- A report, and something besides. -/
theorem safe_note_pure (e : Event) {a : α} (ha : ∀ limit, P limit a) :
    Safe F s (do Elaboration.note e; return a) (do note e; return a) P :=
  (safe_note e).bind fun _ _ _ _ => .pure (ha _)

theorem access_some (a : α) : access (some a) = Pure.pure a := rfl

theorem require_of {p : Prop} [Decidable p] (h : p) : require p = Pure.pure () := by
  rw [require, if_pos h]
  rfl

theorem wide_of {w : Wire} (h : 0 < w.width) : wide w = Pure.pure w := by
  rw [wide, require_of h, pure_bind]

theorem minus?_of {n k : Nat} (h : k ≤ n) : minus? n k = some (n - k) := if_pos h

/-- A wire that can be used passes the check of its width. -/
theorem Safe.wide {x : Build Wire} {y : Step Wire} (h : Safe F s x y Wire.Usable) :
    Safe F s x (y >>= wide) Wire.Usable := by
  have hbind : Safe F s (x >>= Pure.pure) (y >>= Guarded.wide) Wire.Usable := h.bind fun w s' _ hw => by
    rw [wide_of hw.wide]
    exact .pure hw
  rwa [bind_pure] at hbind

theorem safe_wide {w : Wire} (h : w.Usable s.limit) : Safe F s (Pure.pure w) (wide w) Wire.Usable := by
  rw [wide_of h.wide]
  exact .pure h

theorem Safe.asked {x : Build Signal} {y : Step Signal} {want : Option Nat} (hwant : Asked want)
    (h : Safe F s x y Signal.Usable) : Safe F s x (asked want y) Signal.Usable := by
  have hbind : Safe F s (x >>= Pure.pure) (do let z ← y; require z.Wide; return z) Signal.Usable :=
    h.bind fun z s' _ hz => by
      rw [require_of hz.wide, pure_bind]
      exact .pure hz
  rw [Guarded.asked, require_of hwant.ne, pure_bind]
  rwa [bind_pure] at hbind

end Steps

/-! ## Nodes and slots -/

section Nodes

variable {F : Frame} {s : State} {v w : Wire}

/-- New nodes are behind all there are, and so are their cells' slots. -/
theorem safe_place {cell : Bit → Bit → Cell} (hinputs : ∀ a b, (cell a b).inputs = [a, b])
    (hv : v.Usable s.limit) (hw : w.Usable s.limit) :
    Safe F s (Elaboration.place cell v w) (place cell v w) Wire.Usable := by
  intro _ hs
  refine .inl ⟨_, _, Renaming.gives_place.2 ⟨rfl, rfl⟩, ?_, ⟨rfl, Nat.le_refl _⟩, fun n hn => ?_, ?_⟩
  · simp only [Frame.rows, Renaming.withCells, Renaming.cellsOf, ← Array.append_assoc]
    rfl
  · rcases Array.mem_append.1 hn with hn | hn
    · exact hs n hn
    · obtain ⟨i, hi, rfl⟩ := Array.mem_mapIdx.1 hn
      exact Renaming.all_cellsOf hinputs hv.slots hw.slots _ (Array.getElem_mem hi)
  · refine Wire.usable_ofFn ?_ fun i _ => rfl
    rw [Renaming.cellsOf, Array.size_zipWith]
    exact Nat.lt_min.2 ⟨hv.wide, hw.wide⟩

/-- New slots are behind all there are. -/
theorem safe_readForward (name : String) {lo hi count : Nat} (hlo : lo ≤ hi) (hcount : count = hi + 1 - lo) :
    Safe F s (Elaboration.readForward name lo count) (readForward name lo hi) Wire.Usable := by
  subst hcount
  have hsize : s.limit ≤ s.slotBase + (s.slots ++ Array.ofFn fun i : Fin (hi + 1 - lo) =>
      (⟨name, lo + i⟩ : ForwardSlot)).size := by
    rw [Array.size_append, State.limit]
    omega
  intro hF hs
  refine .inl ⟨_, _, Renaming.gives_readForward.2 ⟨by omega, rfl, rfl⟩, ?_, ⟨rfl, hsize⟩, fun n hn => ?_, ?_⟩
  · have hlimit : (F.slots ++ s.slots).size = s.limit := by rw [Array.size_append, hF, State.limit]
    simp only [Frame.rows, ← Array.append_assoc, ← hlimit]
    rfl
  · exact (hs n hn).imp fun _ => Bit.slotBelow_mono hsize
  · refine Wire.usable_ofFn (by omega) fun i hi => decide_eq_true ?_
    simp only [State.limit, Array.size_append, Array.size_ofFn]
    omega

end Nodes

/-! ## Signals -/

section Signals

variable {F : Frame} {s : State} {b : Elaboration.Body} {scope : Scope Signal} {x y : Signal} {want : Option Nat}
  {n : Nat}

theorem safe_materialize (hscope : scope.Usable s.limit) (hx : x.Usable s.limit) (hwant : Asked want) :
    Safe F s (Elaboration.materialize b scope x want) (materialize b.module scope x want) Wire.Usable := by
  have husable := hx.follow hscope
  have hwidth : 0 < want.getD 1 := hwant.getD Nat.one_pos
  unfold Elaboration.materialize materialize
  rw [require_of hwant.ne, pure_bind]
  cases hf : follow scope x with
  | wire w =>
    rw [hf] at husable
    exact safe_wide (husable w List.mem_cons_self)
  | bundle fields =>
    have hnote : ∀ count, Safe F s (do
        Elaboration.note (.bundleAsWire count b.module.name)
        return .zeros (want.getD 1)) (do
        note (.bundleAsWire count b.module.name)
        wide (.zeros (want.getD 1))) Wire.Usable := fun count =>
      (safe_note _).bind fun _ _ _ _ => safe_wide (Wire.usable_zeros hwidth)
    match fields with
    | [] => exact hnote _
    | [(_, w)] =>
      rw [hf] at husable
      exact safe_wide (husable w List.mem_cons_self)
    | _ :: _ :: _ => exact hnote _
  | literal value =>
    have hlength : 0 < bitLength value := naturalWidth_pos (.literal value)
    exact safe_wide (Wire.usable_constant value (hwant.getD hlength))
  | blackBox => exact safe_wide (Wire.usable_zeros hwidth)
  | forward name =>
    dsimp only
    rw [minus?_of hwidth, access_some, pure_bind]
    exact (safe_readForward name (Nat.zero_le _) (by omega)).wide

theorem safe_fitted (hscope : scope.Usable s.limit) (hx : x.Usable s.limit) (hn : 0 < n) :
    Safe F s (Elaboration.fitted b scope x n) (fitted b.module scope x n) fun limit w =>
      w.Usable limit ∧ w.width = n := by
  refine (safe_materialize hscope hx (asked_some hn)).bind fun w s' _ hw => ?_
  rw [wide_of (by rwa [Wire.width_fit])]
  exact .pure ⟨hw.fit hn, Wire.width_fit w n⟩

theorem safe_project (hscope : scope.Usable s.limit) (hx : x.Usable s.limit) (r : BitRange) :
    Safe F s (Elaboration.project b scope x r) (project b.module scope x r) Wire.Usable := by
  have hr : 0 < r.width := r.width_pos
  have hextract : ∀ z : Signal, z.Usable s.limit → Safe F s (do
      let w ← Elaboration.materialize b scope z none
      if w.width ≤ r.hi then Elaboration.note (.bitOutOfRange r.hi w.width b.module.name)
      return w.extract r.lo r.width) (do
      let w ← materialize b.module scope z none
      if w.width ≤ r.hi then note (.bitOutOfRange r.hi w.width b.module.name)
      wide (w.extract r.lo r.width)) Wire.Usable := by
    intro z hz
    refine (safe_materialize hscope hz asked_none).bind fun w s' _ hw => ?_
    split
    · refine (safe_note _).bind fun _ s'' hle _ => safe_wide ?_
      exact (hw.mono hle).extract r.lo hr
    · exact safe_wide (hw.extract r.lo hr)
  have husable := hx.follow hscope
  unfold Elaboration.project project
  rw [minus?_of r.lo_le_hi, access_some, pure_bind, ← BitRange.width]
  cases hf : follow scope x with
  | wire w => exact hextract (.wire w) (hf ▸ husable)
  | bundle fields => exact hextract (.bundle fields) (hf ▸ husable)
  | literal value => exact safe_wide (Wire.usable_ofFn hr fun _ _ => rfl)
  | blackBox => exact safe_wide (Wire.usable_zeros hr)
  | forward name =>
    have hwidth : r.width = r.hi + 1 - r.lo := by
      have hle := r.lo_le_hi
      rw [BitRange.width]
      omega
    exact (safe_readForward name r.lo_le_hi hwidth).wide

theorem safe_field (hscope : scope.Usable s.limit) (hx : x.Usable s.limit) (object : Expr) (name : String) :
    Safe F s (Elaboration.field scope object x name) (field scope object x name) Signal.Usable := by
  have husable := hx.follow hscope
  have hnone : ∀ e, Safe F s (do Elaboration.note e; return .blackBox) (do note e; return .blackBox)
      Signal.Usable := fun e => safe_note_pure e fun _ => nofun
  unfold Elaboration.field field
  cases hf : follow scope x with
  | bundle fields =>
    rw [hf, Signal.usable_bundle] at husable
    dsimp only
    cases hfind : fields.find? fun g => decide (g.1 = name) with
    | none => exact hnone _
    | some g => exact .pure (Signal.usable_wire (husable g (List.mem_of_find?_eq_some hfind)))
  | blackBox => exact .pure nofun
  | _ => exact hnone _

theorem safe_nameSignal (hscope : scope.Usable s.limit) (name : String) :
    Safe F s (Elaboration.nameSignal b scope name) (nameSignal b.module scope name) Signal.Usable := by
  unfold Elaboration.nameSignal nameSignal
  cases hx : scope.lookup name with
  | some x => exact .pure (hscope.lookup hx)
  | none =>
    dsimp only
    split
    · exact .pure nofun
    · exact safe_note_pure _ fun _ => nofun

/-- Gates over two signals that are brought to one width. -/
theorem safe_gates (hscope : scope.Usable s.limit) (hx : x.Usable s.limit) (hy : y.Usable s.limit) (hn : 0 < n) :
    Safe F s (do
      let x ← Elaboration.fitted b scope x n
      let y ← Elaboration.fitted b scope y n
      return Signal.wire (← Elaboration.place .nand x y)) (do
      let x ← fitted b.module scope x n
      let y ← fitted b.module scope y n
      return Signal.wire (← place .nand x y)) Signal.Usable := by
  refine (safe_fitted hscope hx hn).bind fun v s₁ h₁ hv => ?_
  refine (safe_fitted (hscope.mono h₁) (hy.mono h₁) hn).bind fun w s₂ h₂ hw => ?_
  refine (safe_place (fun _ _ => rfl) (hv.1.mono h₂) hw.1).bind fun u s₃ _ hu => ?_
  exact .pure (Signal.usable_wire hu)

theorem safe_nand (hscope : scope.Usable s.limit) (hwant : Asked want) (hx : x.Usable s.limit)
    (hy : y.Usable s.limit) :
    Safe F s (Elaboration.nand b scope want x y) (nand b.module scope want x y) Signal.Usable := by
  unfold Elaboration.nand nand
  cases hw : knownWidth scope x with
  | none =>
    cases hv : knownWidth scope y with
    | none =>
      simp only [pure_bind]
      exact safe_gates hscope hx hy (hwant.getD (Nat.lt_of_lt_of_le (naturalWidth_pos x) (Nat.le_max_left _ _)))
    | some v =>
      simp only [pure_bind]
      exact safe_gates hscope hx hy (knownWidth_pos hscope hy hv)
  | some w =>
    have hpos := knownWidth_pos hscope hx hw
    cases knownWidth scope y with
    | none =>
      simp only [pure_bind]
      exact safe_gates hscope hx hy hpos
    | some v =>
      dsimp only
      split
      · simp only [pure_bind]
        exact safe_gates hscope hx hy hpos
      · exact Safe.throw_bind (fun _ => by simp) _ _

/-- One bit of clock is shared by all bits of data. -/
theorem safe_shared (hscope : scope.Usable s.limit) {v : Wire} (hv : v.Usable s.limit) (hy : y.Usable s.limit)
    (hn : 0 < n) :
    Safe F s (do
      let c ← Elaboration.fitted b scope y 1
      return Signal.wire (← Elaboration.place .dff v (.ofFn n fun _ => c.bitOrZero 0))) (do
      let c ← fitted b.module scope y 1
      let bit ← access (c.bit? 0)
      return Signal.wire (← place .dff v (.ofFn n fun _ => bit))) Signal.Usable := by
  refine (safe_fitted hscope hy Nat.one_pos).bind fun c s₁ h₁ hc => ?_
  -- the clock has a first bit
  have hbit : c.bit? 0 = some (c.bitOrZero 0) := by
    have hsize : 0 < c.bits.size := hc.1.wide
    rw [Wire.bit?, Wire.bitOrZero, Array.getD_eq_getD_getElem?, Array.getElem?_eq_getElem hsize, Option.getD_some]
  rw [hbit, access_some, pure_bind]
  have hclk : (Wire.ofFn n fun _ => c.bitOrZero 0).Usable s₁.limit :=
    Wire.usable_ofFn hn fun _ _ => hc.1.slots.bitOrZero (by rfl) 0
  exact (safe_place (fun _ _ => rfl) (hv.mono h₁) hclk).bind fun u s₂ _ hu => .pure (Signal.usable_wire hu)

/-- A clock that is as wide as the data. -/
theorem safe_wideClock (hscope : scope.Usable s.limit) {v : Wire} (hv : v.Usable s.limit) (hy : y.Usable s.limit)
    (hn : 0 < n) (w : Nat) :
    Safe F s (do
      let clk ← if w = n then Elaboration.materialize b scope y (some n) else throw (.widthMismatch "dff" n w)
      return Signal.wire (← Elaboration.place .dff v clk)) (do
      let clk ← if w = n then materialize b.module scope y (some n) else throw (.widthMismatch "dff" n w)
      return Signal.wire (← place .dff v clk)) Signal.Usable := by
  split
  · refine (safe_materialize hscope hy (asked_some hn)).bind fun clk s₁ h₁ hclk => ?_
    exact (safe_place (fun _ _ => rfl) (hv.mono h₁) hclk).bind fun u s₂ _ hu => .pure (Signal.usable_wire hu)
  · exact Safe.throw_bind (fun _ => by simp) _ _

theorem safe_dff (hscope : scope.Usable s.limit) (hwant : Asked want) (hx : x.Usable s.limit)
    (hy : y.Usable s.limit) :
    Safe F s (Elaboration.dff b scope want x y) (dff b.module scope want x y) Signal.Usable := by
  unfold Elaboration.dff dff
  have hn : 0 < (knownWidth scope x).getD (want.getD x.naturalWidth) := by
    cases hw : knownWidth scope x with
    | none => exact hwant.getD (naturalWidth_pos x)
    | some w => exact knownWidth_pos hscope hx hw
  generalize (knownWidth scope x).getD (want.getD x.naturalWidth) = n at hn
  refine (safe_fitted hscope hx hn).bind fun v s₁ h₁ hv => ?_
  have hscope₁ := hscope.mono h₁
  have hy₁ := hy.mono h₁
  cases knownWidth scope y with
  | none =>
    simp only [pure_bind]
    exact safe_shared hscope₁ hv.1 hy₁ hn
  | some w =>
    match w with
    | 0 => exact safe_wideClock hscope₁ hv.1 hy₁ hn 0
    | 1 =>
      simp only [pure_bind]
      exact safe_shared hscope₁ hv.1 hy₁ hn
    | w + 2 => exact safe_wideClock hscope₁ hv.1 hy₁ hn (w + 2)

end Signals

/-! ## Expressions and statements -/

/-- All ports have bits. -/
def Wide (ps : List Port) : Prop := ∀ p ∈ ps, 0 < p.width

/-- The outputs of an instance can be used. -/
def UsableAll (limit : Nat) (ws : List (String × Wire)) : Prop := ∀ w ∈ ws, w.2.Usable limit

/-- An instance of `c` is one of `c'` in rows. -/
structure Callee.Safe (c : Elaboration.Callee) (c' : Callee) : Prop where
  name : c'.name = c.name
  inputs : c'.inputs = c.inputs
  wide : Wide c.inputs
  instantiate : ∀ F s chain args, (∀ w ∈ args, w.Usable s.limit) →
    Guarded.Safe F s (c.instantiate chain args) (c'.instantiate chain args) UsableAll

/-- The same body in rows. -/
structure Body.Safe (b : Elaboration.Body) (b' : Body) : Prop where
  module : b'.module = b.module
  chain : b'.chain = b.chain
  wide : Wide b.module.outputs
  callees : List.Forall₂ Callee.Safe b.callees b'.callees

section Bodies

variable {F : Frame} {s : State} {b : Elaboration.Body} {b' : Body} {scope : Scope Signal} {want : Option Nat}

/-- Either body finds a name, or neither does. -/
theorem Body.Safe.callee? (hb : Body.Safe b b') (name : String) :
    (b.callee? name = none ∧ b'.callees.find? (·.name = name) = none) ∨
      ∃ c c', b.callee? name = some c ∧ b'.callees.find? (·.name = name) = some c' ∧ Callee.Safe c c' := by
  have hcallees := hb.callees
  rw [Elaboration.Body.callee?]
  generalize b.callees = cs at hcallees
  generalize b'.callees = cs' at hcallees
  induction hcallees with
  | nil => exact .inl ⟨rfl, rfl⟩
  | @cons c c' cs cs' hc _ ih =>
    rw [List.find?_cons, List.find?_cons, hc.name]
    cases decide (c.name = name) with
    | true => exact .inr ⟨c, c', rfl, rfl, hc⟩
    | false => exact ih

theorem safe_checkArity (name : String) (expected found : Nat) :
    Safe F s (Elaboration.checkArity name expected found) (checkArity name expected found) fun _ _ => True := by
  unfold Elaboration.checkArity checkArity
  split
  · exact .pure trivial
  · exact .throw fun _ => by simp

/-- **Nothing is out of range in an expression.** -/
theorem safe_expr_arguments (hb : Body.Safe b b') (scope : Scope Signal) :
    (∀ want e s, scope.Usable s.limit → Asked want →
      Safe F s (Elaboration.expr b scope want e) (expr b' scope want e) Signal.Usable) ∧
    ∀ ps as s, scope.Usable s.limit → Wide ps →
      Safe F s (Elaboration.arguments b scope ps as) (arguments b' scope ps as) fun limit ws =>
        ∀ w ∈ ws, w.Usable limit := by
  -- the induction is on expressions and argument lists at once, one case for each equation
  apply Elaboration.expr.mutual_induct b
  case case1 =>
    intro want name s hscope hwant
    rw [Elaboration.expr, expr, hb.module]
    exact (safe_nameSignal hscope name).asked hwant
  case case2 =>
    intro want value s hscope hwant
    rw [Elaboration.expr, expr]
    exact (Safe.pure (Signal.usable_literal value)).asked hwant
  case case3 =>
    intro want x y hx hy s hscope hwant
    rw [Elaboration.expr, expr, hb.module]
    refine Safe.asked hwant ((hx s hscope hwant).bind fun v s₁ h₁ hv => ?_)
    refine (hy s₁ (hscope.mono h₁) hwant).bind fun w s₂ h₂ hw => ?_
    exact safe_nand ((hscope.mono h₁).mono h₂) hwant (hv.mono h₂) hw
  case case4 =>
    intro want args hargs s _ _
    rw [Elaboration.expr.eq_4 b scope want args hargs, expr.eq_4 b' scope want args hargs]
    exact .throw fun _ => by simp
  case case5 =>
    intro want x y hx hy s hscope hwant
    rw [Elaboration.expr, expr, hb.module]
    refine Safe.asked hwant ((hx s hscope hwant).bind fun v s₁ h₁ hv => ?_)
    refine (hy s₁ (hscope.mono h₁) (asked_some Nat.one_pos)).bind fun w s₂ h₂ hw => ?_
    exact safe_dff ((hscope.mono h₁).mono h₂) hwant (hv.mono h₂) hw
  case case6 =>
    intro want args hargs s _ _
    rw [Elaboration.expr.eq_6 b scope want args hargs, expr.eq_6 b' scope want args hargs]
    exact .throw fun _ => by simp
  case case7 =>
    intro want name args hnand hdff hc s _ hwant
    rw [Elaboration.expr.eq_7 b scope want name args hnand hdff, expr.eq_7 b' scope want name args hnand hdff, hc]
    rcases hb.callee? name with ⟨-, hc'⟩ | ⟨c, c', hfound, -, -⟩
    · rw [hc', hb.module]
      exact (safe_note_pure _ fun _ => Signal.usable_blackBox).asked hwant
    · cases hc.symm.trans hfound
  case case8 =>
    intro want name args hnand hdff c hc ih s hscope hwant
    rw [Elaboration.expr.eq_7 b scope want name args hnand hdff, expr.eq_7 b' scope want name args hnand hdff, hc]
    rcases hb.callee? name with ⟨hnone, -⟩ | ⟨d, c', hfound, hc', hsafe⟩
    · cases hc.symm.trans hnone
    · cases hc.symm.trans hfound
      rw [hc', hb.chain]
      dsimp only
      rw [hsafe.inputs]
      refine Safe.asked hwant ((safe_checkArity _ _ _).bind fun _ s₁ h₁ _ => ?_)
      refine (ih s₁ (hscope.mono h₁) hsafe.wide).bind fun ws s₂ _ hws => ?_
      exact (hsafe.instantiate F s₂ _ ws hws).bind fun outs s₃ _ houts => .pure (Signal.usable_bundle.2 houts)
  case case9 =>
    intro want object name ih s hscope hwant
    rw [Elaboration.expr, expr]
    refine Safe.asked hwant ((ih s hscope asked_none).bind fun x s₁ h₁ hx => ?_)
    exact safe_field (hscope.mono h₁) hx object name
  case case10 =>
    intro want object r ih s hscope hwant
    rw [Elaboration.expr, expr, hb.module]
    refine Safe.asked hwant ((ih s hscope asked_none).bind fun x s₁ h₁ hx => ?_)
    exact (safe_project (hscope.mono h₁) hx r).bind fun w s₂ _ hw => .pure (Signal.usable_wire hw)
  case case11 =>
    intro p ps a as ha has s hscope hps
    obtain ⟨hp, hps⟩ := List.forall_mem_cons.1 hps
    rw [Elaboration.arguments, arguments, hb.module]
    refine (ha s hscope (asked_some hp)).bind fun x s₁ h₁ hx => ?_
    refine (safe_fitted (hscope.mono h₁) hx hp).bind fun w s₂ h₂ hw => ?_
    refine (has s₂ ((hscope.mono h₁).mono h₂) hps).bind fun ws s₃ h₃ hws => ?_
    exact .pure (List.forall_mem_cons.2 ⟨hw.1.mono h₃, hws⟩)
  case case12 =>
    intro as ps hne s _ _
    rw [Elaboration.arguments.eq_2 b scope ps as hne, arguments.eq_2 b' scope ps as hne]
    exact .pure (List.forall_mem_nil _)

theorem safe_expr (hb : Body.Safe b b') (hscope : scope.Usable s.limit) (hwant : Asked want) (e : Expr) :
    Safe F s (Elaboration.expr b scope want e) (expr b' scope want e) Signal.Usable :=
  (safe_expr_arguments hb scope).1 want e s hscope hwant

end Bodies

/-- A wire is widened only if it is too narrow. -/
theorem fit_max (w : Wire) (n : Nat) : w.fit (max w.width n) = if w.width < n then w.fit n else w := by
  split
  · next h => rw [Nat.max_eq_right (Nat.le_of_lt h)]
  · next h =>
    rw [Nat.max_eq_left (Nat.not_lt.1 h)]
    exact ofFn_bitOrZero w

theorem fit_zeros (k n : Nat) : (Wire.zeros k).fit n = .zeros n := by
  have hbit : ∀ i, (Wire.zeros k).bitOrZero i = .const false := fun i =>
    Wire.All.bitOrZero (P := fun c => c = .const false) rfl (Wire.all_zeros (by rfl) k) i
  rw [Wire.fit, funext hbit, Wire.zeros_eq_ofFn]

/-- The bits that are replaced are there, and there are as many new ones. -/
theorem replaceBits_eq {current part : Wire} {r : BitRange} (hpart : part.width = r.width) :
    replaceBits current r part = Pure.pure ((current.fit (max current.width (r.hi + 1))).splice r.lo part) := by
  have hle := r.lo_le_hi
  rw [replaceBits, ← fit_max]
  have hwidth : (current.fit (max current.width (r.hi + 1))).width = max current.width (r.hi + 1) :=
    Wire.width_fit _ _
  generalize current.fit (max current.width (r.hi + 1)) = wide' at hwidth
  have hover : wide'.overwrite? r.lo r.hi part = some (wide'.splice r.lo part) :=
    if_pos ⟨hle, by omega, hpart⟩
  rw [hover, access_some, pure_bind, wide_of (by rw [Wire.width_splice]; omega)]

section Statements

variable {F : Frame} {s : State} {b : Elaboration.Body} {b' : Body} {scope : Scope Signal}

/-- Replacing some bits of a name. -/
theorem safe_splice (hscope : scope.Usable s.limit) {current current' part : Wire} {r : BitRange} (name : String)
    (hcurrent : current.Usable s.limit) (hpart : part.Usable s.limit) (hwidth : part.width = r.width)
    (hsame : current'.fit (max current'.width (r.hi + 1)) = current.fit (max current.width (r.hi + 1))) :
    Safe F s (do
      if (current.fit (max current.width (r.hi + 1))).width < r.lo + part.width then
        throw (.fault .spliceOutOfRange)
      return scope.bind name (.wire ((current.fit (max current.width (r.hi + 1))).splice r.lo part)))
      (do return scope.bind name (.wire (← replaceBits current' r part))) Scope.Usable := by
  have hle := r.lo_le_hi
  have hroom : ¬ (current.fit (max current.width (r.hi + 1))).width < r.lo + part.width := by
    rw [Wire.width_fit, hwidth, BitRange.width]
    omega
  rw [if_neg hroom, replaceBits_eq hwidth, pure_bind, hsame]
  exact .pure (hscope.bind (Signal.usable_wire ((hcurrent.fit (by omega)).splice hpart r.lo)) name)

/-- The width that is asked for is that of an output, or that of the bits that are replaced. -/
theorem asked_declared {m : Module} (hm : Wide m.outputs) (name : String) :
    Asked ((m.output? name).map Port.width) := by
  intro n hn
  obtain ⟨p, hp, rfl⟩ := Option.map_eq_some_iff.1 hn
  exact hm p (List.mem_of_find?_eq_some hp)

/-- **Nothing is out of range in a statement.** -/
theorem safe_assign (hb : Body.Safe b b') (hscope : scope.Usable s.limit) (st : Statement) :
    Safe F s (Elaboration.assign b scope st) (assign b' scope st) Scope.Usable := by
  have hdeclared := asked_declared hb.wide st.target.name
  unfold Elaboration.assign assign
  rw [hb.module]
  dsimp only
  generalize (b.module.output? st.target.name).map Port.width = declared at hdeclared
  cases st.target.range with
  | none =>
    exact (safe_expr hb hscope hdeclared st.expr).bind fun x s₁ h₁ hx => .pure ((hscope.mono h₁).bind hx _)
  | some r =>
    have hr := r.width_pos
    have hleast : 0 < declared.getD (r.hi + 1) := hdeclared.getD (Nat.succ_pos _)
    have hasked : (declared <|> some (r.hi + 1)) = some (declared.getD (r.hi + 1)) := by cases declared <;> rfl
    dsimp only
    rw [minus?_of r.lo_le_hi, access_some, pure_bind, ← BitRange.width, hasked]
    refine (safe_expr hb hscope (asked_some hr) st.expr).bind fun x s₁ h₁ hx => ?_
    refine (safe_fitted (hscope.mono h₁) hx hr).bind fun part s₂ h₂ hpart => ?_
    have hscope₂ := (hscope.mono h₁).mono h₂
    cases hy : scope.lookup st.target.name with
    | none =>
      dsimp only
      have hzeros : (Wire.zeros (max (declared.getD (r.hi + 1)) (r.hi + 1))).fit
          (max (Wire.zeros (max (declared.getD (r.hi + 1)) (r.hi + 1))).width (r.hi + 1)) =
          (Wire.zeros (declared.getD (r.hi + 1))).fit
            (max (Wire.zeros (declared.getD (r.hi + 1))).width (r.hi + 1)) := by
        rw [fit_zeros, fit_zeros, Wire.width_zeros, Wire.width_zeros, Nat.max_assoc, Nat.max_self]
      rw [wide_of (by rw [Wire.width_zeros]; omega), pure_bind, pure_bind]
      exact safe_splice hscope₂ _ (Wire.usable_zeros hleast) hpart.1 hpart.2 hzeros
    | some y =>
      dsimp only
      have hy₂ := hscope₂.lookup hy
      refine (safe_materialize hscope₂ hy₂ (asked_some hleast)).bind fun current s₃ h₃ hcurrent => ?_
      exact safe_splice (hscope₂.mono h₃) _ hcurrent (hpart.1.mono h₃) hpart.2 rfl

theorem safe_assignAll (hb : Body.Safe b b') (sts : List Statement) : ∀ {scope : Scope Signal} {s : State},
    scope.Usable s.limit →
      Safe F s (Elaboration.assignAll b scope sts) (assignAll b' scope sts) Scope.Usable := by
  induction sts with
  | nil => exact fun hscope => .pure hscope
  | cons st sts ih => exact fun hscope => (safe_assign hb hscope st).bind fun next s₁ _ hnext => ih hnext

end Statements

/-! ## What a body offers -/

section Ends

variable {F : Frame} {s : State} {b : Elaboration.Body} {scope : Scope Signal}

theorem safe_outputWire (hscope : scope.Usable s.limit) {p : Port} (hp : 0 < p.width) :
    Safe F s (Elaboration.outputWire b scope p) (outputWire b.module scope p) Wire.Usable := by
  unfold Elaboration.outputWire outputWire
  cases hx : scope.lookup p.name with
  | some x => exact (safe_fitted hscope (hscope.lookup hx) hp).imp fun _ _ hw => hw.1
  | none => exact (safe_note _).bind fun _ _ _ _ => safe_wide (Wire.usable_zeros hp)

theorem safe_outputs (ps : List Port) : ∀ {s : State}, scope.Usable s.limit → Wide ps →
    Safe F s (Elaboration.outputs b scope ps) (outputs b.module scope ps) UsableAll := by
  induction ps with
  | nil => exact fun _ _ => .pure (List.forall_mem_nil _)
  | cons p ps ih =>
    intro s hscope hps
    obtain ⟨hp, hps⟩ := List.forall_mem_cons.1 hps
    rw [outputs_cons, outputs]
    refine (safe_outputWire hscope hp).bind fun w s₁ h₁ hw => ?_
    refine (ih (hscope.mono h₁) hps).bind fun rest s₂ h₂ hrest => ?_
    exact .pure (List.forall_mem_cons.2 ⟨hw.mono h₂, hrest⟩)

theorem safe_wiresOf (hscope : scope.Usable s.limit) (name : String) {x : Signal} (hx : x.Usable s.limit) :
    Safe F s (Elaboration.wiresOf b scope name x) (wiresOf b.module scope name x) UsableAll := by
  have husable := hx.follow hscope
  have hwire : ∀ z : Signal, z.Usable s.limit → Safe F s
      (do return [(name, ← Elaboration.materialize b scope z none)])
      (do return [(name, ← materialize b.module scope z none)]) UsableAll := fun z hz =>
    (safe_materialize hscope hz asked_none).bind fun w s₁ _ hw => .pure (List.forall_mem_singleton.2 hw)
  unfold Elaboration.wiresOf wiresOf
  cases hf : follow scope x with
  | bundle fields =>
    rw [hf, Signal.usable_bundle] at husable
    match fields, husable with
    | [], _ => exact .pure (List.forall_mem_nil _)
    | [(n, w)], husable => exact .pure (List.forall_mem_singleton.2 (husable (n, w) List.mem_cons_self))
    | _ :: _ :: _, husable => exact .pure (List.forall_mem_map.2 husable)
  | _ => exact hwire _ (hf ▸ husable)

theorem safe_locals (xs : List (String × Signal)) : ∀ {s : State}, scope.Usable s.limit →
    (∀ x ∈ xs, x.2.Usable s.limit) →
      Safe F s (Elaboration.locals b scope xs) (locals b.module scope xs) UsableAll := by
  induction xs with
  | nil => exact fun _ _ => .pure (List.forall_mem_nil _)
  | cons e xs ih =>
    intro s hscope hxs
    obtain ⟨hx, hxs⟩ := List.forall_mem_cons.1 hxs
    rw [locals_cons, locals]
    refine (safe_wiresOf hscope e.1 hx).bind fun here s₁ h₁ hhere => ?_
    refine (ih (hscope.mono h₁) fun x hx => (hxs x hx).mono h₁).bind fun rest s₂ h₂ hrest => ?_
    exact .pure (List.forall_mem_append.2 ⟨fun w hw => (hhere w hw).mono h₂, hrest⟩)

end Ends

end Guarded

end Elaboration

end NandHdl
