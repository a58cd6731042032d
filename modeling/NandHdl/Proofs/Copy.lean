import NandHdl.Proofs.Build

/-!
# One run of elaboration as a copy of another

A body is elaborated alike wherever it stands: node numbers, forward slots and
the bits of its arguments are handed on, and nothing looks at them.

* `Renaming`: what the bits of one run are in the other.
* `Renaming.Known`, `State.Sound`: the bits that a run can name at a state.
* `Renaming.Sim`: whatever one run does, the other does too.
* `sim_assignAll`, `sim_outputs`: a whole body.
-/

namespace NandHdl

namespace Elaboration

/-- How the bits of a body turn into those of a copy of it: nodes are numbered from `start` on and not
from `first` on, the `width` input bits are `pins`, and `base` slots are open around the copy. -/
structure Renaming where
  first : Nat
  start : Nat
  width : Nat
  pins : Nat → Bit
  base : Nat
  pins_below : ∀ i, (pins i).slotBelow base

namespace Renaming

variable (ρ : Renaming)

/-- The bit of the copy. -/
def bit : Bit → Bit
  | .node n => .node (n - ρ.first + ρ.start)
  | .input i => ρ.pins i
  | .const v => .const v
  | .forward k => .forward (k + ρ.base)

/-- The wire of the copy. -/
def wire (w : Wire) : Wire := w.map ρ.bit

/-- The named wires of the copy. -/
def wires (ws : List (String × Wire)) : List (String × Wire) := ws.map fun w => (w.1, ρ.wire w.2)

def signal (s : Signal) : Signal := s.map ρ.bit

def scope (scope : Scope Signal) : Scope Signal := scope.map ρ.signal

/-- The node of the copy. -/
def node (n : Node) : Node := ⟨n.id - ρ.first + ρ.start, n.cell.map ρ.bit⟩

/-- The bits that can be named when nodes below `nextId` exist and slots below `limit` are open. -/
def Known (nextId limit : Nat) : Bit → Prop
  | .node n => ρ.first ≤ n ∧ n < nextId
  | .input i => i < ρ.width
  | .const _ => True
  | .forward k => k < limit

/-- The bits that can be named at a state. -/
abbrev KnownAt (s : State) : Bit → Prop := ρ.Known s.nextId s.limit

/-- The nodes of the open body are numbered in order and read what can be named. -/
structure Sound (s : State) : Prop where
  reads : ∀ n ∈ s.nodes, n.cell.All (ρ.KnownAt s)
  ids : ∀ i n, s.nodes[i]? = some n → n.id + s.nodes.size = s.nextId + i
  first_le : ρ.first + s.nodes.size ≤ s.nextId

/-- Numbers and slots only grow, and every number that is handed out is that of a new node. -/
structure Grows (s s' : State) : Prop where
  nextId : s.nextId ≤ s'.nextId
  nodes : s'.nextId + s.nodes.size = s.nextId + s'.nodes.size
  slotBase : s'.slotBase = s.slotBase
  slots : s.slots.size ≤ s'.slots.size

/-- The state `t` of the copy beside the state `s`. -/
structure Beside (s t : State) : Prop where
  nextId : t.nextId = s.nextId - ρ.first + ρ.start
  slotBase : t.slotBase = s.slotBase + ρ.base
  slots : t.slots = s.slots
  nodes : t.nodes = s.nodes.map ρ.node

/-- **Whatever `x` does from `s` on, `y` does in the copy.** The result `a` becomes `f a`, and `K` holds
of it. -/
def Sim {α : Type} (s : State) (x y : Build α) (f : α → α) (K : State → α → Prop) : Prop :=
  ρ.Sound s → ∀ a s', Gives x s a s' → Grows s s' ∧ ρ.Sound s' ∧ K s' a ∧
    ∀ t, ρ.Beside s t → ∃ t', Gives y t (f a) t' ∧ ρ.Beside s' t'

variable {ρ} {α β : Type} {s s' t : State}

theorem Grows.refl (s : State) : Grows s s := ⟨Nat.le_refl _, rfl, rfl, Nat.le_refl _⟩

theorem Grows.trans {s'' : State} (h : Grows s s') (h' : Grows s' s'') : Grows s s'' where
  nextId := Nat.le_trans h.nextId h'.nextId
  nodes := by
    have := h.nodes
    have := h'.nodes
    omega
  slotBase := h'.slotBase.trans h.slotBase
  slots := Nat.le_trans h.slots h'.slots

theorem Known.mono {n n' l l' : Nat} (hn : n ≤ n') (hl : l ≤ l') : ∀ b, ρ.Known n l b → ρ.Known n' l' b
  | .node _, h => ⟨h.1, Nat.lt_of_lt_of_le h.2 hn⟩
  | .input _, h => h
  | .const _, _ => trivial
  | .forward _, h => Nat.lt_of_lt_of_le h hl

theorem Grows.limit (h : Grows s s') : s.limit ≤ s'.limit := by
  have := h.slots
  rw [State.limit, State.limit, h.slotBase]
  omega

theorem Grows.known (h : Grows s s') : ∀ b, ρ.KnownAt s b → ρ.KnownAt s' b :=
  Known.mono h.nextId h.limit

@[simp] theorem bit_const (v : Bool) : ρ.bit (.const v) = .const v := rfl

/-- Slots of the copy lie above the ones that are open around it. -/
theorem below_bit {l : Nat} {b : Bit} (h : b.slotBelow l) : (ρ.bit b).slotBelow (l + ρ.base) := by
  cases b with
  | input i =>
    have hpin := ρ.pins_below i
    rw [bit]
    cases hp : ρ.pins i with
    | forward k =>
      rw [hp] at hpin
      simp only [Bit.slotBelow, decide_eq_true_eq] at hpin ⊢
      omega
    | _ => rfl
  | forward k =>
    simp only [bit, Bit.slotBelow, decide_eq_true_eq] at h ⊢
    omega
  | _ => rfl

/-! ## Sequences -/

theorem Sim.pure {a a' : α} {f : α → α} {K : State → α → Prop} (ha : f a = a') (h : K s a) :
    ρ.Sim s (pure a) (pure a') f K := by
  intro hs b s' hb
  obtain ⟨rfl, rfl⟩ := gives_pure.1 hb
  exact ⟨Grows.refl _, hs, h, fun t ht => ⟨t, gives_pure.2 ⟨ha, rfl⟩, ht⟩⟩

theorem Sim.bind {x y : Build α} {f : α → α} {K : State → α → Prop} {g h : α → Build β} {f' : β → β}
    {K' : State → β → Prop} (hx : ρ.Sim s x y f K)
    (hg : ∀ a s', Grows s s' → K s' a → ρ.Sim s' (g a) (h (f a)) f' K') :
    ρ.Sim s (x >>= g) (y >>= h) f' K' := by
  intro hs b s'' hb
  obtain ⟨a, s', ha, hb⟩ := gives_bind.1 hb
  obtain ⟨hgrow, hs', hK, hcopy⟩ := hx hs a s' ha
  -- the second part starts where the first has got to, in the copy as well
  obtain ⟨hgrow', hs'', hK', hcopy'⟩ := hg a s' hgrow hK hs' b s'' hb
  refine ⟨hgrow.trans hgrow', hs'', hK', fun t ht => ?_⟩
  obtain ⟨t', hy, ht'⟩ := hcopy t ht
  obtain ⟨t'', hz, ht''⟩ := hcopy' t' ht'
  exact ⟨t'', gives_bind.2 ⟨f a, t', hy, hz⟩, ht''⟩

/-- What fails has nothing to be copied. -/
theorem Sim.throw {e : CompileError} {y : Build α} {f : α → α} {K : State → α → Prop} :
    ρ.Sim s (throw e) y f K := fun _ _ _ h => absurd h not_gives_throw

theorem Sim.throw_bind {e : CompileError} {g : α → Build β} {y : Build β} {f : β → β}
    {K : State → β → Prop} : ρ.Sim s (MonadExcept.throw e >>= g) y f K := by
  intro _ b s' h
  obtain ⟨_, _, h, -⟩ := gives_bind.1 h
  exact absurd h not_gives_throw

/-- Reports are not part of the copy. -/
theorem sim_note (e e' : Event) : ρ.Sim s (note e) (note e') id fun _ _ => True := by
  intro hs u s' hu
  rw [gives_note] at hu
  subst hu
  have hgrow : Grows s { s with log := e :: s.log } := ⟨Nat.le_refl _, rfl, rfl, Nat.le_refl _⟩
  refine ⟨hgrow, ⟨hs.reads, hs.ids, hs.first_le⟩, trivial, fun t ht => ?_⟩
  exact ⟨_, gives_note.2 rfl, ht.nextId, ht.slotBase, ht.slots, ht.nodes⟩

/-! ## Nodes and slots -/

/-- The cells that `place` adds. -/
def cellsOf (cell : Bit → Bit → Cell) (a b : Wire) : Array Cell := Array.zipWith cell a.bits b.bits

/-- The state with a new node for each cell. -/
def withCells (s : State) (cells : Array Cell) : State :=
  { s with
    nodes := s.nodes ++ cells.mapIdx fun i c => ⟨s.nextId + i, c⟩
    nextId := s.nextId + cells.size }

theorem gives_place {cell : Bit → Bit → Cell} {a b w : Wire} : Gives (place cell a b) s w s' ↔
    w = .ofFn (cellsOf cell a b).size (fun i => .node (s.nextId + i)) ∧
      s' = withCells s (cellsOf cell a b) := by
  rw [place, gives_modifyGet, Prod.mk.injEq, eq_comm (b := w), eq_comm (b := s')]
  rfl

theorem all_cellsOf {P : Bit → Prop} {cell : Bit → Bit → Cell}
    (hinputs : ∀ x y, (cell x y).inputs = [x, y]) {a b : Wire} (ha : a.All P) (hb : b.All P) :
    ∀ c ∈ cellsOf cell a b, c.All P := by
  intro c hc
  obtain ⟨i, hi, rfl⟩ := Array.mem_iff_getElem.1 hc
  intro x hx
  simp only [cellsOf, Array.getElem_zipWith, hinputs] at hx
  rcases List.mem_cons.1 hx with rfl | hx
  · exact ha _ (Array.getElem_mem _)
  · rw [List.mem_singleton.1 hx]
    exact hb _ (Array.getElem_mem _)

theorem cellsOf_map {f : Bit → Bit} {cell : Bit → Bit → Cell}
    (hmap : ∀ x y, (cell x y).map f = cell (f x) (f y)) (a b : Wire) :
    cellsOf cell (a.map f) (b.map f) = (cellsOf cell a b).map (Cell.map f) := by
  rw [cellsOf, cellsOf, Wire.map, Wire.map, Array.map_zipWith, Array.zipWith_map]
  simp only [hmap]

theorem grows_withCells (s : State) (cells : Array Cell) : Grows s (withCells s cells) := by
  refine ⟨Nat.le_add_right _ _, ?_, rfl, Nat.le_refl _⟩
  simp only [withCells, Array.size_append, Array.size_mapIdx]
  omega

/-- New nodes are numbered on, and read what could be named before them. -/
theorem Sound.withCells {cells : Array Cell} (hs : ρ.Sound s) (hcells : ∀ c ∈ cells, c.All (ρ.KnownAt s)) :
    ρ.Sound (withCells s cells) := by
  have hgrow := grows_withCells s cells
  refine ⟨fun n hn => ?_, fun i n hn => ?_, ?_⟩
  · rcases Array.mem_append.1 hn with hn | hn
    · exact (hs.reads n hn).imp hgrow.known
    · obtain ⟨i, hi, rfl⟩ := Array.mem_mapIdx.1 hn
      exact (hcells _ (Array.getElem_mem hi)).imp hgrow.known
  · simp only [Renaming.withCells, Array.getElem?_append] at hn
    simp only [Renaming.withCells, Array.size_append, Array.size_mapIdx]
    split at hn
    · have hid := hs.ids i n hn
      omega
    · rw [Array.getElem?_mapIdx] at hn
      obtain ⟨c, -, rfl⟩ := Option.map_eq_some_iff.1 hn
      simp only
      omega
  · have hfirst := hs.first_le
    simp only [Renaming.withCells, Array.size_append, Array.size_mapIdx]
    omega

/-- The new nodes of the copy are the copies of the new nodes. -/
theorem Beside.withCells (ht : ρ.Beside s t) (hfirst : ρ.first ≤ s.nextId) (cells : Array Cell) :
    ρ.Beside (withCells s cells) (withCells t (cells.map (Cell.map ρ.bit))) := by
  refine ⟨?_, ht.slotBase, ht.slots, ?_⟩
  · simp only [Renaming.withCells, Array.size_map, ht.nextId]
    omega
  · simp only [Renaming.withCells, ht.nodes, Array.map_append, ht.nextId]
    congr 1
    -- cell by cell, the numbers are shifted alike
    refine Array.ext_getElem? fun i => ?_
    simp only [Array.getElem?_mapIdx, Array.getElem?_map, Option.map_map]
    congr 1
    funext c
    simp only [Function.comp_apply, node, Node.mk.injEq, and_true]
    omega

theorem sim_place {cell : Bit → Bit → Cell}
    (hmap : ∀ x y, (cell x y).map ρ.bit = cell (ρ.bit x) (ρ.bit y))
    (hinputs : ∀ x y, (cell x y).inputs = [x, y]) {a b : Wire} (ha : a.All (ρ.KnownAt s))
    (hb : b.All (ρ.KnownAt s)) :
    ρ.Sim s (place cell a b) (place cell (ρ.wire a) (ρ.wire b)) ρ.wire
      fun s' w => w.All (ρ.KnownAt s') := by
  intro hs w s' hw
  obtain ⟨rfl, rfl⟩ := gives_place.1 hw
  have hcells := all_cellsOf hinputs ha hb
  have hcopied : cellsOf cell (ρ.wire a) (ρ.wire b) = (cellsOf cell a b).map (Cell.map ρ.bit) :=
    cellsOf_map hmap a b
  generalize cellsOf cell a b = cells at hcells hcopied
  have hfirst : ρ.first ≤ s.nextId := Nat.le_trans (Nat.le_add_right _ _) hs.first_le
  refine ⟨grows_withCells s cells, hs.withCells hcells, ?_, fun t ht => ?_⟩
  · refine Wire.all_ofFn fun i hi => ⟨by omega, ?_⟩
    simp only [withCells]
    omega
  · refine ⟨_, gives_place.2 ⟨?_, rfl⟩, hcopied ▸ ht.withCells hfirst cells⟩
    rw [hcopied, Array.size_map, wire, Wire.map_ofFn]
    congr 1
    funext i
    rw [bit, ht.nextId]
    congr 1
    omega

theorem gives_readForward {name : String} {lo count : Nat} {w : Wire} :
    Gives (readForward name lo count) s w s' ↔ count ≠ 0 ∧
      w = .ofFn count (fun i => .forward (s.limit + i)) ∧
      s' = { s with slots := s.slots ++ .ofFn fun i : Fin count => ⟨name, lo + i⟩ } := by
  unfold readForward
  by_cases h0 : count = 0
  · rw [if_pos h0, gives_bind]
    constructor
    · rintro ⟨_, _, h, -⟩
      exact absurd h not_gives_throw
    · exact fun h => absurd h0 h.1
  · rw [if_neg h0]
    refine gives_modifyGet.trans ?_
    rw [Prod.mk.injEq, eq_comm (b := w), eq_comm (b := s')]
    exact ⟨fun h => ⟨h0, h⟩, fun h => h.2⟩

theorem sim_readForward (name : String) (lo count : Nat) :
    ρ.Sim s (readForward name lo count) (readForward name lo count) ρ.wire
      fun s' w => w.All (ρ.KnownAt s') := by
  intro hs w s' hw
  rw [gives_readForward] at hw
  obtain ⟨hcount, rfl, rfl⟩ := hw
  have hgrow : Grows s { s with slots := s.slots ++ .ofFn fun i : Fin count => ⟨name, lo + i⟩ } :=
    ⟨Nat.le_refl _, rfl, rfl, by simp⟩
  refine ⟨hgrow, ⟨?_, hs.ids, hs.first_le⟩, ?_, fun t ht => ?_⟩
  · exact fun n hn => (hs.reads n hn).imp hgrow.known
  · -- the new slots are open from now on
    refine Wire.all_ofFn fun i hi => ?_
    simp only [KnownAt, Known, State.limit, Array.size_append, Array.size_ofFn]
    omega
  · refine ⟨_, gives_readForward.2 ⟨hcount, ?_, rfl⟩, ht.nextId, ht.slotBase, ?_, ht.nodes⟩
    · rw [wire, Wire.map_ofFn]
      congr 1
      funext i
      rw [bit, State.limit, State.limit, ht.slotBase, ht.slots]
      congr 1
      omega
    · simp only [ht.slots]

/-! ## Signals -/

section Signals

variable {scope : Scope Signal} {x y : Signal} {b b' : Body}

theorem known_const (s : State) : ∀ v, ρ.KnownAt s (.const v) := fun _ => trivial

/-- The signal that a name read early stands for, in the copy. -/
theorem follow_copy (scope : Scope Signal) (x : Signal) :
    follow (ρ.scope scope) (ρ.signal x) = ρ.signal (follow scope x) := follow_map scope x

theorem sim_zeros (n : Nat) :
    ρ.Sim s (pure (.zeros n)) (pure (.zeros n)) ρ.wire fun s' w => w.All (ρ.KnownAt s') :=
  Sim.pure (Wire.map_zeros rfl n) (Wire.all_zeros trivial n)

theorem sim_materialize (hscope : scope.All (ρ.KnownAt s)) (hx : x.All (ρ.KnownAt s)) (want : Option Nat) :
    ρ.Sim s (materialize b scope x want) (materialize b' (ρ.scope scope) (ρ.signal x) want) ρ.wire
      fun s' w => w.All (ρ.KnownAt s') := by
  have hall := hx.follow hscope
  unfold materialize
  rw [follow_copy]
  cases hf : follow scope x with
  | wire w =>
    rw [hf] at hall
    exact Sim.pure rfl hall
  | bundle fields =>
    rw [hf] at hall
    match fields with
    | [] => exact (sim_note _ _).bind fun _ _ _ _ => sim_zeros _
    | [(_, w)] => exact Sim.pure rfl (hall (_, w) (List.mem_singleton.2 rfl))
    | _ :: _ :: _ => exact (sim_note _ _).bind fun _ _ _ _ => sim_zeros _
  | literal value =>
    exact Sim.pure (Wire.map_constant bit_const value _) (Wire.all_constant (known_const s) value _)
  | blackBox => exact sim_zeros _
  | forward name => exact sim_readForward name 0 _

theorem sim_fitted (hscope : scope.All (ρ.KnownAt s)) (hx : x.All (ρ.KnownAt s)) (width : Nat) :
    ρ.Sim s (fitted b scope x width) (fitted b' (ρ.scope scope) (ρ.signal x) width) ρ.wire
      fun s' w => w.All (ρ.KnownAt s') ∧ w.width = width :=
  (sim_materialize hscope hx (some width)).bind fun w _ _ hw =>
    Sim.pure (Wire.map_fit rfl w width) ⟨hw.fit trivial width, Wire.width_fit w width⟩

theorem sim_extract (hscope : scope.All (ρ.KnownAt s)) (hx : x.All (ρ.KnownAt s)) (r : BitRange) :
    ρ.Sim s (do
      let w ← materialize b scope x none
      if w.width ≤ r.hi then note (.bitOutOfRange r.hi w.width b.module.name)
      return w.extract r.lo r.width) (do
      let w ← materialize b' (ρ.scope scope) (ρ.signal x) none
      if w.width ≤ r.hi then note (.bitOutOfRange r.hi w.width b'.module.name)
      return w.extract r.lo r.width) ρ.wire fun s' w => w.All (ρ.KnownAt s') := by
  refine (sim_materialize hscope hx none).bind fun w s' _ hw => ?_
  -- a report may come before the bits are taken out
  have hpure : ∀ s'', Grows s' s'' → ρ.Sim s'' (Pure.pure (w.extract r.lo r.width))
      (Pure.pure ((ρ.wire w).extract r.lo r.width)) ρ.wire fun s' w => w.All (ρ.KnownAt s') :=
    fun s'' h => Sim.pure (Wire.map_extract rfl w r.lo r.width) ((hw.imp h.known).extract trivial _ _)
  have hwidth : (ρ.wire w).width = w.width := Wire.width_map _ w
  rw [hwidth]
  by_cases hout : w.width ≤ r.hi
  · rw [if_pos hout, if_pos hout]
    exact (sim_note _ _).bind fun _ s'' h _ => hpure s'' h
  · rw [if_neg hout, if_neg hout]
    exact hpure s' (Grows.refl s')

theorem sim_project (hscope : scope.All (ρ.KnownAt s)) (hx : x.All (ρ.KnownAt s)) (r : BitRange) :
    ρ.Sim s (project b scope x r) (project b' (ρ.scope scope) (ρ.signal x) r) ρ.wire
      fun s' w => w.All (ρ.KnownAt s') := by
  have hall := hx.follow hscope
  unfold project
  rw [follow_copy]
  cases hf : follow scope x with
  | wire w =>
    rw [hf] at hall
    exact sim_extract hscope hall r
  | bundle fields =>
    rw [hf] at hall
    exact sim_extract hscope hall r
  | literal value =>
    refine Sim.pure ?_ (Wire.all_ofFn fun _ _ => trivial)
    rw [wire, Wire.map_ofFn]
    rfl
  | blackBox => exact sim_zeros _
  | forward name => exact sim_readForward name r.lo r.width

theorem sim_field (hscope : scope.All (ρ.KnownAt s)) (hx : x.All (ρ.KnownAt s)) (object : Expr)
    (name : String) :
    ρ.Sim s (field scope object x name) (field (ρ.scope scope) object (ρ.signal x) name) ρ.signal
      fun s' y => y.All (ρ.KnownAt s') := by
  -- all other signals have no such field, in the copy as well
  have hnone : ∀ e e' : Event, ρ.Sim s (do note e; return .blackBox) (do note e'; return .blackBox)
      ρ.signal fun s' y => y.All (ρ.KnownAt s') :=
    fun e e' => (sim_note e e').bind fun _ _ _ _ => Sim.pure rfl trivial
  have hall := hx.follow hscope
  unfold field
  rw [follow_copy]
  cases hf : follow scope x with
  | bundle fields =>
    rw [hf] at hall
    simp only [signal, Signal.map, List.find?_map, Function.comp_def]
    cases hfind : fields.find? fun f => decide (f.1 = name) with
    | none => exact hnone _ _
    | some f => exact Sim.pure rfl (hall f (List.mem_of_find?_eq_some hfind))
  | wire w => exact hnone _ _
  | literal value => exact hnone _ _
  | blackBox => exact Sim.pure rfl trivial
  | forward name => exact hnone _ _

theorem sim_nameSignal (hmodule : b.module = b'.module) (hscope : scope.All (ρ.KnownAt s)) (name : String) :
    ρ.Sim s (nameSignal b scope name) (nameSignal b' (ρ.scope scope) name) ρ.signal
      fun s' y => y.All (ρ.KnownAt s') := by
  unfold nameSignal
  rw [Renaming.scope, Scope.lookup_map, ← hmodule]
  cases h : scope.lookup name with
  | some y => exact Sim.pure rfl (hscope.lookup h)
  | none =>
    simp only [Option.map_none]
    split
    · exact Sim.pure rfl trivial
    · exact (sim_note _ _).bind fun _ _ _ _ => Sim.pure rfl trivial

theorem knownWidth_copy (scope : Scope Signal) (x : Signal) :
    knownWidth (ρ.scope scope) (ρ.signal x) = knownWidth scope x := knownWidth_map scope x

/-- Gates over two signals brought to one width. -/
theorem sim_gates (hscope : scope.All (ρ.KnownAt s)) (hx : x.All (ρ.KnownAt s)) (hy : y.All (ρ.KnownAt s))
    (width : Nat) :
    ρ.Sim s (do
      let x ← fitted b scope x width
      let y ← fitted b scope y width
      return .wire (← place .nand x y)) (do
      let x ← fitted b' (ρ.scope scope) (ρ.signal x) width
      let y ← fitted b' (ρ.scope scope) (ρ.signal y) width
      return .wire (← place .nand x y)) ρ.signal fun s' z => z.All (ρ.KnownAt s') := by
  refine (sim_fitted hscope hx width).bind fun v s₁ h₁ hv => ?_
  refine (sim_fitted (hscope.imp h₁.known) (hy.imp h₁.known) width).bind fun w s₂ h₂ hw => ?_
  have hv₂ := hv.1.imp h₂.known
  exact (sim_place (fun _ _ => rfl) (fun _ _ => rfl) hv₂ hw.1).bind fun z _ _ hz => Sim.pure rfl hz

theorem sim_nand (hscope : scope.All (ρ.KnownAt s)) (hx : x.All (ρ.KnownAt s)) (hy : y.All (ρ.KnownAt s))
    (want : Option Nat) :
    ρ.Sim s (nand b scope want x y) (nand b' (ρ.scope scope) want (ρ.signal x) (ρ.signal y)) ρ.signal
      fun s' z => z.All (ρ.KnownAt s') := by
  have hnatural : max (ρ.signal x).naturalWidth (ρ.signal y).naturalWidth =
      max x.naturalWidth y.naturalWidth := by
    rw [signal, signal, Signal.naturalWidth_map, Signal.naturalWidth_map]
  -- whichever width is known decides, and the copy knows the same ones
  unfold nand
  rw [knownWidth_copy, knownWidth_copy, hnatural]
  cases knownWidth scope x with
  | none =>
    cases knownWidth scope y with
    | none =>
      simp only [pure_bind]
      exact sim_gates hscope hx hy _
    | some v =>
      simp only [pure_bind]
      exact sim_gates hscope hx hy v
  | some w =>
    cases knownWidth scope y with
    | none =>
      simp only [pure_bind]
      exact sim_gates hscope hx hy w
    | some v =>
      by_cases h : w = v
      · simp only [if_pos h, pure_bind]
        exact sim_gates hscope hx hy w
      · simp only [if_neg h]
        exact Sim.throw_bind

theorem sim_dff (hscope : scope.All (ρ.KnownAt s)) (hx : x.All (ρ.KnownAt s)) (hy : y.All (ρ.KnownAt s))
    (want : Option Nat) :
    ρ.Sim s (dff b scope want x y) (dff b' (ρ.scope scope) want (ρ.signal x) (ρ.signal y)) ρ.signal
      fun s' z => z.All (ρ.KnownAt s') := by
  have hcells : ∀ (v w : Wire) (s' : State), v.All (ρ.KnownAt s') → w.All (ρ.KnownAt s') →
      ρ.Sim s' (do return .wire (← place .dff v w))
        (do return .wire (← place .dff (ρ.wire v) (ρ.wire w)))
        ρ.signal fun s' z => z.All (ρ.KnownAt s') := fun v w s' hv hw =>
    (sim_place (fun _ _ => rfl) (fun _ _ => rfl) hv hw).bind fun z _ _ hz => Sim.pure rfl hz
  unfold dff
  rw [knownWidth_copy, knownWidth_copy, signal, signal, Signal.naturalWidth_map]
  generalize (knownWidth scope x).getD (want.getD x.naturalWidth) = width
  refine (sim_fitted hscope hx width).bind fun v s₁ h₁ hv => ?_
  have hscope₁ := hscope.imp h₁.known
  have hy₁ := hy.imp h₁.known
  -- one bit of clock is shared by all bits of data
  have hshared : ρ.Sim s₁ (do
      let c ← fitted b scope y 1
      let clk ← pure (.ofFn width fun _ => c.bitOrZero 0)
      return .wire (← place .dff v clk)) (do
      let c ← fitted b' (ρ.scope scope) (ρ.signal y) 1
      let clk ← pure (.ofFn width fun _ => c.bitOrZero 0)
      return .wire (← place .dff (ρ.wire v) clk)) ρ.signal fun s' z => z.All (ρ.KnownAt s') := by
    refine (sim_fitted hscope₁ hy₁ 1).bind fun c s₂ h₂ hc => ?_
    simp only [pure_bind]
    have hclk : ρ.wire (.ofFn width fun _ => c.bitOrZero 0) =
        .ofFn width fun _ => (ρ.wire c).bitOrZero 0 := by
      rw [wire, Wire.map_ofFn, wire, Wire.bitOrZero_map rfl]
    rw [← hclk]
    exact hcells v _ s₂ (hv.1.imp h₂.known) (Wire.all_ofFn fun _ _ => hc.1.bitOrZero trivial 0)
  split
  · exact hshared
  · exact hshared
  · next w _ hw =>
    split
    · refine (sim_materialize hscope₁ hy₁ (some width)).bind fun clk s₂ h₂ hclk => ?_
      exact hcells v clk s₂ (hv.1.imp h₂.known) hclk
    · exact Sim.throw_bind

end Signals

/-! ## Bodies -/

/-- Whatever an instance of `c` does, an instance of `c'` does in the copy, if the arguments have the
widths of their ports. -/
structure Follows (ρ : Renaming) (c c' : Callee) : Prop where
  name : c'.name = c.name
  inputs : c'.inputs = c.inputs
  instantiate : ∀ (s : State) (chain chain' : List String) (args : List Wire), chain ≠ [] → chain' ≠ [] →
    args.map Wire.width = c.inputs.map Port.width → (∀ w ∈ args, w.All (ρ.KnownAt s)) →
    ρ.Sim s (c.instantiate chain args) (c'.instantiate chain' (args.map ρ.wire)) ρ.wires
      fun s' outs => ∀ o ∈ outs, o.2.All (ρ.KnownAt s')

/-- Two bodies of one module, which call what does the same. -/
structure Bodies (ρ : Renaming) (b b' : Body) : Prop where
  module : b.module = b'.module
  chain : b.chain ≠ []
  chain' : b'.chain ≠ []
  callees : List.Forall₂ ρ.Follows b.callees b'.callees

variable {scope : Scope Signal} {b b' : Body}

theorem callee?_none (hb : ρ.Bodies b b') {name : String} (h : b.callee? name = none) :
    b'.callee? name = none := by
  rw [Body.callee?] at h ⊢
  have hcallees := hb.callees
  generalize b.callees = cs at h hcallees
  generalize b'.callees = cs' at hcallees
  induction hcallees with
  | nil => rfl
  | cons hc _ ih =>
    rw [List.find?_cons] at h ⊢
    rw [hc.name]
    split at h
    · cases h
    · exact ih h

theorem callee?_some (hb : ρ.Bodies b b') {name : String} {c : Callee} (h : b.callee? name = some c) :
    ∃ c', b'.callee? name = some c' ∧ ρ.Follows c c' := by
  rw [Body.callee?] at h ⊢
  have hcallees := hb.callees
  generalize b.callees = cs at h hcallees
  generalize b'.callees = cs' at hcallees
  induction hcallees with
  | nil => cases h
  | @cons a a' _ _ hc _ ih =>
    rw [List.find?_cons] at h ⊢
    rw [hc.name]
    split at h
    · cases h
      exact ⟨a', rfl, hc⟩
    · exact ih h

theorem sim_checkArity (name : String) (expected found : Nat) :
    ρ.Sim s (checkArity name expected found) (checkArity name expected found) id
      fun _ _ => expected = found := by
  unfold checkArity
  split
  · next h => exact Sim.pure rfl h
  · exact Sim.throw

/-- **An expression is elaborated alike in the copy.** -/
theorem sim_expr_arguments (hb : ρ.Bodies b b') (scope : Scope Signal) :
    (∀ want e s, scope.All (ρ.KnownAt s) → ρ.Sim s (expr b scope want e)
      (expr b' (ρ.scope scope) want e) ρ.signal fun s' x => x.All (ρ.KnownAt s')) ∧
    ∀ ps es s, scope.All (ρ.KnownAt s) → ρ.Sim s (arguments b scope ps es)
      (arguments b' (ρ.scope scope) ps es) (List.map ρ.wire) fun s' ws => (∀ w ∈ ws, w.All (ρ.KnownAt s')) ∧
        (ps.length = es.length → ws.map Wire.width = ps.map Port.width) := by
  -- the induction is on expressions and argument lists at once, one case for each equation
  apply expr.mutual_induct b
  case case1 =>
    intro want name s hscope
    rw [expr, expr]
    exact sim_nameSignal hb.module hscope name
  case case2 =>
    intro want value s hscope
    rw [expr, expr]
    exact Sim.pure rfl trivial
  case case3 =>
    intro want x y hx hy s hscope
    rw [expr, expr]
    refine (hx s hscope).bind fun v s₁ h₁ hv => ?_
    refine (hy s₁ (hscope.imp h₁.known)).bind fun w s₂ h₂ hw => ?_
    exact sim_nand ((hscope.imp h₁.known).imp h₂.known) (hv.imp h₂.known) hw want
  case case4 =>
    intro want args hargs s _
    rw [expr.eq_4 b scope want args hargs, expr.eq_4 b' (ρ.scope scope) want args hargs]
    exact Sim.throw
  case case5 =>
    intro want x y hx hy s hscope
    rw [expr, expr]
    refine (hx s hscope).bind fun v s₁ h₁ hv => ?_
    refine (hy s₁ (hscope.imp h₁.known)).bind fun w s₂ h₂ hw => ?_
    exact sim_dff ((hscope.imp h₁.known).imp h₂.known) (hv.imp h₂.known) hw want
  case case6 =>
    intro want args hargs s _
    rw [expr.eq_6 b scope want args hargs, expr.eq_6 b' (ρ.scope scope) want args hargs]
    exact Sim.throw
  case case7 =>
    intro want name args hnand hdff hc s _
    rw [expr.eq_7 b scope want name args hnand hdff, expr.eq_7 b' (ρ.scope scope) want name args hnand hdff,
      hc, callee?_none hb hc]
    exact (sim_note _ _).bind fun _ _ _ _ => Sim.pure rfl trivial
  case case8 =>
    intro want name args hnand hdff c hc ih s hscope
    obtain ⟨c', hc', hfollows⟩ := callee?_some hb hc
    rw [expr.eq_7 b scope want name args hnand hdff, expr.eq_7 b' (ρ.scope scope) want name args hnand hdff,
      hc, hc']
    simp only [hfollows.inputs]
    refine (sim_checkArity _ _ _).bind fun _ s₁ h₁ harity => ?_
    refine (ih s₁ (hscope.imp h₁.known)).bind fun ws s₂ h₂ hws => ?_
    exact (hfollows.instantiate s₂ _ _ ws hb.chain hb.chain' (hws.2 harity) hws.1).bind
      fun outs _ _ hall => Sim.pure rfl hall
  case case9 =>
    intro want object name ih s hscope
    rw [expr, expr]
    exact (ih s hscope).bind fun x s₁ h₁ hx => sim_field (hscope.imp h₁.known) hx object name
  case case10 =>
    intro want object r ih s hscope
    rw [expr, expr]
    refine (ih s hscope).bind fun x s₁ h₁ hx => ?_
    exact (sim_project (hscope.imp h₁.known) hx r).bind fun w _ _ hw => Sim.pure rfl hw
  case case11 =>
    intro p ps a as ha has s hscope
    rw [arguments, arguments]
    refine (ha s hscope).bind fun x s₁ h₁ hx => ?_
    have hscope₁ := hscope.imp h₁.known
    refine (sim_fitted hscope₁ hx p.width).bind fun w s₂ h₂ hw => ?_
    refine (has s₂ (hscope₁.imp h₂.known)).bind fun ws s₃ h₃ hws => ?_
    refine Sim.pure rfl ⟨?_, fun hlen => ?_⟩
    · intro v hv
      rcases List.mem_cons.1 hv with rfl | hv
      · exact hw.1.imp h₃.known
      · exact hws.1 v hv
    · rw [List.map_cons, List.map_cons, hw.2, hws.2 (Nat.succ.inj hlen)]
  case case12 =>
    intro es ps hne s _
    rw [arguments.eq_2 b scope ps es hne, arguments.eq_2 b' (ρ.scope scope) ps es hne]
    refine Sim.pure rfl ⟨nofun, fun hlen => ?_⟩
    cases ps with
    | nil => rfl
    | cons p ps =>
      cases es with
      | nil => cases hlen
      | cons e es => exact (hne p ps e es rfl rfl).elim

theorem sim_expr (hb : ρ.Bodies b b') (hscope : scope.All (ρ.KnownAt s)) (want : Option Nat) (e : Expr) :
    ρ.Sim s (expr b scope want e) (expr b' (ρ.scope scope) want e) ρ.signal
      fun s' x => x.All (ρ.KnownAt s') := (sim_expr_arguments hb scope).1 want e s hscope

theorem lookup_copy (scope : Scope Signal) (name : String) :
    (ρ.scope scope).lookup name = (scope.lookup name).map ρ.signal := Scope.lookup_map _ _ _

/-- Replacing some bits of a name. -/
theorem sim_splice {part current : Wire} {r : BitRange} (name : String) (hscope : scope.All (ρ.KnownAt s))
    (hpart : part.All (ρ.KnownAt s)) (hcurrent : current.All (ρ.KnownAt s)) :
    ρ.Sim s (do
      if (current.fit (max current.width (r.hi + 1))).width < r.lo + part.width then
        throw (.fault .spliceOutOfRange)
      return scope.bind name (.wire ((current.fit (max current.width (r.hi + 1))).splice r.lo part))) (do
      if ((ρ.wire current).fit (max (ρ.wire current).width (r.hi + 1))).width <
          r.lo + (ρ.wire part).width then
        throw (.fault .spliceOutOfRange)
      return (ρ.scope scope).bind name
        (.wire (((ρ.wire current).fit (max (ρ.wire current).width (r.hi + 1))).splice r.lo (ρ.wire part))))
      ρ.scope fun s' scope => scope.All (ρ.KnownAt s') := by
  have hpartwidth : (ρ.wire part).width = part.width := Wire.width_map _ _
  have hwidth : (ρ.wire current).width = current.width := Wire.width_map _ _
  have hfit : (ρ.wire current).fit (max current.width (r.hi + 1)) =
      ρ.wire (current.fit (max current.width (r.hi + 1))) := (Wire.map_fit rfl _ _).symm
  have hall := hcurrent.fit trivial (max current.width (r.hi + 1))
  rw [hpartwidth, hwidth, hfit, show ∀ w, (ρ.wire w).width = w.width from fun w => Wire.width_map _ w]
  split
  · exact Sim.throw_bind
  · have hspliced : Signal.All (ρ.KnownAt s)
        (.wire ((current.fit (max current.width (r.hi + 1))).splice r.lo part)) :=
      hall.splice trivial hpart r.lo
    refine Sim.pure ?_ (hscope.bind hspliced name)
    rw [Renaming.scope, Scope.map_bind, signal, Signal.map, Wire.map_splice rfl]
    rfl

/-- **A statement is elaborated alike in the copy.** -/
theorem sim_assign (hb : ρ.Bodies b b') (hscope : scope.All (ρ.KnownAt s)) (st : Statement) :
    ρ.Sim s (assign b scope st) (assign b' (ρ.scope scope) st) ρ.scope
      fun s' scope => scope.All (ρ.KnownAt s') := by
  unfold assign
  simp only [← hb.module]
  -- a target without a range replaces the whole signal
  cases st.target.range with
  | none =>
    refine (sim_expr hb hscope _ st.expr).bind fun x s₁ h₁ hx => ?_
    exact Sim.pure rfl ((hscope.imp h₁.known).bind hx _)
  | some r =>
    refine (sim_expr hb hscope _ st.expr).bind fun x s₁ h₁ hx => ?_
    have hscope₁ := hscope.imp h₁.known
    refine (sim_fitted hscope₁ hx r.width).bind fun part s₂ h₂ hpart => ?_
    have hscope₂ := hscope₁.imp h₂.known
    rw [lookup_copy]
    cases hl : scope.lookup st.target.name with
    | none =>
      -- nothing is assigned yet, so the other bits start at 0
      simp only [Option.map_none, pure_bind]
      have hzeros := sim_splice (r := r) st.target.name hscope₂ hpart.1
        (Wire.all_zeros trivial (((b.module.output? st.target.name).map Port.width).getD (r.hi + 1)))
      rwa [show ρ.wire (.zeros _) = _ from Wire.map_zeros rfl _] at hzeros
    | some y =>
      refine (sim_materialize hscope₂ (hscope₂.lookup hl) _).bind fun current s₃ h₃ hcurrent => ?_
      exact sim_splice _ (hscope₂.imp h₃.known) (hpart.1.imp h₃.known) hcurrent

theorem sim_assignAll (hb : ρ.Bodies b b') (sts : List Statement) :
    ∀ {s : State} {scope : Scope Signal}, scope.All (ρ.KnownAt s) →
      ρ.Sim s (assignAll b scope sts) (assignAll b' (ρ.scope scope) sts) ρ.scope
        fun s' scope => scope.All (ρ.KnownAt s') := by
  induction sts with
  | nil => exact fun hscope => Sim.pure rfl hscope
  | cons st sts ih => exact fun hscope => (sim_assign hb hscope st).bind fun _ _ _ h => ih h

theorem sim_outputWire (hscope : scope.All (ρ.KnownAt s)) (p : Port) :
    ρ.Sim s (outputWire b scope p) (outputWire b' (ρ.scope scope) p) ρ.wire
      fun s' w => w.All (ρ.KnownAt s') := by
  unfold outputWire
  rw [lookup_copy]
  cases hl : scope.lookup p.name with
  | none => exact (sim_note _ _).bind fun _ _ _ _ => sim_zeros p.width
  | some x =>
    intro hs w s' hw
    obtain ⟨hgrow, hs', hall, hcopy⟩ := sim_fitted hscope (hscope.lookup hl) p.width hs w s' hw
    exact ⟨hgrow, hs', hall.1, hcopy⟩

theorem sim_outputs (ps : List Port) :
    ∀ {s : State}, scope.All (ρ.KnownAt s) →
      ρ.Sim s (outputs b scope ps) (outputs b' (ρ.scope scope) ps) ρ.wires
        fun s' outs => ∀ o ∈ outs, o.2.All (ρ.KnownAt s') := by
  induction ps with
  | nil => exact fun _ => Sim.pure rfl (List.forall_mem_nil _)
  | cons p ps ih =>
    intro s hscope
    rw [outputs_cons, outputs_cons]
    refine (sim_outputWire hscope p).bind fun w s₁ h₁ hw => ?_
    refine (ih (hscope.imp h₁.known)).bind fun outs s₂ h₂ houts => ?_
    refine Sim.pure rfl fun o ho => ?_
    rcases List.mem_cons.1 ho with rfl | ho
    · exact hw.imp h₂.known
    · exact houts o ho

end Renaming

end Elaboration

end NandHdl
