import NandHdl.Proofs.Extending
import NandHdl.Proofs.Renumbering

/-!
# Two runs side by side

Two runs of elaboration agree if they fail with the same error, or succeed with results that are alike. What
is alike is up to the use: which nodes are told apart, and whether their order and the reports matter. A black
box is never told apart from the number 0, and warnings do not matter.

* `Signal.plain`: what a black box and the number 0 have in common.
* `Likeness`: what is told apart. `Likeness.States`, `Likeness.Signals`, `Likeness.Scopes`: what is alike.
* `Likeness.Agree`: two steps agree.
* `agree_materialize`, `agree_project`, `agree_nand`, `agree_dff`: **elaboration looks at widths and at the
  names of fields, and not at bits.**
-/

namespace NandHdl

/-- The signal with the number 0 in place of a black box. -/
def Signal.plain : Signal → Signal
  | .blackBox => .literal 0
  | s => s

theorem Wire.constant_zero (n : Nat) : Wire.constant 0 n = Wire.zeros n := by
  refine congrArg Wire.mk (Array.ext (by simp) fun i _ _ => ?_)
  simp

namespace Elaboration

open Renaming (cellsOf)

/-- What counts as alike: nodes whose numbers `ids` maps to one number, lists of such nodes as `order` says, and
reports as `log` says. Warnings never count. -/
structure Likeness where
  ids : Nat → Nat
  ids_add : ∀ {j k : Nat} (i : Nat), ids j = ids k → ids (j + i) = ids (k + i)
  order : Array Node → Array Node → Prop
  order_refl : ∀ ns, order ns ns
  order_append : ∀ {ns ns' ks ks' : Array Node}, order ns ns' → order ks ks' → order (ns ++ ks) (ns' ++ ks')
  order_map : ∀ (f : Node → Node) {ns ns' : Array Node}, order ns ns' → order (ns.map f) (ns'.map f)
  order_mem : ∀ {ns ns' : Array Node}, order ns ns' → ∀ n, n ∈ ns ↔ n ∈ ns'
  log : List Event → List Event → Prop
  log_note : ∀ (e : Event) {es es' : List Event}, log es es' → log (e :: es) (e :: es')
  log_left : ∀ {e : Event} {es es' : List Event}, e.level = .warn → log es es' → log (e :: es) es'
  log_right : ∀ {e : Event} {es es' : List Event}, e.level = .warn → log es es' → log es (e :: es')

namespace Likeness

/-- What is told apart of a bit. -/
def bit (L : Likeness) : Bit → Bit := Bit.rename L.ids

/-- What is told apart of a node. -/
def node (L : Likeness) : Node → Node := Node.rename L.ids

/-- The states are alike. -/
structure States (L : Likeness) (s t : State) : Prop where
  nextId : L.ids s.nextId = L.ids t.nextId
  nodes : L.order (s.nodes.map L.node) (t.nodes.map L.node)
  slotBase : s.slotBase = t.slotBase
  slots : s.slots = t.slots
  log : L.log s.log t.log

/-- The wires are alike, bit by bit. -/
def Wires (L : Likeness) (v w : Wire) : Prop := v.map L.bit = w.map L.bit

/-- The named wires are alike. -/
def Named (L : Likeness) (vs ws : List (String × Wire)) : Prop :=
  (vs.map fun v => (v.1, v.2.map L.bit)) = ws.map fun w => (w.1, w.2.map L.bit)

/-- What is told apart of a signal. -/
def plain (L : Likeness) (x : Signal) : Signal := x.plain.map L.bit

/-- The signals are alike. -/
def Signals (L : Likeness) (x y : Signal) : Prop := L.plain x = L.plain y

/-- Every name stands for what is alike in both scopes. -/
def Scopes (L : Likeness) (scope scope' : Scope Signal) : Prop := scope.map L.plain = scope'.map L.plain

/-- The outcomes are alike: the same error, or results related by `R`. -/
inductive SameOutcome (L : Likeness) {α β : Type} (R : α → β → Prop) :
    Except CompileError α × State → Except CompileError β × State → Prop
  | ok {a : α} {b : β} {s t : State} (h : R a b) (hst : L.States s t) : SameOutcome L R (.ok a, s) (.ok b, t)
  | error {s t : State} (e : CompileError) (hst : L.States s t) : SameOutcome L R (.error e, s) (.error e, t)

/-- **The two steps agree**: from states that are alike, their outcomes are. The results are related by `R`. -/
def Agree (L : Likeness) {α β : Type} (R : α → β → Prop) (x : Build α) (y : Build β) : Prop :=
  ∀ s t, L.States s t → L.SameOutcome R (ExceptT.run x s) (ExceptT.run y t)

variable {L : Likeness}

/-! ## Steps -/

section Steps

variable {α β γ δ : Type} {R : α → β → Prop} {R' : γ → δ → Prop}

theorem Agree.pure {a : α} {b : β} (h : R a b) : L.Agree R (pure a) (pure b) := fun _ _ hst => .ok h hst

theorem Agree.bind {x : Build α} {y : Build β} {g : α → Build γ} {h : β → Build δ} (hx : L.Agree R x y)
    (hg : ∀ a b, R a b → L.Agree R' (g a) (h b)) : L.Agree R' (x >>= g) (y >>= h) := by
  intro s t hst
  rw [run_bind, run_bind]
  have hs := hx s t hst
  generalize ExceptT.run x s = r at hs ⊢
  generalize ExceptT.run y t = r' at hs ⊢
  cases hs with
  | ok hab hst' => exact hg _ _ hab _ _ hst'
  | error e hst' => exact .error e hst'

theorem Agree.throw (e : CompileError) : L.Agree R (throw e) (throw e) := fun _ _ hst => .error e hst

theorem Agree.throw_bind (e : CompileError) {g : γ → Build α} {h : δ → Build β} :
    L.Agree R (MonadExcept.throw e >>= g) (MonadExcept.throw e >>= h) := fun _ _ hst => .error e hst

theorem Agree.modifyGet {g : State → α × State} {h : State → β × State}
    (hg : ∀ s t, L.States s t → R (g s).1 (h t).1 ∧ L.States (g s).2 (h t).2) :
    L.Agree R (modifyGet g) (modifyGet h) := fun s t hst => .ok (hg s t hst).1 (hg s t hst).2

theorem Agree.modify {g h : State → State} (hg : ∀ s t, L.States s t → L.States (g s) (h t)) :
    L.Agree (fun _ _ => True) (modify g) (modify h) :=
  Agree.modifyGet (g := fun s => ((), g s)) (h := fun s => ((), h s)) fun s t hst => ⟨trivial, hg s t hst⟩

theorem agree_get : L.Agree L.States get get := fun _ _ hst => .ok hst hst

/-- If one step succeeds, so does the other. -/
theorem Agree.gives {x : Build α} {y : Build β} (h : L.Agree R x y) {s t s' : State}
    (hst : L.States s t) {a : α}
    (hx : Gives x s a s') : ∃ b t', Gives y t b t' ∧ R a b ∧ L.States s' t' := by
  have hs := h s t hst
  rw [Gives] at hx
  rw [hx] at hs
  generalize hy : ExceptT.run y t = r at hs
  cases hs with
  | ok hab hst' => exact ⟨_, _, hy, hab, hst'⟩

/-- A warning on one side makes no difference. -/
theorem Agree.warn_left {e : Event} {x : Build α} {y : Build β} (he : e.level = .warn) (h : L.Agree R x y) :
    L.Agree R (do note e; x) y :=
  fun _ t hst => h _ t ⟨hst.nextId, hst.nodes, hst.slotBase, hst.slots, L.log_left he hst.log⟩

/-- A warning on the other side makes no difference. -/
theorem Agree.warn_right {e : Event} {x : Build α} {y : Build β} (he : e.level = .warn) (h : L.Agree R x y) :
    L.Agree R x (do note e; y) :=
  fun s _ hst => h s _ ⟨hst.nextId, hst.nodes, hst.slotBase, hst.slots, L.log_right he hst.log⟩

/-- Warnings on both sides. -/
theorem Agree.warn {e e' : Event} {x : Build α} {y : Build β} (he : e.level = .warn) (he' : e'.level = .warn)
    (h : L.Agree R x y) : L.Agree R (do note e; x) (do note e'; y) := (h.warn_right he').warn_left he

/-- The same report on both sides. -/
theorem agree_note (e : Event) : L.Agree (fun _ _ => True) (note e) (note e) :=
  Agree.modify fun _ _ hst => ⟨hst.nextId, hst.nodes, hst.slotBase, hst.slots, L.log_note e hst.log⟩

theorem Wires.width_eq {v w : Wire} (h : L.Wires v w) : v.width = w.width := by
  rw [← Wire.width_map L.bit v, h, Wire.width_map]

theorem Wires.fit {v w : Wire} (h : L.Wires v w) (n : Nat) : L.Wires (v.fit n) (w.fit n) := by
  rw [Wires, Wire.map_fit (f := L.bit) rfl, Wire.map_fit (f := L.bit) rfl, h]

theorem Wires.bitOrZero {v w : Wire} (h : L.Wires v w) (i : Nat) :
    L.bit (v.bitOrZero i) = L.bit (w.bitOrZero i) := by
  rw [← Wire.bitOrZero_map (f := L.bit) rfl, h, Wire.bitOrZero_map (f := L.bit) rfl]

theorem wires_ofFn (n : Nat) {f g : Nat → Bit} (h : ∀ i, L.bit (f i) = L.bit (g i)) :
    L.Wires (.ofFn n f) (.ofFn n g) := by
  rw [Wires, Wire.map_ofFn, Wire.map_ofFn, funext h]

/-- Nodes for wires that are alike. -/
theorem agree_place {cell : Bit → Bit → Cell} (hcell : ∀ f a b, (cell a b).map f = cell (f a) (f b))
    {a a' b b' : Wire} (ha : L.Wires a a') (hb : L.Wires b b') :
    L.Agree L.Wires (place cell a b) (place cell a' b') := by
  refine Agree.modifyGet fun s t hst => ?_
  have hcells : (cellsOf cell a b).map (Cell.map L.bit) = (cellsOf cell a' b').map (Cell.map L.bit) := by
    rw [← Renaming.cellsOf_map (hcell L.bit), ← Renaming.cellsOf_map (hcell L.bit), ha, hb]
  have hids : ∀ i, L.ids (s.nextId + i) = L.ids (t.nextId + i) := fun i => L.ids_add i hst.nextId
  have hsize : (cellsOf cell a b).size = (cellsOf cell a' b').size := by
    simpa only [Array.size_map] using congrArg Array.size hcells
  have hnodes : ∀ (u : State) (cells : Array Cell),
      (u.nodes ++ cells.mapIdx fun i c => Node.mk (u.nextId + i) c).map L.node =
        u.nodes.map L.node ++
          (cells.map (Cell.map L.bit)).mapIdx fun i c => Node.mk (L.ids (u.nextId + i)) c := by
    intro u cells
    rw [Array.map_append]
    congr 1
    refine Array.ext_getElem? fun i => ?_
    simp only [Array.getElem?_mapIdx, Array.getElem?_map, Option.map_map]
    rfl
  refine ⟨?_, ?_, ?_, hst.slotBase, hst.slots, hst.log⟩
  · change L.Wires (.ofFn (cellsOf cell a b).size _) (.ofFn (cellsOf cell a' b').size _)
    rw [hsize]
    exact wires_ofFn _ fun i => congrArg Bit.node (hids i)
  · change L.ids (s.nextId + (cellsOf cell a b).size) = L.ids (t.nextId + (cellsOf cell a' b').size)
    rw [hsize, hids]
  · change L.order ((s.nodes ++ (cellsOf cell a b).mapIdx fun i c => Node.mk (s.nextId + i) c).map L.node)
      ((t.nodes ++ (cellsOf cell a' b').mapIdx fun i c => Node.mk (t.nextId + i) c).map L.node)
    rw [hnodes, hnodes, hcells]
    simp only [hids]
    exact L.order_append hst.nodes (L.order_refl _)

theorem agree_readForward (name : String) (lo count : Nat) :
    L.Agree L.Wires (readForward name lo count) (readForward name lo count) := by
  unfold readForward
  split
  · exact Agree.throw_bind _
  · refine Agree.modifyGet fun s t hst => ?_
    rw [hst.slotBase, hst.slots]
    exact ⟨rfl, hst.nextId, hst.nodes, rfl, rfl, hst.log⟩

theorem agree_checkArity (name : String) (expected found : Nat) :
    L.Agree (fun _ _ => True) (checkArity name expected found) (checkArity name expected found) := by
  unfold checkArity
  split
  · exact Agree.pure trivial
  · exact Agree.throw _

end Steps

/-! ## Signals -/

section Signals

variable {b b' : Body} {scope scope' : Scope Signal} {x y : Signal}

theorem wire?_plain (x : Signal) : (L.plain x).wire? = x.wire?.map (Wire.map L.bit) := by
  rw [plain, Signal.wire?_map]
  cases x <;> rfl

theorem naturalWidth_plain (x : Signal) : (L.plain x).naturalWidth = x.naturalWidth := by
  cases x <;> rfl

theorem bitOrZero_plain (x : Signal) (i : Nat) : (L.plain x).bitOrZero i = L.bit (x.bitOrZero i) := by
  rw [plain, Signal.bitOrZero_map fun _ => rfl]
  cases x with
  | blackBox => simp [Signal.plain, Signal.bitOrZero, Signal.wire?]
  | _ => rfl

/-- Names lead to what is alike. -/
theorem follow_plain (scope : Scope Signal) (x : Signal) :
    follow (scope.map L.plain) (L.plain x) = L.plain (follow scope x) :=
  follow_replace (fun s name => by cases s <;> simp [plain, Signal.plain, Signal.map]) scope x

theorem Signals.follow (hscope : L.Scopes scope scope') (h : L.Signals x y) :
    L.Signals (follow scope x) (follow scope' y) := by
  rw [Signals, ← follow_plain, ← follow_plain, hscope, h]

theorem Signals.knownWidth_eq (hscope : L.Scopes scope scope') (h : L.Signals x y) :
    knownWidth scope x = knownWidth scope' y := by
  have hwire : ∀ z : Signal, z.wire?.map Wire.width = (L.plain z).wire?.map Wire.width := by
    intro z
    rw [wire?_plain, Option.map_map]
    congr 1
    funext w
    exact (Wire.width_map L.bit w).symm
  rw [knownWidth, knownWidth, hwire (NandHdl.follow scope x), h.follow hscope, ← hwire]

theorem Signals.naturalWidth_eq (h : L.Signals x y) : x.naturalWidth = y.naturalWidth := by
  rw [← naturalWidth_plain (L := L), h, naturalWidth_plain]

theorem finalBit_of_scopes (hscope : L.Scopes scope scope') (slot : ForwardSlot) :
    L.bit (finalBit scope slot) = L.bit (finalBit scope' slot) := by
  have hname : L.Signals (.forward slot.name) (.forward slot.name) := rfl
  rw [finalBit, finalBit, ← bitOrZero_plain, hname.follow hscope, bitOrZero_plain]

/-- The ways in which two signals are alike. -/
inductive Like (L : Likeness) : Signal → Signal → Prop
  | wire {v w : Wire} (h : L.Wires v w) : Like L (.wire v) (.wire w)
  | bundle {fields fields' : List (String × Wire)} (h : L.Named fields fields') :
    Like L (.bundle fields) (.bundle fields')
  | literal (value : Nat) : Like L (.literal value) (.literal value)
  | blackBox : Like L .blackBox .blackBox
  | forward (name : String) : Like L (.forward name) (.forward name)
  | boxed : Like L .blackBox (.literal 0)
  | unboxed : Like L (.literal 0) .blackBox

theorem Signals.like (h : L.Signals x y) : L.Like x y := by
  cases x <;> cases y <;> simp only [Signals, plain, Signal.plain, Signal.map, reduceCtorEq, Signal.wire.injEq,
    Signal.bundle.injEq, Signal.literal.injEq, Signal.forward.injEq] at h
  · exact .wire h
  · exact .bundle h
  · subst h; exact .literal _
  · subst h; exact .unboxed
  · subst h; exact .boxed
  · exact .blackBox
  · subst h; exact .forward _

/-- Both have no output, one output, with wires that are alike, or several. -/
theorem Named.none_or_one_or_more {vs ws : List (String × Wire)} (h : L.Named vs ws) :
    (vs = [] ∧ ws = []) ∨ (∃ f v g w, vs = [(f, v)] ∧ ws = [(g, w)] ∧ L.Wires v w) ∨
      ∃ d e vs' d' e' ws', vs = d :: e :: vs' ∧ ws = d' :: e' :: ws' := by
  have hlength : vs.length = ws.length := by simpa only [List.length_map] using congrArg List.length h
  -- the lengths leave three of nine cases
  rcases vs with _ | ⟨⟨f, v⟩, _ | ⟨e, vs⟩⟩ <;> rcases ws with _ | ⟨⟨g, w⟩, _ | ⟨e', ws⟩⟩ <;>
    simp only [List.length_nil, List.length_cons] at hlength <;> try omega
  · exact .inl ⟨rfl, rfl⟩
  · rw [Named, List.map_singleton, List.map_singleton, List.singleton_inj, Prod.mk.injEq] at h
    exact .inr (.inl ⟨f, v, g, w, rfl, rfl, h.2⟩)
  · exact .inr (.inr ⟨_, e, vs, _, e', ws, rfl, rfl⟩)

theorem agree_zeros (n : Nat) : L.Agree L.Wires (pure (.zeros n)) (pure (.zeros n)) := Agree.pure rfl

theorem agree_materialize (hscope : L.Scopes scope scope') (h : L.Signals x y) (want : Option Nat) :
    L.Agree L.Wires (materialize b scope x want) (materialize b' scope' y want) := by
  have hlike := (h.follow hscope).like
  have hzero : Wire.constant 0 (want.getD (bitLength 0)) = .zeros (want.getD 1) := Wire.constant_zero _
  unfold materialize
  generalize follow scope x = u, follow scope' y = v at hlike
  cases hlike with
  | wire h => exact Agree.pure h
  | bundle h =>
    -- only a single output is a wire
    obtain ⟨rfl, rfl⟩ | ⟨f, v, g, w, rfl, rfl, hw⟩ | ⟨_, _, _, _, _, _, rfl, rfl⟩ := h.none_or_one_or_more
    · exact (agree_zeros _).warn rfl rfl
    · exact Agree.pure hw
    · exact (agree_zeros _).warn rfl rfl
  | literal value => exact Agree.pure rfl
  | blackBox => exact agree_zeros _
  | forward name => exact agree_readForward name 0 _
  | boxed =>
    simp only [hzero]
    exact agree_zeros _
  | unboxed =>
    simp only [hzero]
    exact agree_zeros _

theorem agree_fitted (hscope : L.Scopes scope scope') (h : L.Signals x y) (width : Nat) :
    L.Agree L.Wires (fitted b scope x width) (fitted b' scope' y width) :=
  (agree_materialize hscope h (some width)).bind fun _ _ hw => Agree.pure (hw.fit width)

theorem agree_extract (hscope : L.Scopes scope scope') (h : L.Signals x y) (r : BitRange) :
    L.Agree L.Wires (do
      let w ← materialize b scope x none
      if w.width ≤ r.hi then note (.bitOutOfRange r.hi w.width b.module.name)
      return w.extract r.lo r.width) (do
      let w ← materialize b' scope' y none
      if w.width ≤ r.hi then note (.bitOutOfRange r.hi w.width b'.module.name)
      return w.extract r.lo r.width) := by
  refine (agree_materialize hscope h none).bind fun w v hw => ?_
  have hpure : L.Agree L.Wires (pure (w.extract r.lo r.width)) (pure (v.extract r.lo r.width)) := by
    refine Agree.pure ?_
    rw [Wires, Wire.map_extract (f := L.bit) rfl, Wire.map_extract (f := L.bit) rfl, hw]
  rw [hw.width_eq]
  split
  · exact hpure.warn rfl rfl
  · exact hpure

theorem agree_project (hscope : L.Scopes scope scope') (h : L.Signals x y) (r : BitRange) :
    L.Agree L.Wires (project b scope x r) (project b' scope' y r) := by
  have hsame := h.follow hscope
  have hlike := hsame.like
  have hzero : (Wire.ofFn r.width fun i => .const (Nat.testBit 0 (r.lo + i))) = .zeros r.width := by
    rw [← Wire.constant_zero, Wire.constant]
    simp only [Nat.zero_testBit]
  unfold project
  generalize follow scope x = u, follow scope' y = v at hsame hlike
  cases hlike with
  | wire _ => exact agree_extract hscope hsame r
  | bundle _ => exact agree_extract hscope hsame r
  | literal value => exact Agree.pure rfl
  | blackBox => exact agree_zeros _
  | forward name => exact agree_readForward name r.lo r.width
  | boxed =>
    simp only [hzero]
    exact agree_zeros _
  | unboxed =>
    simp only [hzero]
    exact agree_zeros _

/-- Black boxes on both sides, or a black box and the number 0. -/
theorem agree_blackBox : L.Agree L.Signals (pure .blackBox) (pure .blackBox) := Agree.pure rfl

theorem Named.find? {vs ws : List (String × Wire)} (h : L.Named vs ws) (name : String) :
    (vs.find? (·.1 = name)).map (fun f => f.2.map L.bit) =
      (ws.find? (·.1 = name)).map fun f => f.2.map L.bit := by
  have hfind : ∀ fs : List (String × Wire), (fs.find? (·.1 = name)).map (fun f => f.2.map L.bit) =
      ((fs.map fun f => (f.1, f.2.map L.bit)).find? (·.1 = name)).map Prod.snd := by
    intro fs
    rw [List.find?_map, Option.map_map]
    rfl
  rw [hfind, hfind ws]
  exact congrArg (fun fs : List (String × Wire) => (fs.find? (·.1 = name)).map Prod.snd) h

theorem agree_field (hscope : L.Scopes scope scope') (h : L.Signals x y) (object object' : Expr)
    (name : String) : L.Agree L.Signals (field scope object x name) (field scope' object' y name) := by
  have hlike := (h.follow hscope).like
  unfold field
  generalize follow scope x = u, follow scope' y = v at hlike
  cases hlike with
  | @bundle fields fields' h =>
    have hfields := h.find? name
    cases hf : fields.find? (·.1 = name) with
    | none =>
      rw [hf, Option.map_none, eq_comm, Option.map_eq_none_iff] at hfields
      simp only [hf, hfields]
      exact agree_blackBox.warn rfl rfl
    | some f =>
      rw [hf] at hfields
      obtain ⟨f', hf', hsame⟩ := Option.map_eq_some_iff.1 hfields.symm
      simp only [hf, hf']
      exact Agree.pure (congrArg Signal.wire hsame.symm)
  | blackBox => exact agree_blackBox
  | boxed => exact agree_blackBox.warn_right rfl
  | unboxed => exact agree_blackBox.warn_left rfl
  | _ => exact agree_blackBox.warn rfl rfl

/-- A name is bound in both scopes, or in none. -/
theorem Scopes.lookup (hscope : L.Scopes scope scope') (name : String) :
    (scope.lookup name = none ∧ scope'.lookup name = none) ∨
      ∃ x y, scope.lookup name = some x ∧ scope'.lookup name = some y ∧ L.Signals x y := by
  have h : (scope.lookup name).map L.plain = (scope'.lookup name).map L.plain := by
    rw [← Scope.lookup_map, ← Scope.lookup_map, hscope]
  cases hx : scope.lookup name with
  | none =>
    rw [hx] at h
    exact .inl ⟨rfl, Option.map_eq_none_iff.1 h.symm⟩
  | some x =>
    rw [hx] at h
    obtain ⟨y, hy, hxy⟩ := Option.map_eq_some_iff.1 h.symm
    exact .inr ⟨x, y, rfl, hy, hxy.symm⟩

theorem Scopes.bind (hscope : L.Scopes scope scope') (h : L.Signals x y) (name : String) :
    L.Scopes (scope.bind name x) (scope'.bind name y) := by
  rw [Scopes, Scope.map_bind, Scope.map_bind, hscope, h]

theorem signals_wire {v w : Wire} (h : L.Wires v w) : L.Signals (.wire v) (.wire w) :=
  congrArg Signal.wire h

/-- Gates over two signals brought to one width. -/
theorem agree_gates {x' y' : Signal} (hscope : L.Scopes scope scope') (hx : L.Signals x x')
    (hy : L.Signals y y') (width : Nat) :
    L.Agree L.Signals (do
      let x ← fitted b scope x width
      let y ← fitted b scope y width
      return .wire (← place .nand x y)) (do
      let x ← fitted b' scope' x' width
      let y ← fitted b' scope' y' width
      return .wire (← place .nand x y)) := by
  refine (agree_fitted hscope hx width).bind fun v v' hv =>
    (agree_fitted hscope hy width).bind fun w w' hw => ?_
  exact (agree_place (fun _ _ _ => rfl) hv hw).bind fun z z' hz => Agree.pure (signals_wire hz)

theorem agree_nand {x' y' : Signal} (hscope : L.Scopes scope scope') (hx : L.Signals x x')
    (hy : L.Signals y y') (want : Option Nat) :
    L.Agree L.Signals (nand b scope want x y) (nand b' scope' want x' y') := by
  -- whichever width is known decides, and black boxes know none, as numbers do
  unfold nand
  rw [hx.knownWidth_eq hscope, hy.knownWidth_eq hscope, hx.naturalWidth_eq, hy.naturalWidth_eq]
  cases knownWidth scope' x' with
  | none =>
    cases knownWidth scope' y' with
    | none => exact agree_gates hscope hx hy _
    | some v => exact agree_gates hscope hx hy v
  | some w =>
    cases knownWidth scope' y' with
    | none => exact agree_gates hscope hx hy w
    | some v =>
      by_cases heq : w = v
      · simp only [if_pos heq, pure_bind]
        exact agree_gates hscope hx hy w
      · simp only [if_neg heq]
        exact Agree.throw_bind _

theorem agree_dff {x' y' : Signal} (hscope : L.Scopes scope scope') (hx : L.Signals x x')
    (hy : L.Signals y y') (want : Option Nat) :
    L.Agree L.Signals (dff b scope want x y) (dff b' scope' want x' y') := by
  unfold dff
  rw [hx.knownWidth_eq hscope, hy.knownWidth_eq hscope, hx.naturalWidth_eq]
  generalize (knownWidth scope' x').getD (want.getD x'.naturalWidth) = width
  refine (agree_fitted hscope hx width).bind fun v v' hv => ?_
  have hcells : ∀ w w' : Wire, L.Wires w w' → L.Agree L.Signals (do return .wire (← place .dff v w))
      (do return .wire (← place .dff v' w')) := fun w w' hw =>
    (agree_place (fun _ _ _ => rfl) hv hw).bind fun z z' hz => Agree.pure (signals_wire hz)
  -- one bit of clock is shared by all bits of data
  have hshared : L.Agree L.Signals (do
      let c ← fitted b scope y 1
      let clk ← pure (.ofFn width fun _ => c.bitOrZero 0)
      return .wire (← place .dff v clk)) (do
      let c ← fitted b' scope' y' 1
      let clk ← pure (.ofFn width fun _ => c.bitOrZero 0)
      return .wire (← place .dff v' clk)) := by
    refine (agree_fitted hscope hy 1).bind fun c c' hc => ?_
    simp only [pure_bind]
    exact hcells _ _ (wires_ofFn width fun _ => hc.bitOrZero 0)
  split
  · exact hshared
  · exact hshared
  · split
    · exact (agree_materialize hscope hy (some width)).bind hcells
    · exact Agree.throw_bind _

end Signals

end Likeness

end Elaboration

end NandHdl
