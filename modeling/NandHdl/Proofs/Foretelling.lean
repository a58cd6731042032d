import NandHdl.Proofs.Prophecy

/-!
# Foresight takes the same steps

Whatever elaboration with slots does, elaboration with foresight does beside it.

* `Prophecy.Foretold`: one step beside another. `Foretold.bind`, `Shows.foretold_bind`: one after another.
* `Callee.Copying`: what is called is a copy of a netlist.
* `foretold_expr_arguments`, `foretold_assign`: **expressions and statements are elaborated alike.**
* `foretold_assignAll`, `shows_outputs`, `shows_locals`: a whole body.
-/

namespace NandHdl

namespace Elaboration

namespace Prophecy

variable {p : Prophecy} {f : Foresight} {s t : State} {scope : Scope Signal} {x : Signal} {b : Body}
  {α β γ : Type}

/-! ## Steps -/

theorem Foretold.pure {a a' : α} {g : α → α} (ha : g a = a') : p.Foretold s (pure a) (pure a') g := by
  intro c s' hc
  obtain ⟨rfl, rfl⟩ := gives_pure.1 hc
  exact ⟨StayOpen.refl _, fun _ t ht => ⟨t, gives_pure.2 ⟨ha, rfl⟩, ht⟩⟩

theorem Foretold.bind {x y : Build α} {g : α → α} {k k' : α → Build β} {h : β → β} (hx : p.Foretold s x y g)
    (hk : ∀ a s', Gives x s a s' → p.Foretold s' (k a) (k' (g a)) h) :
    p.Foretold s (x >>= k) (y >>= k') h := by
  intro c s'' hc
  obtain ⟨a, s', ha, hc⟩ := gives_bind.1 hc
  obtain ⟨hkept, hfore⟩ := hx a s' ha
  obtain ⟨hkept', hfore'⟩ := hk a s' ha c s'' hc
  refine ⟨hkept.trans hkept', fun hlast t ht => ?_⟩
  obtain ⟨t', hy, ht'⟩ := hfore (hkept'.trans hlast) t ht
  obtain ⟨t'', hz, ht''⟩ := hfore' hlast t' ht'
  exact ⟨t'', gives_bind.2 ⟨g a, t', hy, hz⟩, ht''⟩

/-- What is read is known already with foresight. -/
theorem Shows.foretold_bind {x : Build α} {g : α → β} {a' : β} {k : α → Build γ} {r : β → Build γ} {h : γ → γ}
    (hx : p.Shows s x g a') (hk : ∀ a s', Gives x s a s' → p.Foretold s' (k a) (r (g a)) h) :
    p.Foretold s (x >>= k) (r a') h := by
  intro c s'' hc
  obtain ⟨a, s', ha, hc⟩ := gives_bind.1 hc
  obtain ⟨hslots, ha'⟩ := hx a s' ha
  obtain ⟨hkept', hfore'⟩ := hk a s' ha c s'' hc
  refine ⟨hslots.kept.trans hkept', fun hlast t ht => ?_⟩
  have hcont := hfore' hlast t (ht.onlySlots hslots)
  rwa [ha' ht.base (hkept'.trans hlast)] at hcont

theorem Foretold.throw {e : CompileError} {y : Build α} {g : α → α} : p.Foretold s (throw e) y g :=
  fun _ _ h => absurd h not_gives_throw

theorem Foretold.throw_bind {e : CompileError} {k : α → Build β} {y : Build β} {g : β → β} :
    p.Foretold s (MonadExcept.throw e >>= k) y g := by
  intro c s' h
  obtain ⟨_, _, h, -⟩ := gives_bind.1 h
  exact absurd h not_gives_throw

theorem foretold_note (e e' : Event) : p.Foretold s (note e) (note e') id := by
  intro u s' hu
  have hslots := onlySlots_note hu
  refine ⟨hslots.kept, fun _ t ht => ⟨_, gives_note.2 rfl, ?_⟩⟩
  have ht' := ht.onlySlots hslots
  exact ⟨ht'.base, ht'.nextId, ht'.nodes⟩

/-- The new nodes with foresight are what becomes of the new nodes. -/
theorem Beside.withCells (ht : p.Beside s t) (cells : Array Cell) :
    p.Beside (Renaming.withCells s cells) (Renaming.withCells t (cells.map (Cell.map p.bit))) := by
  refine ⟨ht.base, ?_, ?_⟩
  · simp only [Renaming.withCells, Array.size_map, ht.nextId]
  · simp only [Renaming.withCells, ht.nodes, Array.map_append, ht.nextId]
    congr 1
    exact Array.ext_getElem? fun i => by
      simp only [Array.getElem?_mapIdx, Array.getElem?_map, Option.map_map, Function.comp_def, node]

theorem foretold_place {cell : Bit → Bit → Cell}
    (hmap : ∀ x y, (cell x y).map p.bit = cell (p.bit x) (p.bit y)) (v w : Wire) :
    p.Foretold s (place cell v w) (place cell (p.wire v) (p.wire w)) p.wire := by
  intro o s' ho
  obtain ⟨rfl, rfl⟩ := Renaming.gives_place.1 ho
  have hcells : Renaming.cellsOf cell (p.wire v) (p.wire w) =
      (Renaming.cellsOf cell v w).map (Cell.map p.bit) := Renaming.cellsOf_map hmap v w
  refine ⟨StayOpen.refl _, fun _ t ht => ⟨_, Renaming.gives_place.2 ⟨?_, rfl⟩, ?_⟩⟩
  · rw [hcells, Array.size_map, wire, Wire.map_ofFn, ht.nextId]
    exact Wire.ofFn_congr fun i _ => p.kept _ rfl
  · rw [hcells]
    exact ht.withCells _

theorem foretold_field (object : Expr) (name : String) :
    p.Foretold s (field scope object x name) (field (p.scope scope) object (p.signal x) name) p.signal := by
  have hnone : ∀ e e' : Event, p.Foretold s (do note e; return .blackBox) (do note e'; return .blackBox)
      p.signal := fun e e' => (foretold_note e e').bind fun _ _ _ => Foretold.pure rfl
  unfold field
  rw [follow_scope]
  cases follow scope x with
  | bundle fields =>
    simp only [signal, Signal.map, List.find?_map, Function.comp_def]
    cases fields.find? fun g => decide (g.1 = name) with
    | none => exact hnone _ _
    | some g => exact Foretold.pure rfl
  | wire w => exact hnone _ _
  | literal value => exact hnone _ _
  | blackBox => exact Foretold.pure rfl
  | forward name => exact hnone _ _

theorem foretold_nameSignal (name : String) :
    p.Foretold s (nameSignal b scope name) (nameSignal b (p.scope scope) name) p.signal := by
  unfold nameSignal
  rw [Prophecy.scope, Scope.lookup_map]
  cases scope.lookup name with
  | some y => exact Foretold.pure rfl
  | none =>
    simp only [Option.map_none]
    split
    · exact Foretold.pure rfl
    · exact (foretold_note _ _).bind fun _ _ _ => Foretold.pure rfl

/-- Cells over two wires. -/
def placed (cell : Bit → Bit → Cell) (v w : Wire) : Build Signal := do
  return .wire (← place cell v w)

theorem foretold_placed {cell : Bit → Bit → Cell}
    (hmap : ∀ x y, (cell x y).map p.bit = cell (p.bit x) (p.bit y)) (v w : Wire) :
    p.Foretold s (placed cell v w) (placed cell (p.wire v) (p.wire w)) p.signal :=
  (foretold_place hmap v w).bind fun _ _ _ => Foretold.pure rfl

/-- Gates over two signals that are brought to one width. -/
theorem foretold_gates (h : p.Knows f scope) (x y : Signal) (width : Nat) :
    p.Foretold s (do
      let x ← fitted b scope x width
      let y ← fitted b scope y width
      placed .nand x y)
      (placed .nand (.ofFn width (f.bits (p.scope scope) (p.signal x)))
        (.ofFn width (f.bits (p.scope scope) (p.signal y)))) p.signal := by
  refine (shows_fitted h x width).foretold_bind (r := fun v =>
    placed .nand v (.ofFn width (f.bits (p.scope scope) (p.signal y)))) fun v s₁ _ => ?_
  refine (shows_fitted h y width).foretold_bind (r := placed .nand (p.wire v)) fun w s₂ _ => ?_
  exact foretold_placed (fun _ _ => rfl) v w

theorem foretold_nand (h : p.Knows f scope) (want : Option Nat) (x y : Signal) :
    p.Foretold s (nand b scope want x y) (f.nand (p.scope scope) want (p.signal x) (p.signal y)) p.signal := by
  -- whichever width is known decides, and foresight knows the same ones
  unfold nand Foresight.nand
  rw [knownWidth_scope, knownWidth_scope, naturalWidth_signal, naturalWidth_signal]
  cases knownWidth scope x with
  | none =>
    cases knownWidth scope y with
    | none =>
      simp only [pure_bind]
      exact foretold_gates h x y _
    | some v =>
      simp only [pure_bind]
      exact foretold_gates h x y v
  | some w =>
    cases knownWidth scope y with
    | none =>
      simp only [pure_bind]
      exact foretold_gates h x y w
    | some v =>
      by_cases hw : w = v
      · simp only [if_pos hw, pure_bind]
        exact foretold_gates h x y w
      · simp only [if_neg hw]
        exact Foretold.throw_bind

/-- One bit of clock is shared by all bits of data. -/
theorem foretold_shared (h : p.Knows f scope) (v : Wire) (y : Signal) (width : Nat) :
    p.Foretold s (do
      let c ← fitted b scope y 1
      placed .dff v (.ofFn width fun _ => c.bitOrZero 0))
      (placed .dff (p.wire v) (.ofFn width fun _ => f.bits (p.scope scope) (p.signal y) 0)) p.signal := by
  have hbit : f.bits (p.scope scope) (p.signal y) 0 =
      (Wire.ofFn 1 (f.bits (p.scope scope) (p.signal y))).bitOrZero 0 :=
    (Wire.bitOrZero_ofFn _ Nat.one_pos).symm
  rw [hbit]
  have hread : p.Shows s (fitted b scope y 1) p.wire _ := shows_fitted h y 1
  refine hread.foretold_bind (r := fun c : Wire =>
    placed .dff (p.wire v) (.ofFn width fun _ => c.bitOrZero 0)) fun c s₁ _ => ?_
  have hclk : p.wire (.ofFn width fun _ => c.bitOrZero 0) = .ofFn width fun _ => (p.wire c).bitOrZero 0 := by
    rw [wire, Wire.map_ofFn, wire, Wire.bitOrZero_map (bit_const false)]
  rw [← hclk]
  exact foretold_placed (fun _ _ => rfl) v _

/-- A clock that is as wide as the data. -/
theorem foretold_wide (h : p.Knows f scope) (v : Wire) {y : Signal} {w : Nat}
    (hy : knownWidth scope y = some w) (width : Nat) :
    p.Foretold s
      (if w = width then do placed .dff v (← materialize b scope y (some width))
        else do placed .dff v (← throw (.widthMismatch "dff" width w)))
      (do
        let clk ← (if w = width then Pure.pure (.ofFn width (f.bits (p.scope scope) (p.signal y)))
          else MonadExcept.throw (.widthMismatch "dff" width w) : Build Wire)
        placed .dff (p.wire v) clk) p.signal := by
  split
  · next hwidth =>
    have hwire : f.wire (p.scope scope) (p.signal y) (some width) =
        .ofFn width (f.bits (p.scope scope) (p.signal y)) := by
      rw [Foresight.wire, knownWidth_scope, hy, hwidth]
      rfl
    rw [pure_bind, ← hwire]
    refine (shows_materialize h y (some width)).foretold_bind (r := placed .dff (p.wire v)) fun clk s₂ _ => ?_
    exact foretold_placed (fun _ _ => rfl) v clk
  · exact Foretold.throw_bind

theorem foretold_dff (h : p.Knows f scope) (want : Option Nat) (x y : Signal) :
    p.Foretold s (dff b scope want x y) (f.dff (p.scope scope) want (p.signal x) (p.signal y)) p.signal := by
  unfold dff Foresight.dff
  rw [knownWidth_scope, naturalWidth_signal]
  generalize (knownWidth scope x).getD (want.getD x.naturalWidth) = width
  refine (shows_fitted h x width).foretold_bind (r := fun v : Wire => do
    placed .dff v (← f.clock (p.scope scope) width (p.signal y))) fun v s₁ _ => ?_
  -- the clock is one bit, or as wide as the data, or refused
  rw [Foresight.clock, knownWidth_scope]
  cases hy : knownWidth scope y with
  | none =>
    simp only [pure_bind]
    exact foretold_shared h v y width
  | some w =>
    match w with
    | 0 => exact foretold_wide h v hy width
    | 1 =>
      simp only [pure_bind]
      exact foretold_shared h v y width
    | w + 2 => exact foretold_wide h v hy width

end Prophecy

/-! ## Instances -/

/-- The instances of the callee are copies of a netlist, or there are none. -/
inductive Callee.Copying (c : Callee) : Prop
  | copies {first : Nat} {n : Netlist} (hinputs : n.inputs = c.inputs) (hclosed : Closed first n)
    (hpastes : c.Pastes first n)
  | refuses (h : ∀ chain args s outs s', ¬ Gives (c.instantiate chain args) s outs s')

namespace Prophecy

variable {p : Prophecy} {s : State} {first : Nat} {n : Netlist} {args : List Wire}

/-- Copying before the end or at the end is the same. -/
theorem bit_copy {c : Bit} {next width start : Nat} (h : Inside first next width c) :
    p.bit (c.copy first start args) = c.copy first start (args.map p.wire) := by
  cases c with
  | input i => exact (argumentBit_map (bit_const false) args i).symm
  | forward k => exact h.elim
  | _ => exact p.kept _ rfl

theorem wires_copy (h : Closed first n) (start : Nat) :
    p.wires (n.outputs.map fun o => (o.1.name, o.2.map (Bit.copy first start args))) =
      n.outputs.map fun o => (o.1.name, o.2.map (Bit.copy first start (args.map p.wire))) := by
  rw [wires, List.map_map]
  refine List.map_congr_left fun o ho => ?_
  rw [Function.comp_apply, wire, Wire.map_map, Wire.map_congr ((h.outputs o ho).imp fun _ hb => bit_copy hb)]

theorem nodes_copy (h : Closed first n) (start : Nat) :
    (n.nodes.map (Node.copy first start args)).map p.node =
      n.nodes.map (Node.copy first start (args.map p.wire)) := by
  rw [Array.map_map]
  refine Array.map_congr_left fun o ho => ?_
  rw [Function.comp_apply, node, Node.copy, Node.copy, Cell.map_map,
    Cell.map_congr ((h.reads o ho).imp fun _ hb => bit_copy hb)]

/-- **An instance with foresight** is the copy for the arguments that the slots stand for. -/
theorem foretold_instantiate {c : Callee} (hc : c.Copying) {chain : List String} (hchain : chain ≠ [])
    (hwidth : args.map Wire.width = c.inputs.map Port.width) (hargs : ∀ w ∈ args, w.slotsBelow s.limit) :
    p.Foretold s (c.instantiate chain args) (c.instantiate chain (args.map p.wire)) p.wires := by
  obtain ⟨caller, chain, rfl⟩ := List.exists_cons_of_ne_nil hchain
  intro outs s' houts
  cases hc with
  | refuses h => exact absurd houts (h _ _ _ _ _)
  | @copies first n hinputs hclosed hpastes =>
    rw [← hinputs] at hwidth
    obtain ⟨log, hcopy⟩ := hpastes caller chain args s hwidth hargs
    obtain ⟨rfl, rfl⟩ := houts.unique hcopy
    refine ⟨StayOpen.refl _, fun _ t ht => ?_⟩
    have hwidth' : (args.map p.wire).map Wire.width = n.inputs.map Port.width := by
      rw [← hwidth, List.map_map]
      exact List.map_congr_left fun w _ => Wire.width_map _ w
    -- with foresight no argument names a slot
    have hargs' : ∀ w ∈ args.map p.wire, w.slotsBelow t.limit := by
      refine List.forall_mem_map.2 fun w _ => Array.all_eq_true'.2 ?_
      refine Wire.All.map (P := fun c => c.slotBelow t.limit) fun c _ => ?_
      exact Bit.slotBelow_mono (Nat.zero_le _) (p.settles c)
    obtain ⟨log', hcopy'⟩ := hpastes caller chain (args.map p.wire) t hwidth' hargs'
    rw [ht.nextId, ← wires_copy hclosed, ← nodes_copy hclosed] at hcopy'
    refine ⟨_, hcopy', ht.base, rfl, ?_⟩
    simp only [ht.nodes, Array.map_append]

end Prophecy

/-! ## Bodies -/

/-- The state is sound, and what is bound is known there. -/
structure Renaming.SoundWith (ρ : Renaming) (scope : Scope Signal) (s : State) : Prop where
  sound : ρ.Sound s
  known : scope.All (ρ.KnownAt s)

theorem Renaming.SoundWith.after {α : Type} {ρ : Renaming} {scope : Scope Signal} {s s' : State}
    {x y : Build α} {g : α → α} {K : State → α → Prop} {a : α} (h : ρ.SoundWith scope s) (hsim : ρ.Sim s x y g K)
    (ha : Gives x s a s') : ρ.SoundWith scope s' := by
  obtain ⟨hgrow, hs', -, -⟩ := hsim h.sound a s' ha
  exact ⟨hs', h.known.imp hgrow.known⟩

namespace Prophecy

variable {p : Prophecy} {f : Foresight} {ρ : Renaming} {s : State} {scope : Scope Signal} {b : Body}

theorem foretold_checkArity (name : String) (expected found : Nat) :
    p.Foretold s (checkArity name expected found) (checkArity name expected found) id := by
  unfold checkArity
  split
  · exact Foretold.pure rfl
  · exact Foretold.throw

/-- A call with the right number of arguments is a copy of a netlist. -/
theorem foretold_call (hb : ρ.Bodies b b) {c : Callee} (hc : c.Copying) {args : List Expr}
    (ih : ∀ s, ρ.SoundWith scope s → p.Foretold s (arguments b scope c.inputs args)
      (f.arguments b (p.scope scope) c.inputs args) (List.map p.wire))
    (hs : ρ.SoundWith scope s) (name : String) :
    p.Foretold s (do
      checkArity name c.inputs.length args.length
      let wires ← arguments b scope c.inputs args
      return .bundle (← c.instantiate b.chain wires)) (do
      checkArity name c.inputs.length args.length
      let wires ← f.arguments b (p.scope scope) c.inputs args
      return .bundle (← c.instantiate b.chain wires)) p.signal := by
  refine (foretold_checkArity _ _ _).bind fun u s₁ h₁ => ?_
  obtain ⟨-, -, harity, -⟩ := Renaming.sim_checkArity (ρ := ρ) _ _ _ hs.sound u s₁ h₁
  have hs₁ := hs.after (Renaming.sim_checkArity _ _ _) h₁
  refine (ih s₁ hs₁).bind fun ws s₂ h₂ => ?_
  -- the arguments are as wide as the ports and name open slots
  obtain ⟨-, -, ⟨hall, hwidth⟩, -⟩ :=
    (Renaming.sim_expr_arguments hb scope).2 _ _ s₁ hs₁.known hs₁.sound ws s₂ h₂
  have hbelow : ∀ w ∈ ws, w.slotsBelow s₂.limit := fun w hw =>
    Array.all_eq_true'.2 fun c hc => (hall w hw c hc).slotBelow
  exact (foretold_instantiate hc hb.chain (hwidth harity) hbelow).bind fun outs s₃ _ => Foretold.pure rfl

/-- **An expression is elaborated alike with foresight.** -/
theorem foretold_expr_arguments (hb : ρ.Bodies b b) (hcalls : ∀ c ∈ b.callees, c.Copying)
    (h : p.Knows f scope) :
    (∀ want e s, ρ.SoundWith scope s → p.Foretold s (expr b scope want e)
      (f.expr b (p.scope scope) want e) p.signal) ∧
    ∀ ps es s, ρ.SoundWith scope s → p.Foretold s (arguments b scope ps es)
      (f.arguments b (p.scope scope) ps es) (List.map p.wire) := by
  -- the induction is on expressions and argument lists at once, one case for each equation
  apply expr.mutual_induct b
  case case1 =>
    intro want name s _
    rw [expr, Foresight.expr]
    exact foretold_nameSignal name
  case case2 =>
    intro want value s _
    rw [expr, Foresight.expr]
    exact Foretold.pure rfl
  case case3 =>
    intro want x y hx hy s hs
    rw [expr, Foresight.expr]
    refine (hx s hs).bind fun v s₁ h₁ => ?_
    have hs₁ := hs.after (Renaming.sim_expr hb hs.known want x) h₁
    exact (hy s₁ hs₁).bind fun w s₂ _ => foretold_nand h want v w
  case case4 =>
    intro want args hargs s _
    rw [expr.eq_4 b scope want args hargs, Foresight.expr.eq_4 f b (p.scope scope) want args hargs]
    exact Foretold.throw
  case case5 =>
    intro want x y hx hy s hs
    rw [expr, Foresight.expr]
    refine (hx s hs).bind fun v s₁ h₁ => ?_
    have hs₁ := hs.after (Renaming.sim_expr hb hs.known want x) h₁
    exact (hy s₁ hs₁).bind fun w s₂ _ => foretold_dff h want v w
  case case6 =>
    intro want args hargs s _
    rw [expr.eq_6 b scope want args hargs, Foresight.expr.eq_6 f b (p.scope scope) want args hargs]
    exact Foretold.throw
  case case7 =>
    intro want name args hnand hdff hc s _
    rw [expr.eq_7 b scope want name args hnand hdff,
      Foresight.expr.eq_7 f b (p.scope scope) want name args hnand hdff, hc]
    exact (foretold_note _ _).bind fun _ _ _ => Foretold.pure rfl
  case case8 =>
    intro want name args hnand hdff c hc ih s hs
    rw [expr.eq_7 b scope want name args hnand hdff,
      Foresight.expr.eq_7 f b (p.scope scope) want name args hnand hdff, hc]
    exact foretold_call hb (hcalls c (List.mem_of_find?_eq_some hc)) ih hs name
  case case9 =>
    intro want object name ih s hs
    rw [expr, Foresight.expr]
    exact (ih s hs).bind fun x s₁ _ => foretold_field object name
  case case10 =>
    intro want object r ih s hs
    rw [expr, Foresight.expr]
    refine (ih s hs).bind fun x s₁ _ => ?_
    exact (shows_project h x r).foretold_bind (r := fun w : Wire => Pure.pure (Signal.wire w)) fun w s₂ _ =>
      Foretold.pure rfl
  case case11 =>
    intro q ps a as ha has s hs
    rw [arguments, Foresight.arguments]
    refine (ha s hs).bind fun x s₁ h₁ => ?_
    have hexpr := Renaming.sim_expr hb hs.known (some q.width) a
    have hs₁ := hs.after hexpr h₁
    obtain ⟨-, -, hx, -⟩ := hexpr hs.sound x s₁ h₁
    refine (shows_fitted h x q.width).foretold_bind (r := fun w : Wire => do
      return w :: (← f.arguments b (p.scope scope) ps as)) fun w s₂ h₂ => ?_
    have hs₂ := hs₁.after (y := fitted b (ρ.scope scope) (ρ.signal x) q.width)
      (Renaming.sim_fitted hs₁.known hx q.width) h₂
    exact (has s₂ hs₂).bind fun ws s₃ _ => Foretold.pure rfl
  case case12 =>
    intro es ps hne s _
    rw [arguments.eq_2 b scope ps es hne, Foresight.arguments.eq_2 f b (p.scope scope) ps es hne]
    exact Foretold.pure rfl

theorem foretold_expr (hb : ρ.Bodies b b) (hcalls : ∀ c ∈ b.callees, c.Copying) (h : p.Knows f scope)
    (hs : ρ.SoundWith scope s) (want : Option Nat) (e : Expr) :
    p.Foretold s (expr b scope want e) (f.expr b (p.scope scope) want e) p.signal :=
  (foretold_expr_arguments hb hcalls h).1 want e s hs

/-- The scope with some bits of a name replaced, which is widened to hold them. -/
def spliced (scope : Scope Signal) (name : String) (r : BitRange) (part current : Wire) : Scope Signal :=
  scope.bind name (.wire ((current.fit (max current.width (r.hi + 1))).splice r.lo part))

theorem scope_spliced (name : String) (r : BitRange) (part current : Wire) :
    p.scope (spliced scope name r part current) =
      spliced (p.scope scope) name r (p.wire part) (p.wire current) := by
  have hwidth : (p.wire current).width = current.width := Wire.width_map _ _
  rw [spliced, spliced, Prophecy.scope, Scope.map_bind, signal, Signal.map, Wire.map_splice (bit_const false),
    Wire.map_fit (bit_const false), hwidth]
  rfl

/-- Replacing some bits of a name. -/
theorem foretold_splice {part current : Wire} {r : BitRange} (name : String) :
    p.Foretold s (do
      if (current.fit (max current.width (r.hi + 1))).width < r.lo + part.width then
        throw (.fault .spliceOutOfRange)
      return spliced scope name r part current)
      (return spliced (p.scope scope) name r (p.wire part) (p.wire current)) p.scope := by
  split
  · exact Foretold.throw_bind
  · exact Foretold.pure (scope_spliced name r part current)

/-- **A statement is elaborated alike with foresight.** -/
theorem foretold_assign (hb : ρ.Bodies b b) (hcalls : ∀ c ∈ b.callees, c.Copying) (h : p.Knows f scope)
    (hs : ρ.SoundWith scope s) (st : Statement) :
    p.Foretold s (assign b scope st) (f.assign b (p.scope scope) st) p.scope := by
  unfold assign Foresight.assign
  cases st.target.range with
  | none => exact (foretold_expr hb hcalls h hs _ st.expr).bind fun x s₁ _ => Foretold.pure rfl
  | some r =>
    refine (foretold_expr hb hcalls h hs _ st.expr).bind fun x s₁ _ => ?_
    simp only
    generalize ((b.module.output? st.target.name).map Port.width).getD (r.hi + 1) = least
    refine (shows_fitted h x r.width).foretold_bind (r := fun part : Wire => Pure.pure
      (spliced (p.scope scope) st.target.name r part (f.current (p.scope scope) st.target.name least)))
      fun part s₂ _ => ?_
    rw [Foresight.current, Prophecy.scope, Scope.lookup_map]
    cases scope.lookup st.target.name with
    | none =>
      -- nothing is assigned yet, so the other bits start at 0
      have hzeros : p.Shows s₂ (Pure.pure (.zeros least)) p.wire (.zeros least) :=
        Shows.pure (Wire.map_zeros (bit_const false) least)
      simp only [Option.map_none]
      refine hzeros.foretold_bind (r := fun current : Wire => Pure.pure
        (spliced (p.scope scope) st.target.name r (p.wire part) current)) fun current s₃ _ => ?_
      exact foretold_splice st.target.name
    | some y =>
      simp only [Option.map_some]
      refine (shows_materialize h y (some least)).foretold_bind (r := fun current : Wire => Pure.pure
        (spliced (p.scope scope) st.target.name r (p.wire part) current)) fun current s₃ _ => ?_
      exact foretold_splice st.target.name

end Prophecy

/-- A statement binds its target. -/
theorem exists_bind_of_assign {b : Body} {scope scope' : Scope Signal} {st : Statement} {s s' : State}
    (h : Gives (assign b scope st) s scope' s') : ∃ x, scope' = scope.bind st.target.name x := by
  -- a replacement that fits binds the wire with the new bits
  have hsplice : ∀ {r : BitRange} {part current : Wire} {s : State}, Gives (do
      if current.width < r.lo + part.width then throw (.fault .spliceOutOfRange)
      return scope.bind st.target.name (.wire (current.splice r.lo part))) s scope' s' →
      ∃ x, scope' = scope.bind st.target.name x := by
    intro r part current s h
    split at h
    · obtain ⟨_, _, hthrow, -⟩ := gives_bind.1 h
      exact absurd hthrow not_gives_throw
    · exact ⟨_, (gives_pure.1 h).1⟩
  unfold assign at h
  cases hr : st.target.range with
  | none =>
    simp only [hr] at h
    obtain ⟨x, _, -, h⟩ := gives_bind.1 h
    exact ⟨x, (gives_pure.1 h).1⟩
  | some r =>
    simp only [hr] at h
    obtain ⟨x, _, -, h⟩ := gives_bind.1 h
    obtain ⟨part, _, -, h⟩ := gives_bind.1 h
    cases hl : scope.lookup st.target.name with
    | none =>
      simp only [hl, pure_bind] at h
      exact hsplice h
    | some y =>
      simp only [hl] at h
      obtain ⟨current, _, -, h⟩ := gives_bind.1 h
      exact hsplice h

/-- What a list of statements does not assign stays bound as it is. -/
theorem lookup_assignAll {b : Body} {name : String} (sts : List Statement) :
    ∀ {scope scope' : Scope Signal} {s s' : State}, Gives (assignAll b scope sts) s scope' s' →
      name ∉ sts.map (·.target.name) → scope'.lookup name = scope.lookup name := by
  induction sts with
  | nil =>
    intro scope scope' s s' h _
    rw [(gives_pure.1 h).1]
  | cons st sts ih =>
    intro scope scope' s s' h hname
    rw [List.map_cons, List.mem_cons, not_or] at hname
    obtain ⟨next, s₁, hnext, h⟩ := gives_bind.1 h
    obtain ⟨x, rfl⟩ := exists_bind_of_assign hnext
    rw [ih h hname.2, Scope.lookup_bind, if_neg fun heq => hname.1 heq.symm]

namespace Prophecy

variable {p : Prophecy} {f : Foresight} {ρ : Renaming} {s : State} {scope : Scope Signal} {x : Signal}
  {b : Body}

/-- **A list of statements is elaborated alike with foresight**, if its end is the one that is foretold. -/
theorem foretold_assignAll (hb : ρ.Bodies b b) (hcalls : ∀ c ∈ b.callees, c.Copying) (sts : List Statement) :
    ∀ {scope : Scope Signal} {s s' : State}, ρ.SoundWith scope s → Gives (assignAll b scope sts) s p.last s' →
      StayOpen s.slots s'.slots ∧ (StayOpen s'.slots p.slots → ∀ t, p.Beside s t →
        ∃ t', Gives (Foresight.assignAll p.final b (p.scope scope) sts) t (p.scope p.last) t' ∧
          p.Beside s' t') := by
  induction sts with
  | nil =>
    intro scope s s' _ h
    obtain ⟨hlast, rfl⟩ := gives_pure.1 h
    exact ⟨StayOpen.refl _, fun _ t ht => ⟨t, gives_pure.2 ⟨by rw [hlast], rfl⟩, ht⟩⟩
  | cons st sts ih =>
    intro scope s s' hs h
    -- what the statements do not assign is bound now as it is in the end
    have hknows : p.Knows ⟨p.final, (st :: sts).map (·.target.name)⟩ scope :=
      ⟨rfl, fun name x hx hname => (lookup_assignAll (st :: sts) h hname).trans hx⟩
    obtain ⟨next, s₁, hnext, h⟩ := gives_bind.1 h
    obtain ⟨hkept, hfore⟩ := foretold_assign hb hcalls hknows hs st next s₁ hnext
    obtain ⟨-, hs₁, hknown, -⟩ := Renaming.sim_assign hb hs.known st hs.sound next s₁ hnext
    obtain ⟨hkept', hfore'⟩ := ih ⟨hs₁, hknown⟩ h
    refine ⟨hkept.trans hkept', fun hlast t ht => ?_⟩
    obtain ⟨t', hassign, ht'⟩ := hfore (hkept'.trans hlast) t ht
    obtain ⟨t'', hrest, ht''⟩ := hfore' hlast t' ht'
    exact ⟨t'', gives_bind.2 ⟨p.scope next, t', hassign, hrest⟩, ht''⟩

theorem shows_outputWire (h : p.Knows f scope) (q : Port) :
    p.Shows s (outputWire b scope q) p.wire (f.output (p.scope scope) q) := by
  rw [outputWire, Foresight.output, Prophecy.scope, Scope.lookup_map]
  cases scope.lookup q.name with
  | some x => exact shows_fitted h x q.width
  | none =>
    intro w s' hw
    obtain ⟨u, s₁, hnote, hw⟩ := gives_bind.1 hw
    obtain ⟨rfl, rfl⟩ := gives_pure.1 hw
    exact ⟨onlySlots_note hnote, fun _ _ => Wire.map_zeros (bit_const false) q.width⟩

theorem shows_outputs (h : p.Knows f scope) (ps : List Port) :
    ∀ {s : State}, p.Shows s (outputs b scope ps) p.wires
      (ps.map fun q => (q.name, f.output (p.scope scope) q)) := by
  induction ps with
  | nil => exact Shows.pure rfl
  | cons q ps ih =>
    intro s
    rw [outputs_cons]
    refine (shows_outputWire h q).bind (r := fun w => (q.name, w) ::
      ps.map fun q => (q.name, f.output (p.scope scope) q)) fun w s₁ => ?_
    exact ih.bind (r := fun outs => (q.name, p.wire w) :: outs) fun outs s₂ => Shows.pure rfl

/-- A name that is followed to a name is so again. -/
theorem forward_of_follow {name : String} (h : follow scope x = .forward name) :
    ∃ name', follow scope (.forward name) = .forward name' := by
  refine (follow scope (.forward name)).forward_or_ne.resolve_right fun hne => ?_
  have hreaches := (h ▸ follow_reaches scope x).trans (follow_reaches scope (.forward name))
  rw [← follow_of_reaches hreaches hne] at hne
  exact hne name h

/-- In the end a signal is the same wire as what it is followed to. -/
theorem wire_follow (h : p.Knows f p.last) (x : Signal) (want : Option Nat) :
    f.wire (p.scope p.last) (p.signal (follow p.last x)) want = f.wire (p.scope p.last) (p.signal x) want := by
  have hbits : ∀ i, f.bits (p.scope p.last) (p.signal (follow p.last x)) i =
      f.bits (p.scope p.last) (p.signal x) i := fun i => by
    rw [bits_foretold h, bits_foretold h, ← bitOrZero_follow (follow_reaches p.last (follow p.last x))]
  have hends : (follow p.last (follow p.last x)).wire? = (follow p.last x).wire? ∧
      (follow p.last (follow p.last x)).naturalWidth = (follow p.last x).naturalWidth := by
    rcases (follow p.last x).forward_or_ne with ⟨name, hname⟩ | hne
    · obtain ⟨name', hname'⟩ := forward_of_follow hname
      rw [hname, hname']
      exact ⟨rfl, rfl⟩
    · rw [follow_of_ne hne]
      exact ⟨rfl, rfl⟩
  rw [Foresight.wire, Foresight.wire, funext hbits, knownWidth_scope, knownWidth_scope, knownWidth, knownWidth,
    hends.1, follow_scope, follow_scope, naturalWidth_signal, naturalWidth_signal, hends.2]

theorem shows_wiresOf (h : p.Knows f p.last) (name : String) (x : Signal) :
    p.Shows s (wiresOf b p.last name x) p.wires (f.named (p.scope p.last) name (p.signal x)) := by
  -- anything but an instance is one wire
  have hwire : p.Shows s (do Pure.pure [(name, ← materialize b p.last (follow p.last x) none)]) p.wires
      [(name, f.wire (p.scope p.last) (p.signal x) none)] := by
    rw [← wire_follow h]
    exact (shows_materialize h (follow p.last x) none).bind (r := fun w => [(name, w)]) fun w _ =>
      Shows.pure rfl
  unfold wiresOf Foresight.named
  rw [follow_scope]
  cases hf : follow p.last x with
  | bundle fields =>
    match fields with
    | [] => exact Shows.pure rfl
    | [(n, w)] => exact Shows.pure rfl
    | g :: g' :: fields =>
      refine Shows.pure ?_
      simp only [wires, signal, Signal.map, List.map_map, List.map_cons]
      rfl
  | _ =>
    rw [hf] at hwire
    exact hwire

theorem shows_locals (h : p.Knows f p.last) (xs : List (String × Signal)) :
    ∀ {s : State}, p.Shows s (locals b p.last xs) p.wires
      ((xs.map fun e => (e.1, p.signal e.2)).flatMap fun e => f.named (p.scope p.last) e.1 e.2) := by
  induction xs with
  | nil => exact Shows.pure rfl
  | cons e xs ih =>
    intro s
    rw [locals_cons, List.map_cons, List.flatMap_cons]
    refine (shows_wiresOf h e.1 e.2).bind (r := fun here => here ++
      (xs.map fun e => (e.1, p.signal e.2)).flatMap fun e => f.named (p.scope p.last) e.1 e.2)
      fun here s₁ => ?_
    exact ih.bind (r := fun rest => p.wires here ++ rest) fun rest s₂ => Shows.pure List.map_append

end Prophecy

end Elaboration

end NandHdl
