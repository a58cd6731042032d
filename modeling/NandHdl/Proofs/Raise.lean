import NandHdl.Proofs.Instance

/-!
# Elaboration from a later number

The number at which elaboration starts is handed on and never looked at. What
starts later does the same, with every node number raised.

* `Bit.raise`, `Netlist.raise`, `Elaboration.State.raise`: all node numbers raised.
* `CompileError.OfDesign`: the errors of the checks before elaboration.
* `Elaboration.Raises`: one step does from the raised state what another does from the state.
* `raises_expr`, `raises_assignAll`: expressions and statements.
* `raises_netlist`: **the netlist of a module, its errors and its reports.**
-/

namespace NandHdl

/-- The bit with its node number raised. -/
def Bit.raise (c : Nat) : Bit → Bit
  | .node n => .node (n + c)
  | b => b

/-- The node with all numbers raised. -/
def Node.raise (c : Nat) (n : Node) : Node := ⟨n.id + c, n.cell.map (Bit.raise c)⟩

/-- The netlist with all node numbers raised. -/
def Netlist.raise (c : Nat) (n : Netlist) : Netlist where
  name := n.name
  inputs := n.inputs
  outputs := n.outputs.map fun o => (o.1, o.2.map (Bit.raise c))
  nodes := n.nodes.map (Node.raise c)
  signals := n.signals.map (Wire.map (Bit.raise c))

/-- The report with all node numbers raised. -/
def Event.raise (c : Nat) : Event → Event
  | .compiled m n first next => .compiled m n (first + c) (next + c)
  | e => e

/-- The error is one of a whole design or of a declaration, which is found before elaboration. -/
def CompileError.OfDesign : CompileError → Prop
  | .noModules | .duplicateModule _ | .duplicatePort _ _ | .indexOutOfRange _ _ => True
  | .recursiveInstantiation _ | .arity _ _ _ | .widthMismatch _ _ _ | .fault _ => False

namespace Elaboration

/-- The signal with all node numbers raised. -/
def raisedSignal (c : Nat) (s : Signal) : Signal := s.map (Bit.raise c)

/-- The scope with all node numbers raised. -/
def raisedScope (c : Nat) (scope : Scope Signal) : Scope Signal := scope.map (raisedSignal c)

/-- The wire with all node numbers raised. -/
def raisedWire (c : Nat) (w : Wire) : Wire := w.map (Bit.raise c)

/-- The named wires with all node numbers raised. -/
def raisedWires (c : Nat) (ws : List (String × Wire)) : List (String × Wire) :=
  ws.map fun w => (w.1, raisedWire c w.2)

/-- The state with all node numbers raised, the next one included. -/
def State.raise (c : Nat) (s : State) : State :=
  { s with
    nextId := s.nextId + c
    nodes := s.nodes.map (Node.raise c)
    log := s.log.map (Event.raise c) }

/-- The outcome of a step with all node numbers raised. An error stays the same, and it is none of a whole
design. -/
inductive RaisedTo {α β : Type} (c : Nat) (f : α → β) :
    Except CompileError α × State → Except CompileError β × State → Prop
  | ok (a : α) (s : State) : RaisedTo c f (.ok a, s) (.ok (f a), s.raise c)
  | error {e : CompileError} (he : ¬ e.OfDesign) (s : State) :
    RaisedTo c f (.error e, s) (.error e, s.raise c)

/-- **What `x` does from a state, `y` does from the raised one.** The result `a` becomes `f a`. -/
def Raises {α β : Type} (c : Nat) (x : Build α) (y : Build β) (f : α → β) : Prop :=
  ∀ s, RaisedTo c f (ExceptT.run x s) (ExceptT.run y (s.raise c))

variable {c : Nat} {α β γ δ : Type}

/-! ## Sequences -/

theorem Raises.pure {a : α} {b : β} {f : α → β} (h : f a = b) : Raises c (pure a) (pure b) f :=
  fun s => h ▸ .ok a s

theorem Raises.bind {x : Build α} {y : Build β} {f : α → β} {g : α → Build γ} {h : β → Build δ}
    {f' : γ → δ} (hx : Raises c x y f) (hg : ∀ a, Raises c (g a) (h (f a)) f') :
    Raises c (x >>= g) (y >>= h) f' := by
  intro s
  rw [run_bind, run_bind]
  have hs := hx s
  generalize ExceptT.run x s = r at hs ⊢
  generalize ExceptT.run y (s.raise c) = r' at hs ⊢
  cases hs with
  | ok a t => exact hg a t
  | error he t => exact .error he t

theorem Raises.throw {e : CompileError} {f : α → β} (he : ¬ e.OfDesign) :
    Raises c (throw e) (throw e) f := fun s => .error he s

theorem Raises.throw_bind {e : CompileError} {g : γ → Build α} {h : γ → Build β} {f : α → β}
    (he : ¬ e.OfDesign) : Raises c (MonadExcept.throw e >>= g) (MonadExcept.throw e >>= h) f :=
  fun s => .error he s

theorem Raises.modifyGet {g : State → α × State} {h : State → β × State} {f : α → β}
    (hg : ∀ s, h (s.raise c) = (f (g s).1, (g s).2.raise c)) :
    Raises c (modifyGet g) (modifyGet h) f := by
  intro s
  change RaisedTo c f (.ok (g s).1, (g s).2) (.ok (h (s.raise c)).1, (h (s.raise c)).2)
  rw [hg]
  exact .ok _ _

theorem Raises.modify {g h : State → State} (hg : ∀ s, h (s.raise c) = (g s).raise c) :
    Raises c (modify g) (modify h) id :=
  Raises.modifyGet (g := fun s => ((), g s)) (h := fun s => ((), h s)) fun s => by rw [hg, id]

/-- What fails fails with an error of a body. -/
theorem Raises.not_ofDesign {x : Build α} {y : Build β} {f : α → β} (h : Raises c x y f) {s s' : State}
    {e : CompileError} (hx : ExceptT.run x s = (.error e, s')) : ¬ e.OfDesign := by
  have hs := h s
  rw [hx] at hs
  generalize ExceptT.run y (s.raise c) = r' at hs
  cases hs with
  | error he => exact he

theorem raises_get : Raises c get get (State.raise c) := fun s => .ok s s

/-- A report of a body names no node. -/
theorem raises_note {e : Event} (he : e.raise c = e) : Raises c (note e) (note e) id := by
  refine Raises.modify fun s => ?_
  simp only [State.raise, List.map_cons, he]

/-! ## Nodes and slots -/

@[simp] theorem raise_const (c : Nat) (v : Bool) : (Bit.const v).raise c = .const v := rfl

theorem raises_place {cell : Bit → Bit → Cell}
    (hmap : ∀ x y, (cell x y).map (Bit.raise c) = cell (x.raise c) (y.raise c)) (a b : Wire) :
    Raises c (place cell a b) (place cell (raisedWire c a) (raisedWire c b)) (raisedWire c) := by
  refine Raises.modifyGet fun s => ?_
  have hcells : Array.zipWith cell (raisedWire c a).bits (raisedWire c b).bits =
      (Array.zipWith cell a.bits b.bits).map (Cell.map (Bit.raise c)) := Renaming.cellsOf_map hmap a b
  rw [hcells]
  generalize Array.zipWith cell a.bits b.bits = cells
  dsimp only
  rw [Array.size_map, Prod.mk.injEq]
  refine ⟨?_, ?_⟩
  · rw [raisedWire, Wire.map_ofFn]
    congr 1
    funext i
    simp only [State.raise, Bit.raise, Bit.node.injEq]
    omega
  · simp only [State.raise, Array.map_append, State.mk.injEq, and_self, and_true]
    refine ⟨by omega, ?_⟩
    congr 1
    -- cell by cell, the numbers are raised alike
    refine Array.ext_getElem? fun i => ?_
    simp only [Array.getElem?_mapIdx, Array.getElem?_map, Option.map_map]
    congr 1
    funext d
    simp only [Function.comp_apply, Node.raise, Node.mk.injEq, and_true]
    omega

theorem raises_readForward (name : String) (lo count : Nat) :
    Raises c (readForward name lo count) (readForward name lo count) (raisedWire c) := by
  unfold readForward
  split
  · exact Raises.throw_bind id
  · refine Raises.modifyGet fun s => ?_
    rw [raisedWire, Wire.map_ofFn]
    rfl

/-! ## Signals -/

section Signals

variable {scope : Scope Signal} {x y : Signal} {b : Body}

theorem follow_raise (scope : Scope Signal) (x : Signal) :
    follow (raisedScope c scope) (raisedSignal c x) = raisedSignal c (follow scope x) := follow_map scope x

theorem knownWidth_raise (scope : Scope Signal) (x : Signal) :
    knownWidth (raisedScope c scope) (raisedSignal c x) = knownWidth scope x := knownWidth_map scope x

theorem lookup_raise (scope : Scope Signal) (name : String) :
    (raisedScope c scope).lookup name = (scope.lookup name).map (raisedSignal c) :=
  Scope.lookup_map _ _ _

theorem width_raise (w : Wire) : (raisedWire c w).width = w.width := Wire.width_map _ w

theorem zeros_raise (n : Nat) : raisedWire c (.zeros n) = .zeros n := Wire.map_zeros rfl n

theorem raises_zeros (n : Nat) : Raises c (pure (.zeros n)) (pure (.zeros n)) (raisedWire c) :=
  Raises.pure (zeros_raise n)

theorem raises_materialize (scope : Scope Signal) (x : Signal) (want : Option Nat) :
    Raises c (materialize b scope x want) (materialize b (raisedScope c scope) (raisedSignal c x) want)
      (raisedWire c) := by
  unfold materialize
  rw [follow_raise]
  cases follow scope x with
  | wire w => exact Raises.pure rfl
  | bundle fields =>
    match fields with
    | [] => exact (raises_note rfl).bind fun _ => raises_zeros _
    | [(_, w)] => exact Raises.pure rfl
    | f :: g :: fields =>
      simp only [raisedSignal, Signal.map, List.map_cons, List.length_cons, List.length_map]
      exact (raises_note rfl).bind fun _ => raises_zeros _
  | literal value => exact Raises.pure (Wire.map_constant (raise_const c) value _)
  | blackBox => exact raises_zeros _
  | forward name => exact raises_readForward name 0 _

theorem raises_fitted (scope : Scope Signal) (x : Signal) (width : Nat) :
    Raises c (fitted b scope x width) (fitted b (raisedScope c scope) (raisedSignal c x) width)
      (raisedWire c) :=
  (raises_materialize scope x (some width)).bind fun w => Raises.pure (Wire.map_fit rfl w width)

theorem raises_extract (scope : Scope Signal) (x : Signal) (r : BitRange) :
    Raises c (do
      let w ← materialize b scope x none
      if w.width ≤ r.hi then note (.bitOutOfRange r.hi w.width b.module.name)
      return w.extract r.lo r.width) (do
      let w ← materialize b (raisedScope c scope) (raisedSignal c x) none
      if w.width ≤ r.hi then note (.bitOutOfRange r.hi w.width b.module.name)
      return w.extract r.lo r.width) (raisedWire c) := by
  refine (raises_materialize scope x none).bind fun w => ?_
  have hpure : Raises c (Pure.pure (w.extract r.lo r.width))
      (Pure.pure ((raisedWire c w).extract r.lo r.width)) (raisedWire c) :=
    Raises.pure (Wire.map_extract rfl w r.lo r.width)
  rw [width_raise]
  -- a report may come before the bits are taken out
  split
  · exact (raises_note rfl).bind fun _ => hpure
  · exact hpure

theorem raises_project (scope : Scope Signal) (x : Signal) (r : BitRange) :
    Raises c (project b scope x r) (project b (raisedScope c scope) (raisedSignal c x) r)
      (raisedWire c) := by
  unfold project
  rw [follow_raise]
  cases follow scope x with
  | wire w => exact raises_extract scope (.wire w) r
  | bundle fields => exact raises_extract scope (.bundle fields) r
  | literal value =>
    refine Raises.pure ?_
    rw [raisedWire, Wire.map_ofFn]
    rfl
  | blackBox => exact raises_zeros _
  | forward name => exact raises_readForward name r.lo r.width

theorem raises_field (scope : Scope Signal) (object : Expr) (x : Signal) (name : String) :
    Raises c (field scope object x name) (field (raisedScope c scope) object (raisedSignal c x) name)
      (raisedSignal c) := by
  have hnone : ∀ e : Event, e.raise c = e →
      Raises c (do note e; return .blackBox) (do note e; return .blackBox) (raisedSignal c) :=
    fun e he => (raises_note he).bind fun _ => Raises.pure rfl
  unfold field
  rw [follow_raise]
  cases follow scope x with
  | bundle fields =>
    simp only [raisedSignal, Signal.map, List.find?_map, Function.comp_def]
    cases fields.find? fun f => decide (f.1 = name) with
    | none => exact hnone _ rfl
    | some f => exact Raises.pure rfl
  | wire w => exact hnone _ rfl
  | literal value => exact hnone _ rfl
  | blackBox => exact Raises.pure rfl
  | forward name => exact hnone _ rfl

theorem raises_nameSignal (scope : Scope Signal) (name : String) :
    Raises c (nameSignal b scope name) (nameSignal b (raisedScope c scope) name) (raisedSignal c) := by
  unfold nameSignal
  rw [lookup_raise]
  cases scope.lookup name with
  | some x => exact Raises.pure rfl
  | none =>
    simp only [Option.map_none]
    split
    · exact Raises.pure rfl
    · exact (raises_note rfl).bind fun _ => Raises.pure rfl

/-- Gates over two signals brought to one width. -/
theorem raises_gates (scope : Scope Signal) (x y : Signal) (width : Nat) :
    Raises c (do
      let x ← fitted b scope x width
      let y ← fitted b scope y width
      return .wire (← place .nand x y)) (do
      let x ← fitted b (raisedScope c scope) (raisedSignal c x) width
      let y ← fitted b (raisedScope c scope) (raisedSignal c y) width
      return .wire (← place .nand x y)) (raisedSignal c) := by
  refine (raises_fitted scope x width).bind fun v => (raises_fitted scope y width).bind fun w => ?_
  exact (raises_place (fun _ _ => rfl) v w).bind fun z => Raises.pure rfl

theorem raises_nand (scope : Scope Signal) (want : Option Nat) (x y : Signal) :
    Raises c (nand b scope want x y) (nand b (raisedScope c scope) want (raisedSignal c x) (raisedSignal c y))
      (raisedSignal c) := by
  have hnatural : max (raisedSignal c x).naturalWidth (raisedSignal c y).naturalWidth =
      max x.naturalWidth y.naturalWidth := by
    rw [raisedSignal, raisedSignal, Signal.naturalWidth_map, Signal.naturalWidth_map]
  -- whichever width is known decides, and none has changed
  unfold nand
  rw [knownWidth_raise, knownWidth_raise, hnatural]
  cases knownWidth scope x with
  | none =>
    cases knownWidth scope y with
    | none => exact raises_gates scope x y _
    | some v => exact raises_gates scope x y v
  | some w =>
    cases knownWidth scope y with
    | none => exact raises_gates scope x y w
    | some v =>
      by_cases h : w = v
      · simp only [if_pos h, pure_bind]
        exact raises_gates scope x y w
      · simp only [if_neg h]
        exact Raises.throw_bind id

theorem raises_dff (scope : Scope Signal) (want : Option Nat) (x y : Signal) :
    Raises c (dff b scope want x y) (dff b (raisedScope c scope) want (raisedSignal c x) (raisedSignal c y))
      (raisedSignal c) := by
  unfold dff
  rw [knownWidth_raise, knownWidth_raise, show (raisedSignal c x).naturalWidth = x.naturalWidth from
    Signal.naturalWidth_map x]
  generalize (knownWidth scope x).getD (want.getD x.naturalWidth) = width
  refine (raises_fitted scope x width).bind fun v => ?_
  have hcells : ∀ w : Wire, Raises c (do return .wire (← place .dff v w))
      (do return .wire (← place .dff (raisedWire c v) (raisedWire c w))) (raisedSignal c) :=
    fun w => (raises_place (fun _ _ => rfl) v w).bind fun z => Raises.pure rfl
  -- one bit of clock is shared by all bits of data
  have hshared : Raises c (do
      let clk ← fitted b scope y 1
      let clk ← pure (.ofFn width fun _ => clk.bitOrZero 0)
      return .wire (← place .dff v clk)) (do
      let clk ← fitted b (raisedScope c scope) (raisedSignal c y) 1
      let clk ← pure (.ofFn width fun _ => clk.bitOrZero 0)
      return .wire (← place .dff (raisedWire c v) clk)) (raisedSignal c) := by
    refine (raises_fitted scope y 1).bind fun clk => ?_
    simp only [pure_bind]
    have hclk : raisedWire c (.ofFn width fun _ => clk.bitOrZero 0) =
        .ofFn width fun _ => (raisedWire c clk).bitOrZero 0 := by
      rw [raisedWire, Wire.map_ofFn, raisedWire, Wire.bitOrZero_map rfl]
    rw [← hclk]
    exact hcells _
  split
  · exact hshared
  · exact hshared
  · split
    · exact (raises_materialize scope y (some width)).bind hcells
    · exact Raises.throw_bind id

end Signals

/-! ## Bodies -/

/-- Instances of the callee do from a raised state what they do from the state. -/
def Callee.Raises (c : Nat) (callee : Callee) : Prop :=
  ∀ chain args, Elaboration.Raises c (callee.instantiate chain args)
    (callee.instantiate chain (args.map (raisedWire c))) (raisedWires c)

/-- All that the body calls can be raised. -/
def Body.Raises (c : Nat) (b : Body) : Prop := ∀ callee ∈ b.callees, callee.Raises c

variable {b : Body}

theorem raises_checkArity (name : String) (expected found : Nat) :
    Raises c (checkArity name expected found) (checkArity name expected found) id := by
  unfold checkArity
  split
  · exact Raises.pure rfl
  · exact Raises.throw id

/-- Expressions and argument lists do not look at node numbers. -/
theorem raises_expr_arguments (hb : b.Raises c) (scope : Scope Signal) :
    (∀ want e, Raises c (expr b scope want e) (expr b (raisedScope c scope) want e) (raisedSignal c)) ∧
    ∀ ps es, Raises c (arguments b scope ps es) (arguments b (raisedScope c scope) ps es)
      (List.map (raisedWire c)) := by
  -- the induction is on expressions and argument lists at once, one case for each equation
  apply expr.mutual_induct b
  case case1 =>
    intro want name
    rw [expr, expr]
    exact raises_nameSignal scope name
  case case2 =>
    intro want value
    rw [expr, expr]
    exact Raises.pure rfl
  case case3 =>
    intro want x y hx hy
    rw [expr, expr]
    exact hx.bind fun v => hy.bind fun w => raises_nand scope want v w
  case case4 =>
    intro want args hargs
    rw [expr.eq_4 b scope want args hargs, expr.eq_4 b (raisedScope c scope) want args hargs]
    exact Raises.throw id
  case case5 =>
    intro want d clk hd hclk
    rw [expr, expr]
    exact hd.bind fun v => hclk.bind fun w => raises_dff scope want v w
  case case6 =>
    intro want args hargs
    rw [expr.eq_6 b scope want args hargs, expr.eq_6 b (raisedScope c scope) want args hargs]
    exact Raises.throw id
  case case7 =>
    intro want name args hnand hdff hnone
    rw [expr.eq_7 b scope want name args hnand hdff, expr.eq_7 b (raisedScope c scope) want name args hnand hdff,
      hnone]
    exact (raises_note rfl).bind fun _ => Raises.pure rfl
  case case8 =>
    intro want name args hnand hdff callee hsome ih
    rw [expr.eq_7 b scope want name args hnand hdff, expr.eq_7 b (raisedScope c scope) want name args hnand hdff,
      hsome]
    refine (raises_checkArity _ _ _).bind fun _ => ih.bind fun ws => ?_
    exact (hb callee (List.mem_of_find?_eq_some hsome) b.chain ws).bind fun outs => Raises.pure rfl
  case case9 =>
    intro want object name ih
    rw [expr, expr]
    exact ih.bind fun x => raises_field scope object x name
  case case10 =>
    intro want object r ih
    rw [expr, expr]
    exact ih.bind fun x => (raises_project scope x r).bind fun w => Raises.pure rfl
  case case11 =>
    intro p ps a as ha has
    rw [arguments, arguments]
    exact ha.bind fun x => (raises_fitted scope x p.width).bind fun w => has.bind fun ws => Raises.pure rfl
  case case12 =>
    intro es ps hne
    rw [arguments.eq_2 b scope ps es hne, arguments.eq_2 b (raisedScope c scope) ps es hne]
    exact Raises.pure rfl

/-- **Expressions do not look at node numbers.** -/
theorem raises_expr (hb : b.Raises c) (scope : Scope Signal) (want : Option Nat) (e : Expr) :
    Raises c (expr b scope want e) (expr b (raisedScope c scope) want e) (raisedSignal c) :=
  (raises_expr_arguments hb scope).1 want e

/-- Replacing some bits of a name. -/
theorem raises_splice (scope : Scope Signal) (name : String) (r : BitRange) (part current : Wire) :
    Raises c (do
      if (current.fit (max current.width (r.hi + 1))).width < r.lo + part.width then
        throw (.fault .spliceOutOfRange)
      return scope.bind name (.wire ((current.fit (max current.width (r.hi + 1))).splice r.lo part))) (do
      if ((raisedWire c current).fit (max (raisedWire c current).width (r.hi + 1))).width <
          r.lo + (raisedWire c part).width then
        throw (.fault .spliceOutOfRange)
      return (raisedScope c scope).bind name (.wire
        (((raisedWire c current).fit (max (raisedWire c current).width (r.hi + 1))).splice r.lo
          (raisedWire c part)))) (raisedScope c) := by
  have hfit : (raisedWire c current).fit (max current.width (r.hi + 1)) =
      raisedWire c (current.fit (max current.width (r.hi + 1))) := (Wire.map_fit rfl _ _).symm
  rw [width_raise, width_raise, hfit, width_raise]
  split
  · exact Raises.throw_bind id
  · refine Raises.pure ?_
    rw [raisedScope, Scope.map_bind, raisedSignal, Signal.map, Wire.map_splice rfl]
    rfl

/-- **Statements do not look at node numbers.** -/
theorem raises_assign (hb : b.Raises c) (scope : Scope Signal) (st : Statement) :
    Raises c (assign b scope st) (assign b (raisedScope c scope) st) (raisedScope c) := by
  unfold assign
  dsimp only
  -- a target without a range replaces the whole signal
  cases st.target.range with
  | none => exact (raises_expr hb scope _ st.expr).bind fun x => Raises.pure rfl
  | some r =>
    refine (raises_expr hb scope _ st.expr).bind fun x => ?_
    refine (raises_fitted scope x r.width).bind fun part => ?_
    rw [lookup_raise]
    cases scope.lookup st.target.name with
    | none =>
      -- nothing is assigned yet, so the other bits start at 0
      have hzeros := raises_splice (c := c) scope st.target.name r part
        (.zeros (((b.module.output? st.target.name).map Port.width).getD (r.hi + 1)))
      rwa [zeros_raise] at hzeros
    | some y => exact (raises_materialize scope y _).bind fun current => raises_splice scope _ r part current

theorem raises_assignAll (hb : b.Raises c) (sts : List Statement) : ∀ scope : Scope Signal,
    Raises c (assignAll b scope sts) (assignAll b (raisedScope c scope) sts) (raisedScope c) := by
  induction sts with
  | nil => exact fun scope => Raises.pure rfl
  | cons st sts ih => exact fun scope => (raises_assign hb scope st).bind ih

theorem raises_outputWire (scope : Scope Signal) (p : Port) :
    Raises c (outputWire b scope p) (outputWire b (raisedScope c scope) p) (raisedWire c) := by
  unfold outputWire
  rw [lookup_raise]
  cases scope.lookup p.name with
  | none => exact (raises_note rfl).bind fun _ => raises_zeros p.width
  | some x => exact raises_fitted scope x p.width

theorem raises_outputs (scope : Scope Signal) (ps : List Port) :
    Raises c (outputs b scope ps) (outputs b (raisedScope c scope) ps) (raisedWires c) := by
  induction ps with
  | nil => exact Raises.pure rfl
  | cons p ps ih =>
    rw [outputs_cons, outputs_cons]
    exact (raises_outputWire scope p).bind fun w => ih.bind fun outs => Raises.pure rfl

theorem raises_wiresOf (scope : Scope Signal) (name : String) (x : Signal) :
    Raises c (wiresOf b scope name x) (wiresOf b (raisedScope c scope) name (raisedSignal c x))
      (raisedWires c) := by
  have hsingle : ∀ y : Signal, Raises c (do pure [(name, ← materialize b scope y none)])
      (do pure [(name, ← materialize b (raisedScope c scope) (raisedSignal c y) none)]) (raisedWires c) :=
    fun y => (raises_materialize scope y none).bind fun w => Raises.pure rfl
  unfold wiresOf
  rw [follow_raise]
  cases follow scope x with
  | bundle fields =>
    match fields with
    | [] => exact Raises.pure rfl
    | [(_, w)] => exact Raises.pure rfl
    | f :: g :: fields =>
      refine Raises.pure ?_
      simp only [raisedWires, List.map_cons, List.map_map]
      rfl
  | _ => exact hsingle _

theorem raises_locals (scope : Scope Signal) (xs : List (String × Signal)) :
    Raises c (locals b scope xs)
      (locals b (raisedScope c scope) (xs.map fun e => (e.1, raisedSignal c e.2))) (raisedWires c) := by
  induction xs with
  | nil => exact Raises.pure rfl
  | cons e xs ih =>
    obtain ⟨name, x⟩ := e
    rw [List.map_cons, locals_cons, locals_cons]
    refine (raises_wiresOf scope name x).bind fun here => ih.bind fun rest => Raises.pure ?_
    exact List.map_append

/-! ## The end of a body -/

/-- What an instance offers, with all node numbers raised. -/
def raisedInstance (c : Nat) (i : Instance) : Instance := ⟨raisedWires c i.outputs, raisedWires c i.locals⟩

theorem slotBelow_input : ∀ i, (Bit.input i).slotBelow 0 = true := fun _ => rfl

/-- Raising numbers is a renaming that leaves everything else alone. -/
def Renaming.raise (c : Nat) : Renaming := ⟨0, c, 0, .input, 0, slotBelow_input⟩

theorem bit_raise (c : Nat) : (Renaming.raise c).bit = Bit.raise c := by
  funext b
  cases b <;> rfl

theorem slotBelow_raise (limit : Nat) (b : Bit) : (b.raise c).slotBelow limit = b.slotBelow limit := by
  cases b <;> rfl

theorem slotsBelow_raise (limit : Nat) (w : Wire) : (raisedWire c w).slotsBelow limit = w.slotsBelow limit := by
  simp only [Wire.slotsBelow, raisedWire, Wire.map, Array.all_map, Function.comp_def, slotBelow_raise]

theorem cell_slotsBelow_raise (limit : Nat) (d : Cell) :
    (d.map (Bit.raise c)).slotsBelow limit = d.slotsBelow limit := by
  simp only [Cell.slotsBelow, Cell.inputs_map, List.all_map, Function.comp_def, slotBelow_raise]

theorem finalBit_raise (scope : Scope Signal) (slot : ForwardSlot) :
    finalBit (raisedScope c scope) slot = (finalBit scope slot).raise c := by
  have h := Renaming.finalBit_copy (ρ := Renaming.raise c) scope slot
  simp only [Renaming.scope, funext (Renaming.signal.eq_1 _), bit_raise] at h
  exact h

theorem chaseAll_raise (base : Nat) (direct : Array Bit) :
    chaseAll base (direct.map (Bit.raise c)) = (chaseAll base direct).map (Option.map (Bit.raise c)) := by
  have hchase : ∀ fuel b, chase base (direct.map (Bit.raise c)) fuel (b.raise c) =
      (chase base direct fuel b).map (Bit.raise c) := by
    intro fuel b
    have h := Renaming.chase_copy (ρ := Renaming.raise c) base fuel direct b
    rwa [bit_raise] at h
  simp only [chaseAll, Array.map_map, Array.size_map, Function.comp_def, hchase]

/-- The end of a raised chain is raised. -/
theorem resolve_raise (base : Nat) (ends : Array (Option Bit)) (b : Bit) :
    (b.raise c).resolve base (ends.map (Option.map (Bit.raise c))) = (b.resolve base ends).raise c := by
  cases b with
  | forward n =>
    simp only [Bit.raise, Bit.resolve]
    split
    · rfl
    · rw [Array.getD_eq_getD_getElem?, Array.getD_eq_getD_getElem?, Array.getElem?_map]
      rcases ends[n - base]? with _ | _ | b <;> rfl
  | _ => rfl

theorem noteSelfDefined_raise (module : String) (slots : List (ForwardSlot × Option Bit)) :
    noteSelfDefined module (slots.map fun e => (e.1, e.2.map (Bit.raise c))) =
      noteSelfDefined module slots := by
  induction slots with
  | nil => rfl
  | cons e slots ih =>
    obtain ⟨slot, _ | b⟩ := e
    · rw [List.map_cons, Option.map_none, noteSelfDefined, noteSelfDefined, ih]
    · rw [List.map_cons, Option.map_some, noteSelfDefined, noteSelfDefined, ih]

theorem raises_noteSelfDefined (module : String) (slots : List (ForwardSlot × Option Bit)) :
    Raises c (noteSelfDefined module slots) (noteSelfDefined module slots) id := by
  induction slots with
  | nil => exact Raises.pure rfl
  | cons e slots ih =>
    obtain ⟨slot, _ | b⟩ := e
    · exact (raises_note rfl).bind fun _ => ih
    · exact ih

theorem raises_resolveForwards (scope : Scope Signal) (inst : Instance) :
    Raises c (resolveForwards b scope inst) (resolveForwards b (raisedScope c scope) (raisedInstance c inst))
      (raisedInstance c) := by
  refine raises_get.bind fun s => ?_
  have hdirect : (s.raise c).slots.map (finalBit (raisedScope c scope)) =
      (s.slots.map (finalBit scope)).map (Bit.raise c) := by
    rw [Array.map_map]
    exact Array.map_congr_left fun slot _ => finalBit_raise scope slot
  have hbase : (s.raise c).slotBase = s.slotBase := rfl
  have hslots : (s.raise c).slots.size = s.slots.size := rfl
  have hnodes : ∀ limit, (s.raise c).nodes.all (·.cell.slotsBelow limit) =
      s.nodes.all (·.cell.slotsBelow limit) := by
    intro limit
    simp only [State.raise, Array.all_map, Function.comp_def, Node.raise, cell_slotsBelow_raise]
  have hwires : ∀ (limit : Nat) (ws : List (String × Wire)),
      ((raisedWires c ws).all fun w => w.2.slotsBelow limit) = ws.all fun w => w.2.slotsBelow limit := by
    intro limit ws
    simp only [raisedWires, List.all_map, Function.comp_def, slotsBelow_raise]
  have hdangling : ∀ (limit : Nat) (direct : Array Bit),
      (direct.map (Bit.raise c)).all (·.slotBelow limit) = direct.all (·.slotBelow limit) := by
    intro limit direct
    simp only [Array.all_map, Function.comp_def, slotBelow_raise]
  -- the check that nothing dangles has the same result
  simp only [raisedInstance, hdirect, hbase, hslots, hnodes, hdangling, hwires]
  split
  · have hresolve : ∀ ends : Array (Option Bit), ∀ ws : List (String × Wire),
        raisedWires c (ws.map fun w => (w.1, w.2.map (Bit.resolve s.slotBase ends))) =
          (raisedWires c ws).map fun w =>
            (w.1, w.2.map (Bit.resolve s.slotBase (ends.map (Option.map (Bit.raise c))))) := by
      intro ends ws
      simp only [raisedWires, raisedWire, List.map_map, Function.comp_def, Wire.map_map, resolve_raise]
    have hslotsOf : ((s.raise c).slots.zip
          ((chaseAll s.slotBase (s.slots.map (finalBit scope))).map (Option.map (Bit.raise c)))).toList =
        (s.slots.zip (chaseAll s.slotBase (s.slots.map (finalBit scope)))).toList.map
          fun e => (e.1, e.2.map (Bit.raise c)) := by
      rw [Array.toList_zip, Array.toList_zip, Array.toList_map, List.zip_map_right]
      rfl
    rw [chaseAll_raise, hslotsOf, noteSelfDefined_raise]
    generalize chaseAll s.slotBase (s.slots.map (finalBit scope)) = ends
    refine (raises_noteSelfDefined _ _).bind fun _ => Raises.bind (f := id) (Raises.modify fun t => ?_) fun _ => ?_
    · simp only [State.raise, Array.map_map, Function.comp_def, Node.raise, Cell.map_map, resolve_raise]
    · exact Raises.pure (congrArg₂ Instance.mk (hresolve ends inst.outputs) (hresolve ends inst.locals))
  · exact Raises.throw_bind id

/-- Inside a new body the nodes start from none, and those around it are raised with them. -/
theorem raises_enclosed {α β : Type} {x : Build α} {y : Build β} {f : α → β} (h : Raises c x y f) :
    Raises c (enclosed x) (enclosed y) f := by
  unfold enclosed
  refine Raises.bind (f := fun r => (r.1.map (Node.raise c), r.2)) (Raises.modifyGet fun s => ?_)
    fun r => h.bind fun a => ?_
  · simp only [State.raise, Array.map_empty]
  · refine Raises.bind (f := id) (Raises.modify fun t => ?_) fun _ => Raises.pure rfl
    simp only [State.raise, Array.map_append]

theorem argumentScope_raise (ps : List Port) : ∀ (scope : Scope Signal) (ws : List Wire),
    argumentScope (raisedScope c scope) ps (ws.map (raisedWire c)) =
      raisedScope c (argumentScope scope ps ws) := by
  induction ps with
  | nil => exact fun _ _ => rfl
  | cons p ps ih =>
    intro scope ws
    cases ws with
    | nil => rfl
    | cons w ws =>
      have hfit : (raisedWire c w).fit p.width = raisedWire c (w.fit p.width) :=
        (Wire.map_fit rfl w p.width).symm
      rw [argumentScope, List.map_cons, argumentScope, ← ih, hfit]
      rfl

/-- **A body is elaborated alike from a later number**, at any depth. -/
theorem raises_instantiate {callees : List Callee} (hc : ∀ callee ∈ callees, callee.Raises c) (m : Module)
    (outer : List String) (args : List Wire) :
    Raises c (instantiate callees m outer args) (instantiate callees m outer (args.map (raisedWire c)))
      (raisedInstance c) := by
  have hb : Body.Raises c ⟨m, m.name :: outer, callees⟩ := hc
  unfold instantiate
  refine (raises_note rfl).bind fun _ => raises_enclosed ?_
  have hstart := argumentScope_raise (c := c) m.inputs .empty args
  have hempty : raisedScope c .empty = .empty := rfl
  rw [hempty] at hstart
  rw [hstart]
  refine (raises_assignAll hb m.statements _).bind fun scope => (raises_outputs scope m.outputs).bind
    fun outs => ?_
  have hend : ∀ locs : List (String × Wire), Raises c
      (resolveForwards ⟨m, m.name :: outer, callees⟩ scope ⟨outs, locs⟩)
      (resolveForwards ⟨m, m.name :: outer, callees⟩ (raisedScope c scope)
        ⟨raisedWires c outs, raisedWires c locs⟩) (raisedInstance c) :=
    fun locs => raises_resolveForwards scope ⟨outs, locs⟩
  split
  · rw [raisedScope, Scope.latest_map]
    exact (raises_locals scope scope.latest).bind hend
  · exact Raises.bind (f := raisedWires c) (Raises.pure rfl) hend

/-! ## Modules -/

theorem raises_recursive (m : Module) : (Callee.recursive m).Raises c :=
  fun _ _ => Raises.throw id

variable {earlier : List Callee}

theorem raises_visibleFrom (hc : ∀ callee ∈ earlier, callee.Raises c) (m : Module) :
    ∀ callee ∈ visibleFrom earlier m, callee.Raises c :=
  List.forall_mem_cons.2 ⟨raises_recursive m, hc⟩

theorem raises_ofModule (hc : ∀ callee ∈ earlier, callee.Raises c) (m : Module) :
    (Callee.ofModule earlier m).Raises c :=
  fun chain args => (raises_instantiate (raises_visibleFrom hc m) m chain args).bind fun _ => Raises.pure rfl

theorem raises_calleesOf (es : List Module) : ∀ callee ∈ calleesOf es, callee.Raises c := by
  induction es with
  | nil => exact nofun
  | cons m es ih => exact List.forall_mem_cons.2 ⟨raises_ofModule ih m, ih⟩

/-- The inputs of a module are no nodes. -/
theorem inputWires_raise (ps : List Port) (offset : Nat) :
    (inputWires offset ps).map (raisedWire c) = inputWires offset ps := by
  induction ps generalizing offset with
  | nil => rfl
  | cons p ps ih =>
    rw [inputWires, List.map_cons, ih, raisedWire, Wire.map_ofFn]
    rfl

theorem zip_raise {ι : Type} (names : List ι) (ws : List Wire) :
    ((names.zip ws).map fun e => (e.1, e.2.map (Bit.raise c))) = names.zip (ws.map (raisedWire c)) :=
  (List.zip_map_right ..).symm

/-- **The netlist of a module is elaborated alike from a later number.** -/
theorem raises_netlist (hc : ∀ callee ∈ earlier, callee.Raises c) (m : Module) :
    Raises c (netlist earlier m) (netlist earlier m) (Netlist.raise c) := by
  unfold netlist
  have hinstance := raises_instantiate (raises_visibleFrom hc m) m [] (inputWires 0 m.inputs)
  rw [inputWires_raise] at hinstance
  refine hinstance.bind fun inst => raises_get.bind fun s => Raises.pure ?_
  have hinputs : ((m.inputs.map Port.name).zip (inputWires 0 m.inputs)).map
        (fun e => (e.1, e.2.map (Bit.raise c))) =
      (m.inputs.map Port.name).zip (inputWires 0 m.inputs) := by
    rw [zip_raise, inputWires_raise]
  have houtputs : (raisedWires c inst.outputs).map Prod.snd =
      (inst.outputs.map Prod.snd).map (raisedWire c) := by
    rw [raisedWires, List.map_map, List.map_map]
    rfl
  simp only [Netlist.raise, NameTable.map_insertAll, hinputs, zip_raise, raisedInstance, houtputs]
  rfl

end Elaboration

end NandHdl
