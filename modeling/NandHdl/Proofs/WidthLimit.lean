import NandHdl.Proofs.Domain
import NandHdl.Proofs.Encoding
import NandHdl.Proofs.Extending
import NandHdl.Proofs.Foresight
import NandHdl.Proofs.Guarded
import NandHdl.Proofs.OneBitNetlist

/-!
# How wide wires are

Widths of ports and bit numbers are checked against one limit, but a bit number counts from 0. So a range that ends at
the limit makes a wire that is one bit wider than any port.

* `Signal.AtMost`, `Scope.AtMost`: wires up to a width, and literals that fit one.
* `Expr.Confined`: an expression whose ranges and literals fit a width.
* `Elaboration.Returns`: what the result of a step has to be.
* `returns_expr_arguments`, `returns_assign`, `signals_atMost`: expressions, statements and netlists.
* `Ledger.compile_widths`: **how wide the wires of a compiled design are.**
* `Ledger.wide_at_limit`: **a wire that is wider than the limit.**
-/

namespace NandHdl

/-! ## What fits a width -/

/-- No wire of the signal is wider than `cap`, and it does not become so where nothing asks for a width. -/
structure Signal.AtMost (cap : Nat) (x : Signal) : Prop where
  wires : ∀ w ∈ x.wires, w.width ≤ cap
  natural : x.naturalWidth ≤ cap

/-- All that is bound fits. -/
def Scope.AtMost (cap : Nat) (scope : Scope Signal) : Prop := ∀ e ∈ scope.newestFirst, e.2.AtMost cap

/-- If bits are asked for, then no more than `cap`. -/
def AskedAtMost (cap : Nat) (want : Option Nat) : Prop := ∀ n, want = some n → n ≤ cap

/-- The literals of the expression fit a word, and its ranges end below `cap`. -/
structure Expr.Confined (cap : Nat) (e : Expr) : Prop where
  words : e.FitsWords
  ranges : ∀ r, e.Mentions r → r.hi < cap

/-- The literals of the statement fit a word, and its ranges end below `cap`. -/
structure Statement.Confined (cap : Nat) (t : Statement) : Prop where
  range : ∀ r ∈ t.target.range, r.hi < cap
  expr : t.expr.Confined cap

/-- The wires of the list fit. -/
def AllAtMost (cap : Nat) (ws : List (String × Wire)) : Prop := ∀ w ∈ ws, w.2.width ≤ cap

namespace Expr

variable {cap : Nat} {name : String}

theorem Confined.literal {value : Nat} (h : (number value).Confined cap) : value < wordLimit := by
  have hwords := h.words
  rwa [FitsWords] at hwords

theorem Confined.args {as : List Expr} (h : (call name as).Confined cap) : ∀ a ∈ as, a.Confined cap := by
  have hwords := h.words
  rw [FitsWords] at hwords
  exact fun a ha => ⟨hwords a ha, fun r hr => h.ranges r (.call name ha hr)⟩

theorem Confined.object {e : Expr} (h : (member e name).Confined cap) : e.Confined cap := by
  have hwords := h.words
  rw [FitsWords] at hwords
  exact ⟨hwords, fun r hr => h.ranges r (.member name hr)⟩

end Expr

section AtMost

variable {cap n : Nat} {x : Signal} {w : Wire} {scope : Scope Signal} {want : Option Nat}

theorem askedAtMost_none : AskedAtMost cap none := nofun

theorem askedAtMost_some (h : n ≤ cap) : AskedAtMost cap (some n) := fun _ hn => Option.some.inj hn ▸ h

theorem AskedAtMost.getD (h : AskedAtMost cap want) (hn : n ≤ cap) : want.getD n ≤ cap := by
  cases want with
  | none => exact hn
  | some k => exact h k rfl

namespace Signal

theorem AtMost.pos (h : x.AtMost cap) : 1 ≤ cap := by
  refine le_trans ?_ h.natural
  cases x with
  | literal value =>
    change 1 ≤ bitLength value
    rw [bitLength]
    split <;> omega
  | _ => exact le_refl 1

theorem atMost_wire (hcap : 1 ≤ cap) (h : w.width ≤ cap) : (wire w).AtMost cap :=
  ⟨List.forall_mem_singleton.2 h, hcap⟩

theorem atMost_bundle {fields : List (String × Wire)} (hcap : 1 ≤ cap) (h : AllAtMost cap fields) :
    (bundle fields).AtMost cap := ⟨List.forall_mem_map.2 h, hcap⟩

theorem atMost_blackBox (hcap : 1 ≤ cap) : blackBox.AtMost cap := ⟨List.forall_mem_nil _, hcap⟩

theorem atMost_forward (hcap : 1 ≤ cap) (name : String) : (forward name).AtMost cap :=
  ⟨List.forall_mem_nil _, hcap⟩

/-- The value of a word has no more digits than a word. -/
theorem atMost_literal (hcap : wordBits ≤ cap) {value : Nat} (h : value < wordLimit) :
    (literal value).AtMost cap := by
  refine ⟨List.forall_mem_nil _, le_trans ?_ hcap⟩
  change bitLength value ≤ wordBits
  rw [bitLength]
  split
  · decide
  · next hne =>
    rw [wordLimit, Nat.one_shiftLeft] at h
    exact Nat.log2_lt hne |>.2 h

end Signal

theorem Scope.AtMost.lookup (h : scope.AtMost cap) {name : String} (hx : scope.lookup name = some x) :
    x.AtMost cap := h _ (Scope.mem_of_lookup hx)

theorem Scope.AtMost.bind (h : scope.AtMost cap) (hx : x.AtMost cap) (name : String) :
    (scope.bind name x).AtMost cap := List.forall_mem_cons.2 ⟨hx, h⟩

theorem Scope.AtMost.latest (h : scope.AtMost cap) : ∀ e ∈ scope.latest, e.2.AtMost cap :=
  fun e he => h e (Scope.mem_of_mem_latest he)

/-- Following names leads to what is bound. -/
theorem Signal.AtMost.follow (hscope : scope.AtMost cap) (hx : x.AtMost cap) :
    (NandHdl.follow scope x).AtMost cap := by
  rcases Relation.ReflTransGen.cases_tail (follow_reaches scope x) with heq | ⟨_, _, name, rfl, hy⟩
  · rwa [heq]
  · exact hscope.lookup hy

theorem Signal.AtMost.wire? (h : x.AtMost cap) (hw : x.wire? = some w) : w.width ≤ cap := by
  unfold Signal.wire? at hw
  split at hw
  · cases hw
    exact h.wires _ (List.mem_singleton.2 rfl)
  · cases hw
    exact h.wires _ (List.mem_singleton.2 rfl)
  · cases hw

theorem knownWidth_le (hscope : scope.AtMost cap) (hx : x.AtMost cap) (h : knownWidth scope x = some n) :
    n ≤ cap := by
  obtain ⟨w, hw, rfl⟩ := Option.map_eq_some_iff.1 h
  exact (hx.follow hscope).wire? hw

end AtMost

namespace Elaboration

/-! ## Steps -/

/-- Whatever the step gives has the property. -/
def Returns {α : Type} (x : Build α) (P : α → Prop) : Prop := ∀ s a s', Gives x s a s' → P a

section Steps

variable {α β : Type} {x : Build α} {P : α → Prop} {Q : β → Prop}

theorem Returns.pure {a : α} (h : P a) : Returns (pure a) P := fun _ _ _ ha => (gives_pure.1 ha).1 ▸ h

theorem Returns.bind {g : α → Build β} (hx : Returns x P) (hg : ∀ a, P a → Returns (g a) Q) :
    Returns (x >>= g) Q := by
  intro s b s'' h
  obtain ⟨a, s', ha, hb⟩ := gives_bind.1 h
  exact hg a (hx s a s' ha) s' b s'' hb

/-- What a step gives may not matter to the next one. -/
theorem Returns.then {g : α → Build β} (hg : ∀ a, Returns (g a) Q) : Returns (x >>= g) Q := by
  intro s b s'' h
  obtain ⟨a, s', -, hb⟩ := gives_bind.1 h
  exact hg a s' b s'' hb

theorem Returns.throw {e : CompileError} : Returns (throw e) P := fun _ _ _ h => absurd h not_gives_throw

theorem Returns.throw_bind {e : CompileError} {g : α → Build β} : Returns (MonadExcept.throw e >>= g) Q :=
  fun _ _ _ h => by
    obtain ⟨_, _, hthrow, -⟩ := gives_bind.1 h
    exact absurd hthrow not_gives_throw

/-- There is a gate for each two bits. -/
theorem returns_place (cell : Bit → Bit → Cell) (v w : Wire) :
    Returns (place cell v w) fun u => u.width ≤ v.width := by
  intro s u s' h
  rw [(Renaming.gives_place.1 h).1, Wire.width_ofFn, Renaming.cellsOf, Array.size_zipWith]
  exact Nat.min_le_left _ _

theorem returns_readForward (name : String) (lo count : Nat) :
    Returns (readForward name lo count) fun w => w.width = count := by
  intro s w s' h
  rw [(Renaming.gives_readForward.1 h).2.1, Wire.width_ofFn]

end Steps

/-! ## Signals -/

section Signals

variable {cap n : Nat} {b : Body} {scope : Scope Signal} {x y : Signal} {want : Option Nat}

theorem returns_materialize (hscope : scope.AtMost cap) (hx : x.AtMost cap) (hwant : AskedAtMost cap want) :
    Returns (materialize b scope x want) fun w => w.width ≤ cap := by
  have hfits := hx.follow hscope
  have hwidth : want.getD 1 ≤ cap := hwant.getD hx.pos
  have hzeros : (Wire.zeros (want.getD 1)).width ≤ cap := by rwa [Wire.width_zeros]
  unfold materialize
  cases hf : follow scope x with
  | wire w =>
    rw [hf] at hfits
    exact .pure (hfits.wires w List.mem_cons_self)
  | bundle fields =>
    match fields with
    | [] => exact .then fun _ => .pure hzeros
    | [(_, w)] =>
      rw [hf] at hfits
      exact .pure (hfits.wires w List.mem_cons_self)
    | _ :: _ :: _ => exact .then fun _ => .pure hzeros
  | literal value =>
    rw [hf] at hfits
    refine .pure ?_
    rw [Wire.width_constant]
    exact hwant.getD hfits.natural
  | blackBox => exact .pure hzeros
  | forward name =>
    intro s w s' h
    rwa [returns_readForward name 0 _ s w s' h]

theorem returns_fitted (x : Signal) (n : Nat) : Returns (fitted b scope x n) fun w => w.width = n :=
  fun _ _ _ h => width_fitted h

theorem returns_project (x : Signal) (r : BitRange) : Returns (project b scope x r) fun w => w.width = r.width := by
  have hextract : ∀ z : Signal, Returns (do
      let w ← materialize b scope z none
      if w.width ≤ r.hi then note (.bitOutOfRange r.hi w.width b.module.name)
      return w.extract r.lo r.width) fun w => w.width = r.width := by
    refine fun z => .then fun w => ?_
    split
    · exact .then fun _ => .pure (Wire.width_extract w r.lo r.width)
    · exact .pure (Wire.width_extract w r.lo r.width)
  unfold project
  cases follow scope x with
  | wire w => exact hextract _
  | bundle fields => exact hextract _
  | literal value => exact .pure (Wire.width_ofFn _ _)
  | blackBox => exact .pure (Wire.width_zeros _)
  | forward name => exact returns_readForward name r.lo r.width

theorem returns_field (hscope : scope.AtMost cap) (hx : x.AtMost cap) (object : Expr) (name : String) :
    Returns (field scope object x name) (Signal.AtMost cap) := by
  have hfits := hx.follow hscope
  have hbox := Signal.atMost_blackBox hx.pos
  unfold field
  cases hf : follow scope x with
  | bundle fields =>
    rw [hf] at hfits
    dsimp only
    cases hfind : fields.find? fun g => decide (g.1 = name) with
    | none => exact .then fun _ => .pure hbox
    | some g =>
      refine .pure (Signal.atMost_wire hx.pos (hfits.wires g.2 ?_))
      exact List.mem_map_of_mem (List.mem_of_find?_eq_some hfind)
  | blackBox => exact .pure hbox
  | _ => exact .then fun _ => .pure hbox

theorem returns_nameSignal (hcap : 1 ≤ cap) (hscope : scope.AtMost cap) (name : String) :
    Returns (nameSignal b scope name) (Signal.AtMost cap) := by
  unfold nameSignal
  cases hx : scope.lookup name with
  | some x => exact .pure (hscope.lookup hx)
  | none =>
    dsimp only
    split
    · exact .pure (Signal.atMost_forward hcap name)
    · exact .then fun _ => .pure (Signal.atMost_blackBox hcap)

/-- Gates over two signals brought to one width. -/
theorem returns_gates (x y : Signal) (hcap : 1 ≤ cap) (hn : n ≤ cap) :
    Returns (do
      let x ← fitted b scope x n
      let y ← fitted b scope y n
      return Signal.wire (← place .nand x y)) (Signal.AtMost cap) := by
  refine (returns_fitted x n).bind fun v hv => .then fun w => (returns_place .nand v w).bind fun u hu => ?_
  exact .pure (Signal.atMost_wire hcap (by omega))

theorem returns_nand (hscope : scope.AtMost cap) (hwant : AskedAtMost cap want) (hx : x.AtMost cap)
    (hy : y.AtMost cap) : Returns (nand b scope want x y) (Signal.AtMost cap) := by
  unfold nand
  cases hw : knownWidth scope x with
  | none =>
    cases hv : knownWidth scope y with
    | none => exact returns_gates x y hx.pos (hwant.getD (max_le hx.natural hy.natural))
    | some v => exact returns_gates x y hx.pos (knownWidth_le hscope hy hv)
  | some w =>
    have hle := knownWidth_le hscope hx hw
    cases knownWidth scope y with
    | none => exact returns_gates x y hx.pos hle
    | some v =>
      dsimp only
      split
      · exact returns_gates x y hx.pos hle
      · exact .throw_bind

theorem returns_dff (hscope : scope.AtMost cap) (hwant : AskedAtMost cap want) (hx : x.AtMost cap) :
    Returns (dff b scope want x y) (Signal.AtMost cap) := by
  have hn : (knownWidth scope x).getD (want.getD x.naturalWidth) ≤ cap := by
    cases hw : knownWidth scope x with
    | none => exact hwant.getD hx.natural
    | some w => exact knownWidth_le hscope hx hw
  unfold dff
  refine (returns_fitted x _).bind fun v hv => ?_
  have hcells : ∀ clk, Returns (do return Signal.wire (← place .dff v clk)) (Signal.AtMost cap) := fun clk =>
    (returns_place .dff v clk).bind fun u hu => .pure (Signal.atMost_wire hx.pos (by omega))
  -- the clock has no say in the width, wherever it comes from
  split
  · exact .then fun _ => .then fun _ => hcells _
  · exact .then fun _ => .then fun _ => hcells _
  · split
    · exact .then fun _ => hcells _
    · exact .throw_bind

end Signals

/-! ## Expressions and statements -/

/-- No output of an instance of the callee is too wide. -/
def Callee.AtMost (cap : Nat) (c : Callee) : Prop := ∀ chain args, Returns (c.instantiate chain args) (AllAtMost cap)

section Bodies

variable {cap : Nat} {b : Body} {scope : Scope Signal} {want : Option Nat}

/-- **What an expression stands for fits**, if its ranges and literals do. -/
theorem returns_expr_arguments (hcap : wordBits ≤ cap) (hcalls : ∀ c ∈ b.callees, c.AtMost cap)
    (hscope : scope.AtMost cap) :
    (∀ want e, e.Confined cap → AskedAtMost cap want → Returns (expr b scope want e) (Signal.AtMost cap)) ∧
    ∀ ps as, Returns (arguments b scope ps as) fun _ => True := by
  have hpos : 1 ≤ cap := le_trans (by decide) hcap
  -- the induction is on expressions and argument lists at once, one case for each equation
  apply expr.mutual_induct b
  case case1 =>
    intro want name _ _
    rw [expr]
    exact returns_nameSignal hpos hscope name
  case case2 =>
    intro want value hconfined _
    rw [expr]
    exact .pure (Signal.atMost_literal hcap hconfined.literal)
  case case3 =>
    intro want x y hx hy hconfined hwant
    rw [expr]
    refine (hx (hconfined.args x (by simp)) hwant).bind fun v hv => ?_
    exact (hy (hconfined.args y (by simp)) hwant).bind fun w hw => returns_nand hscope hwant hv hw
  case case4 =>
    intro want args hargs _ _
    rw [expr.eq_4 b scope want args hargs]
    exact .throw
  case case5 =>
    intro want x y hx _ hconfined hwant
    rw [expr]
    refine (hx (hconfined.args x (by simp)) hwant).bind fun v hv => .then fun w => ?_
    exact returns_dff hscope hwant hv
  case case6 =>
    intro want args hargs _ _
    rw [expr.eq_6 b scope want args hargs]
    exact .throw
  case case7 =>
    intro want name args hnand hdff hc _ _
    rw [expr.eq_7 b scope want name args hnand hdff, hc]
    exact .then fun _ => .pure (Signal.atMost_blackBox hpos)
  case case8 =>
    intro want name args hnand hdff c hc _ _ _
    rw [expr.eq_7 b scope want name args hnand hdff, hc]
    refine .then fun _ => .then fun ws => (hcalls c (List.mem_of_find?_eq_some hc) _ ws).bind fun outs houts => ?_
    exact .pure (Signal.atMost_bundle hpos houts)
  case case9 =>
    intro want object name ih hconfined _
    rw [expr]
    exact (ih hconfined.object askedAtMost_none).bind fun x hx => returns_field hscope hx object name
  case case10 =>
    intro want object r ih hconfined _
    rw [expr]
    refine .then fun x => (returns_project x r).bind fun w hw => .pure (Signal.atMost_wire hpos ?_)
    have hlt := hconfined.ranges r (.here object)
    rw [hw, BitRange.width]
    omega
  case case11 => exact fun _ _ _ _ _ _ _ _ _ _ => trivial
  case case12 => exact fun _ _ _ _ _ _ _ => trivial

/-- **A statement binds a signal that fits**, if its ranges and literals do and the outputs of its module. -/
theorem returns_assign (hcap : wordBits ≤ cap) (hcalls : ∀ c ∈ b.callees, c.AtMost cap)
    (hports : ∀ p ∈ b.module.outputs, p.width ≤ cap) (hscope : scope.AtMost cap) {st : Statement}
    (hst : st.Confined cap) : Returns (assign b scope st) (Scope.AtMost cap) := by
  have hpos : 1 ≤ cap := le_trans (by decide) hcap
  have hdeclared : AskedAtMost cap ((b.module.output? st.target.name).map Port.width) := by
    intro n hn
    obtain ⟨p, hp, rfl⟩ := Option.map_eq_some_iff.1 hn
    exact hports p (List.mem_of_find?_eq_some hp)
  have hexpr := fun want hwant => (returns_expr_arguments hcap hcalls hscope).1 want st.expr hst.expr hwant
  unfold assign
  dsimp only
  generalize (b.module.output? st.target.name).map Port.width = declared at hdeclared
  cases hrange : st.target.range with
  | none => exact (hexpr _ hdeclared).bind fun x hx => .pure (hscope.bind hx _)
  | some r =>
    have hlt : r.hi + 1 ≤ cap := hst.range r hrange
    have hleast : declared.getD (r.hi + 1) ≤ cap := hdeclared.getD hlt
    -- whatever the name was before, it is widened for the range at most
    have hsplice : ∀ part current : Wire, current.width ≤ cap → Returns (do
        if (current.fit (max current.width (r.hi + 1))).width < r.lo + part.width then
          throw (.fault .spliceOutOfRange)
        return scope.bind st.target.name (.wire ((current.fit (max current.width (r.hi + 1))).splice r.lo part)))
        (Scope.AtMost cap) := by
      intro part current hcurrent
      split
      · exact .throw_bind
      · refine .pure (hscope.bind (Signal.atMost_wire hpos ?_) _)
        rw [Wire.width_splice, Wire.width_fit]
        exact max_le hcurrent hlt
    refine .then fun x => .then fun part => ?_
    cases hy : scope.lookup st.target.name with
    | none =>
      refine hsplice part _ ?_
      rwa [Wire.width_zeros]
    | some y =>
      exact (returns_materialize hscope (hscope.lookup hy) (askedAtMost_some hleast)).bind (hsplice part)

theorem returns_assignAll (hcap : wordBits ≤ cap) (hcalls : ∀ c ∈ b.callees, c.AtMost cap)
    (hports : ∀ p ∈ b.module.outputs, p.width ≤ cap) (sts : List Statement) : ∀ {scope : Scope Signal},
      scope.AtMost cap → (∀ st ∈ sts, st.Confined cap) → Returns (assignAll b scope sts) (Scope.AtMost cap) := by
  induction sts with
  | nil => exact fun hscope _ => .pure hscope
  | cons st sts ih =>
    intro scope hscope hsts
    obtain ⟨hst, hsts⟩ := List.forall_mem_cons.1 hsts
    exact (returns_assign hcap hcalls hports hscope hst).bind fun next hnext => ih hnext hsts

/-! ## What a body offers -/

theorem atMost_of_ports {ws : List (String × Wire)} {ps : List Port}
    (h : ws.map (fun o => (o.1, o.2.width)) = ps.map fun p => (p.name, p.width)) (hports : ∀ p ∈ ps, p.width ≤ cap) :
    AllAtMost cap ws := by
  intro o ho
  have hmem : (o.1, o.2.width) ∈ ps.map fun p => (p.name, p.width) := h ▸ List.mem_map_of_mem ho
  obtain ⟨p, hp, heq⟩ := List.mem_map.1 hmem
  rw [← (Prod.mk.inj heq).2]
  exact hports p hp

theorem returns_wiresOf (hscope : scope.AtMost cap) (name : String) {x : Signal} (hx : x.AtMost cap) :
    Returns (wiresOf b scope name x) (AllAtMost cap) := by
  have hfits := hx.follow hscope
  have hwire : ∀ z : Signal, z.AtMost cap →
      Returns (do return [(name, ← materialize b scope z none)]) (AllAtMost cap) := fun z hz =>
    (returns_materialize hscope hz askedAtMost_none).bind fun w hw => .pure (List.forall_mem_singleton.2 hw)
  unfold wiresOf
  cases hf : follow scope x with
  | bundle fields =>
    rw [hf] at hfits
    have hfields : AllAtMost cap fields := List.forall_mem_map.1 hfits.wires
    match fields with
    | [] => exact .pure (List.forall_mem_nil _)
    | [(n, w)] => exact .pure (List.forall_mem_singleton.2 (hfields (n, w) List.mem_cons_self))
    | _ :: _ :: _ => exact .pure (List.forall_mem_map.2 hfields)
  | _ => exact hwire _ (hf ▸ hfits)

theorem returns_locals (hscope : scope.AtMost cap) (xs : List (String × Signal)) :
    (∀ x ∈ xs, x.2.AtMost cap) → Returns (locals b scope xs) (AllAtMost cap) := by
  induction xs with
  | nil => exact fun _ => .pure (List.forall_mem_nil _)
  | cons e xs ih =>
    intro hxs
    obtain ⟨hx, hxs⟩ := List.forall_mem_cons.1 hxs
    rw [locals_cons]
    refine (returns_wiresOf hscope e.1 hx).bind fun here hhere => (ih hxs).bind fun rest hrest => ?_
    exact .pure (List.forall_mem_append.2 ⟨hhere, hrest⟩)

/-- Wires keep their widths where forward reads are resolved. -/
theorem returns_resolveForwards (scope : Scope Signal) (inst : Instance) : Returns (resolveForwards b scope inst)
    fun r => (AllAtMost cap inst.outputs → AllAtMost cap r.outputs) ∧
      (AllAtMost cap inst.locals → AllAtMost cap r.locals) := by
  intro s r s' h
  obtain ⟨log, hlog⟩ := gives_resolveForwards (b := b) (noneDangling_of_gives h)
  obtain ⟨rfl, -⟩ := h.unique hlog
  have hsettle : ∀ ws : List (String × Wire), AllAtMost cap ws →
      AllAtMost cap (ws.map fun w => (w.1, w.2.map (settled scope s))) := fun ws hws =>
    List.forall_mem_map.2 fun w hw => by
      rw [Wire.width_map]
      exact hws w hw
  exact ⟨hsettle _, hsettle _⟩

end Bodies

/-! ## Instances -/

section Instances

variable {cap : Nat} {m : Module}

theorem Returns.enclosed {α : Type} {x : Build α} {P : α → Prop} (h : Returns x P) : Returns (enclosed x) P := by
  intro s a s' ha
  obtain ⟨t, hx, -⟩ := gives_enclosed.1 ha
  exact h _ a t hx

/-- The outputs of an instance are as wide as its ports. -/
theorem returns_instantiate (callees : List Callee) (hports : ∀ p ∈ m.outputs, p.width ≤ cap) (outer : List String)
    (args : List Wire) : Returns (instantiate callees m outer args) fun i => AllAtMost cap i.outputs := by
  unfold instantiate
  refine .then fun _ => Returns.enclosed (.then fun scope => ?_)
  have houtputs : Returns (outputs ⟨m, m.name :: outer, callees⟩ scope m.outputs) (AllAtMost cap) :=
    fun s outs s' h => atMost_of_ports (ports_outputs h) hports
  refine houtputs.bind fun outs houts => ?_
  have hresolve : ∀ locs, Returns (resolveForwards ⟨m, m.name :: outer, callees⟩ scope ⟨outs, locs⟩)
      fun i => AllAtMost cap i.outputs :=
    fun locs s r s' h => (returns_resolveForwards scope ⟨outs, locs⟩ s r s' h).1 houts
  split
  · exact .then hresolve
  · exact .then hresolve

/-- No instance of earlier modules has outputs that are too wide, and the module itself has no instance. -/
theorem atMost_visibleFrom {es : List Module} (hports : ∀ d ∈ es, ∀ p ∈ d.outputs, p.width ≤ cap) (m : Module) :
    ∀ c ∈ visibleFrom (calleesOf es) m, c.AtMost cap := by
  have hcalls : ∀ c ∈ calleesOf es, c.AtMost cap := by
    induction es with
    | nil => exact nofun
    | cons d es ih =>
      obtain ⟨hd, hes⟩ := List.forall_mem_cons.1 hports
      refine List.forall_mem_cons.2 ⟨fun chain args => ?_, ih hes⟩
      exact (returns_instantiate _ hd chain args).bind fun i hi => .pure hi
  exact List.forall_mem_cons.2 ⟨fun _ _ => .throw, hcalls⟩

/-- The wires that a body names fit. -/
theorem returns_outerBody {b : Body} (hcap : wordBits ≤ cap) (hcalls : ∀ c ∈ b.callees, c.AtMost cap)
    (hports : ∀ p ∈ b.module.ports, p.width ≤ cap) (hsts : ∀ st ∈ b.module.statements, st.Confined cap)
    (args : List Wire) : Returns (outerBody b args) fun i => AllAtMost cap i.locals := by
  have hstart : ∀ (ps : List Port) (scope : Scope Signal) (args : List Wire), (∀ p ∈ ps, p.width ≤ cap) →
      scope.AtMost cap → (argumentScope scope ps args).AtMost cap := by
    intro ps
    induction ps with
    | nil => exact fun _ _ _ hscope => hscope
    | cons p ps ih =>
      intro scope args hps hscope
      obtain ⟨hp, hps⟩ := List.forall_mem_cons.1 hps
      cases args with
      | nil => exact hscope
      | cons w ws =>
        refine ih _ ws hps (hscope.bind (Signal.atMost_wire (le_trans (by decide) hcap) ?_) _)
        rwa [Wire.width_fit]
  obtain ⟨hinputs, houtputs⟩ := List.forall_mem_append.1 hports
  refine (returns_assignAll hcap hcalls houtputs _ (hstart _ .empty args hinputs nofun) hsts).bind
    fun scope hscope => .then fun outs => ?_
  refine (returns_locals hscope scope.latest hscope.latest).bind fun locs hlocs => ?_
  exact fun s r s' h => (returns_resolveForwards scope ⟨outs, locs⟩ s r s' h).2 hlocs

/-- **The signals of a netlist fit**, if the ports of its module and of those before it do, and the ranges of
its own module end in time. -/
theorem signals_atMost {es : List Module} {first : Nat} {n : Netlist} {s' : State} (hcap : wordBits ≤ cap)
    (hearlier : ∀ d ∈ es, ∀ p ∈ d.outputs, p.width ≤ cap) (hports : ∀ p ∈ m.ports, p.width ≤ cap)
    (hsts : ∀ st ∈ m.statements, st.Confined cap)
    (h : Gives (netlist (calleesOf es) m) (State.initial first) n s') : AllAtMost cap n.signals.entries := by
  obtain ⟨i, t, hbody, rfl, -⟩ := outerBody_of_netlist h
  obtain ⟨hinputs, houtputs⟩ := List.forall_mem_append.1 hports
  have hwires : ∀ (ps : List Port) (offset : Nat), (∀ p ∈ ps, p.width ≤ cap) →
      ∀ w ∈ inputWires offset ps, w.width ≤ cap := by
    intro ps
    induction ps with
    | nil => exact fun _ _ => nofun
    | cons p ps ih =>
      intro offset hps
      obtain ⟨hp, hps⟩ := List.forall_mem_cons.1 hps
      refine List.forall_mem_cons.2 ⟨?_, ih _ hps⟩
      rwa [Wire.width_ofFn]
  intro e he
  rcases NameTable.mem_insertAll he with he | he
  · exact atMost_of_ports (ports_outerBody hbody) houtputs e he
  rcases NameTable.mem_insertAll he with he | he
  · exact returns_outerBody hcap (atMost_visibleFrom hearlier m) hports hsts _ _ _ _ hbody e he
  rcases NameTable.mem_insertAll he with he | he
  · exact hwires _ 0 hinputs e.2 (List.of_mem_zip he).2
  · cases he

end Instances

end Elaboration

/-! ## Designs -/

/-- The statements of a module fit a width if its numbers fit a word and its ranges the width. -/
theorem Module.FitsWords.confined {m : Module} {cap : Nat} (h : m.FitsWords)
    (hranges : ∀ r, m.Mentions r → r.hi < cap) : ∀ st ∈ m.statements, st.Confined cap := fun st hst =>
  ⟨fun r hr => hranges r ⟨st, hst, .inl hr⟩, (h.statements st hst).expr, fun r hr => hranges r ⟨st, hst, .inr hr⟩⟩

/-- How wide the wires of a module are: ports are within the limit, other wires are so where no range of the
module ends at it, and one bit past it otherwise. -/
structure Netlist.WidthsOf (m : Module) (n : Netlist) : Prop where
  inputs : ∀ p ∈ n.inputs, p.width ≤ widthLimit
  outputs : ∀ o ∈ n.outputs, o.1.width ≤ widthLimit ∧ o.2.width ≤ widthLimit
  signals : ∀ e ∈ n.signals.entries, e.2.width ≤ widthLimit + 1
  within : (∀ r, m.Mentions r → r.hi < widthLimit) → ∀ e ∈ n.signals.entries, e.2.width ≤ widthLimit

namespace Elaboration

theorem widths_of_compileFrom {ms : List Module} : ∀ (es : List Module) {first : Nat} {ns : List Netlist},
    (∀ d ∈ es, ∀ p ∈ d.outputs, p.width ≤ widthLimit) → (∀ m ∈ ms, m.FitsWords ∧ m.maxIndex ≤ widthLimit) →
      (compileFrom (calleesOf es) first ms).result = .ok ns → List.Forall₂ Netlist.WidthsOf ms ns := by
  induction ms with
  | nil =>
    intro es first ns _ _ h
    cases h
    exact .nil
  | cons m ms ih =>
    intro es first ns hes hms h
    obtain ⟨⟨hwords, hmax⟩, hms⟩ := List.forall_mem_cons.1 hms
    obtain ⟨n, s, rest, hn, hrest, rfl⟩ := compileFrom_cons h
    obtain ⟨hports, hranges⟩ := Module.maxIndex_le_iff.1 hmax
    obtain ⟨hinputs, houtputs⟩ := List.forall_mem_append.1 hports
    have hof := isOf_of_netlist hn
    obtain ⟨i, t, hbody, hnetlist, -⟩ := outerBody_of_netlist hn
    refine .cons ⟨fun p hp => hinputs p (hof.inputs ▸ hp), fun o ho => ?_, ?_, fun hbelow => ?_⟩
      (ih (m :: es) (List.forall_mem_cons.2 ⟨houtputs, hes⟩) hms hrest)
    · -- an output is as wide as its port
      have hport : o.1.width ≤ widthLimit := houtputs o.1 (hof.outputs ▸ List.mem_map_of_mem ho)
      rw [hnetlist] at ho
      have hwidth := (mem_zip_outputs (ports_outerBody hbody) ho).2
      exact ⟨hport, hwidth ▸ hport⟩
    · refine signals_atMost (by decide) (fun d hd p hp => (hes d hd p hp).trans (Nat.le_succ _))
        (fun p hp => (hports p hp).trans (Nat.le_succ _)) (hwords.confined fun r hr => ?_) hn
      exact Nat.lt_succ_of_le (hranges r hr)
    · exact signals_atMost (by decide) hes hports (hwords.confined hbelow) hn

end Elaboration

open Elaboration

namespace Ledger

/-- **How wide the wires of a compiled design are.** No port is wider than the limit, and no other wire is, with
one exception: a module that itself names the bit whose number is the limit may have wires with that bit, which
are one bit wider. No wire is wider than that. -/
theorem compile_widths {l : Ledger} {ms : List Module} {lib : Library} (hwords : ∀ m ∈ ms, m.FitsWords)
    (h : (l.compile ms).result = .ok lib) : List.Forall₂ Netlist.WidthsOf ms lib.netlists := by
  have hcheck := (checkDesign_ok (check_of_compile h)).2
  exact widths_of_compileFrom [] nofun (fun m hm => ⟨hwords m hm, (hcheck m hm).2⟩) (compileFrom_of_compile h)

end Ledger

/-! ## The widest wire -/

/-- A module that names bit `n` of a wire, and no other bit of it. -/
def lastBit (n : Nat) : Module :=
  ⟨"m", [⟨"a", 1⟩], [⟨"out", 1⟩],
    [⟨⟨"x", some (.bit n)⟩, .identifier "a"⟩, ⟨⟨"out", none⟩, .identifier "a"⟩]⟩

/-- That wire: bit `n` is that of a wire of one bit, and the others are 0. -/
def lastBitWire (n : Nat) (w : Wire) : Wire :=
  ((Wire.zeros (n + 1)).fit (max (n + 1) (n + 1))).splice n (w.fit 1)

/-- What the body of the module offers, given its input. -/
def lastBitInstance (n : Nat) (w : Wire) : Instance :=
  ⟨[("out", w.fit 1)], [("a", w), ("x", lastBitWire n w), ("out", w)]⟩

/-- A wire is what it is, whatever names are bound to. -/
theorem follow_wire (scope : Scope Signal) (w : Wire) : follow scope (.wire w) = .wire w :=
  followWithin_of_ne (by simp) _ _

theorem mentions_lastBit {n : Nat} {r : BitRange} (h : (lastBit n).Mentions r) : r = .bit n := by
  obtain ⟨t, ht, hr⟩ := h
  simp only [lastBit, List.mem_cons, List.not_mem_nil, or_false] at ht
  rcases ht with rfl | rfl
  · rcases hr with hr | hr
    · exact (Option.some.inj hr).symm
    · cases hr
  · rcases hr with hr | hr
    · cases hr
    · cases hr

theorem lastBit_fitsWords {n : Nat} (hn : n < wordLimit) : (lastBit n).FitsWords := by
  have hidentifier : (Expr.identifier "a").FitsWords := by rw [Expr.FitsWords]; trivial
  refine ⟨List.forall_mem_singleton.2 (by decide), List.forall_mem_singleton.2 (by decide), ?_⟩
  refine List.forall_mem_cons.2 ⟨⟨?_, hidentifier⟩, List.forall_mem_singleton.2 ⟨?_, hidentifier⟩⟩
  · rintro _ ⟨⟩
    exact hn
  · intro r hr
    cases hr

namespace Elaboration

theorem openBody_lastBit {b : Body} {n : Nat} (hb : b.module = lastBit n) (w : Wire) : ∃ scope,
    openBody b [w] = pure (scope, lastBitInstance n (w.fit 1)) := by
  obtain ⟨m, chain, callees⟩ := b
  obtain rfl : m = lastBit n := hb
  have hassign : ∀ scope : Scope Signal, scope.lookup "a" = some (.wire (w.fit 1)) → scope.lookup "x" = none →
      assign ⟨lastBit n, chain, callees⟩ scope ⟨⟨"x", some (.bit n)⟩, .identifier "a"⟩ =
        pure (scope.bind "x" (.wire (lastBitWire n (w.fit 1)))) := by
    intro scope ha hx
    have hdeclared : (lastBit n).output? "x" = none := rfl
    simp [assign, expr, nameSignal, ha, hx, fitted, materialize, follow_wire, hdeclared, lastBitWire,
      BitRange.width, BitRange.lo, BitRange.hi]
  -- behind the first statement no step has a choice
  refine ⟨((Scope.empty.bind "a" (.wire (w.fit 1))).bind "x" (.wire (lastBitWire n (w.fit 1)))).bind "out"
    (.wire (w.fit 1)), ?_⟩
  change (assign _ (Scope.empty.bind "a" (.wire (w.fit 1))) _ >>= _) >>= _ = _
  rw [hassign _ rfl rfl, pure_bind]
  rfl

theorem gives_lastBit (n first : Nat) : ∃ c s' w, Gives (netlist [] (lastBit n)) (State.initial first) c s' ∧
    c.signal? "x" = some w ∧ w.width = n + 1 := by
  let b : Body := ⟨lastBit n, ["m"], visibleFrom [] (lastBit n)⟩
  let v := Wire.ofFn 1 fun i => .input (0 + i)
  let start := (State.outermost first (lastBit n)).inner
  obtain ⟨scope, hopen⟩ := openBody_lastBit (b := b) (n := n) rfl v
  have hv : (v.fit 1).All (·.slotBelow 0) := (Wire.all_ofFn fun i _ => by rfl : v.All _).fit (by rfl) 1
  have hx : (lastBitWire n (v.fit 1)).All (·.slotBelow 0) :=
    ((Wire.all_zeros (by rfl) _).fit (by rfl) _).splice (by rfl) (hv.fit (by rfl) 1) n
  -- no slot is open, and none is named
  have hnone : NoneDangling scope start (lastBitInstance n (v.fit 1)) := by
    refine ⟨fun c hc => by simp [directBits, start, State.inner] at hc, fun c hc => absurd hc (Array.not_mem_empty c),
      List.forall_mem_singleton.2 (hv.fit (by rfl) 1), ?_⟩
    exact List.forall_mem_cons.2 ⟨hv, List.forall_mem_cons.2 ⟨hx, List.forall_mem_singleton.2 hv⟩⟩
  obtain ⟨log, hresolve⟩ := gives_resolveForwards (b := b) hnone
  have hbody : outerBody b [v] = resolveForwards b scope (lastBitInstance n (v.fit 1)) := by
    rw [outerBody_eq, hopen, pure_bind]
  rw [← hbody] at hresolve
  obtain ⟨s', hnetlist⟩ := gives_netlist_of_outerBody hresolve
  refine ⟨_, s', (lastBitWire n (v.fit 1)).map (settled scope start), hnetlist, ?_, ?_⟩
  · rw [Netlist.signal?, NameTable.get?_insertAll_of_not_mem (by simp [Instance.settle, lastBitInstance])]
    refine NameTable.get?_insertAll_of_mem (e := ("x", _)) (by simp [Instance.settle, lastBitInstance]) ?_
    exact List.mem_cons_of_mem _ List.mem_cons_self
  · rw [Wire.width_map, lastBitWire, Wire.width_splice, Wire.width_fit, Nat.max_self]

end Elaboration

namespace Ledger

/-- The design compiles as long as the bit may be named, and its wire has all bits up to that one. -/
theorem compile_lastBit {n : Nat} (hn : n ≤ widthLimit) : ∃ lib c w,
    (({} : Ledger).compile [lastBit n]).result = .ok lib ∧ lib.main? = some c ∧ c.signal? "x" = some w ∧
      w.width = n + 1 := by
  obtain ⟨c, s', w, hnetlist, hw, hwidth⟩ := gives_lastBit n 0
  have hmax : (lastBit n).maxIndex ≤ widthLimit := by
    have hports : ∀ p ∈ (lastBit 0).ports, p.width ≤ widthLimit := by decide
    refine Module.maxIndex_le_iff.2 ⟨hports, fun r hr => ?_⟩
    rw [mentions_lastBit hr]
    exact hn
  have hcheck : checkDesign [lastBit n] = .ok () := by
    have hports : firstRepeated? [] ((lastBit n).ports.map Port.name) = none := rfl
    simp only [checkDesign, checkModules, checkModule, hports, if_neg (Nat.not_lt.2 hmax)]
    rfl
  have hfrom : (compileFrom [] 0 [lastBit n]).result = .ok [c] := by
    rw [compileFrom, show (netlist [] (lastBit n)).run (State.initial 0) = _ from hnetlist]
    rfl
  refine ⟨⟨[c]⟩, c, w, ?_, rfl, hw, hwidth⟩
  rw [compile_of_ok hcheck, hfrom]
  rfl

/-- Where the bit with the number of the limit is named, signals have one bit more than that. -/
theorem lastBit_widths : (∀ m ∈ [lastBit widthLimit], m.FitsWords) ∧
    ∃ lib, (({} : Ledger).compile [lastBit widthLimit]).result = .ok lib ∧
      List.Forall₂ Netlist.WidthsOf [lastBit widthLimit] lib.netlists := by
  have hfits : ∀ m ∈ [lastBit widthLimit], m.FitsWords :=
    List.forall_mem_singleton.2 (lastBit_fitsWords (by decide))
  obtain ⟨lib, c, w, hlib, -⟩ := compile_lastBit (le_refl widthLimit)
  exact ⟨hfits, lib, hlib, compile_widths hfits hlib⟩

/-- **A wire that is wider than the limit**, in a design that is read from a text. -/
theorem wide_at_limit :
    (readSource "module m(a) -> out:\n  x[65536] = a\n  out = a\n").value.toOption = some [lastBit widthLimit] ∧
    ∃ lib c w, (({} : Ledger).compile [lastBit widthLimit]).result = .ok lib ∧ lib.main? = some c ∧
      c.signal? "x" = some w ∧ w.width = widthLimit + 1 :=
  ⟨by decide +kernel, compile_lastBit (le_refl widthLimit)⟩

end Ledger

end NandHdl
