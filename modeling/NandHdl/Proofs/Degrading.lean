import NandHdl.Proofs.Extending

/-!
# What compiles without a warning

Where a body makes no sense, 0 takes the place of what is missing, and mostly
this is reported. If nothing is, then all names, modules, outputs and bits that
the bodies of a design mention are there. The exception is a name that is read
early: a bit that its last binding does not have is 0 without a report.

* `Elaboration.Ensures`: what the result of a step has to be, if no warning is given.
* `Kept`, `KeptBody`: no part of an expression or of a body gives way to 0 where it is elaborated.
* `ensures_expr`, `ensures_assignAll`, `ensures_instantiate`: expressions, statements and instances.
* `Ledger.compile_silent`: **a design that compiles without a warning keeps everything**, early reads apart.
* `Ledger.early_bit_silent`: an early read past the last binding of its name gives 0, and no warning.
-/

namespace NandHdl

namespace Elaboration

/-! ## Steps without warnings -/

/-- No report is a warning. -/
def Silent (log : List Event) : Prop := ∀ e ∈ log, e.level ≠ .warn

instance (log : List Event) : Decidable (Silent log) := inferInstanceAs (Decidable (∀ e ∈ log, e.level ≠ .warn))

/-- The step may have this result. -/
def MayGive {α : Type} (x : Build α) (a : α) : Prop := ∃ s s', Gives x s a s'

/-- The step only adds reports, and if none of them is a warning, then its result has the property. -/
def Ensures {α : Type} (x : Build α) (P : α → Prop) : Prop :=
  ∀ s a s', Gives x s a s' → s.log <:+ s'.log ∧ (Silent s'.log → P a)

section Steps

variable {α β : Type} {P P' : α → Prop} {Q : β → Prop} {x : Build α} {g : α → Build β}

theorem Silent.of_suffix {log log' : List Event} (h : Silent log') (hle : log <:+ log') : Silent log :=
  fun e he => h e (hle.subset he)

theorem Ensures.imp (h : Ensures x P) (hP : ∀ a, P a → P' a) : Ensures x P' := fun s a s' hx =>
  ⟨(h s a s' hx).1, fun hs => hP a ((h s a s' hx).2 hs)⟩

theorem Ensures.pure {a : α} (h : P a) : Ensures (pure a) P := by
  intro s a' s' hx
  obtain ⟨rfl, rfl⟩ := gives_pure.1 hx
  exact ⟨List.suffix_rfl, fun _ => h⟩

/-- The second step may rely on what the first one has ensured. -/
theorem Ensures.bind (hx : Ensures x P) (hg : ∀ a, MayGive x a → Ensures (g a) fun b => P a → Q b) :
    Ensures (x >>= g) Q := by
  intro s b s'' h
  obtain ⟨a, s', ha, hb⟩ := gives_bind.1 h
  obtain ⟨hle, hP⟩ := hx s a s' ha
  obtain ⟨hle', hQ⟩ := hg a ⟨s, s', ha⟩ s' b s'' hb
  exact ⟨hle.trans hle', fun hs => hQ hs (hP (hs.of_suffix hle'))⟩

theorem Ensures.throw {e : CompileError} : Ensures (throw e) P := fun _ _ _ h => absurd h not_gives_throw

theorem Ensures.throw_bind {e : CompileError} {h : β → Build α} : Ensures (MonadExcept.throw e >>= h) P :=
  fun _ _ _ hx => by
    obtain ⟨_, _, hthrow, -⟩ := gives_bind.1 hx
    exact absurd hthrow not_gives_throw

/-- A step that makes no report. -/
theorem ensures_modifyGet {h : State → α × State} (hlog : ∀ s, (h s).2.log = s.log) (hP : ∀ s, P (h s).1) :
    Ensures (modifyGet h) P := by
  intro s a s' hx
  have heq := gives_modifyGet.1 hx
  have h1 := hlog s
  have h2 := hP s
  rw [heq] at h1 h2
  exact ⟨h1 ▸ List.suffix_rfl, fun _ => h2⟩

theorem ensures_modify {h : State → State} (hlog : ∀ s, (h s).log = s.log) :
    Ensures (modify h) fun _ => True :=
  @ensures_modifyGet _ _ (fun s => ((), h s)) hlog fun _ => trivial

theorem ensures_note (e : Event) : Ensures (note e) fun _ => e.level ≠ .warn := by
  intro s u s' hx
  rw [gives_note.1 hx]
  exact ⟨List.suffix_cons e s.log, fun hs => hs e List.mem_cons_self⟩

/-- After a warning there is nothing left to ensure. -/
theorem Ensures.warned {e : Event} {h : Unit → Build β} (he : e.level = .warn)
    (hx : Ensures (h ()) fun _ => True) :
    Ensures (note e >>= h) Q :=
  (ensures_note e).bind fun _ _ => hx.imp fun _ _ hne => absurd he hne

theorem ensures_place (cell : Bit → Bit → Cell) (a b : Wire) : Ensures (place cell a b) fun _ => True :=
  ensures_modifyGet (fun _ => rfl) fun _ => trivial

theorem ensures_readForward (name : String) (lo count : Nat) :
    Ensures (readForward name lo count) fun _ => True := by
  unfold readForward
  split
  · exact Ensures.throw_bind
  · exact ensures_modifyGet (fun _ => rfl) fun _ => trivial

theorem ensures_checkArity (name : String) (expected found : Nat) :
    Ensures (checkArity name expected found) fun _ => expected = found := by
  unfold checkArity
  split
  · exact Ensures.pure ‹_›
  · exact Ensures.throw

end Steps

/-! ## Signals -/

/-- The signal is no instance with several outputs or none. -/
def PlainWire (scope : Scope Signal) (x : Signal) : Prop :=
  ∀ fields, follow scope x = .bundle fields → fields.length = 1

/-- The signal has all bits of the range. A number has all bits there are, and what a name that is read early
has is not known yet. -/
def InRange (scope : Scope Signal) (x : Signal) (r : BitRange) : Prop :=
  (∃ w, (follow scope x).wire? = some w ∧ r.hi < w.width) ∨ (∃ value, follow scope x = .literal value) ∨
    ∃ name, follow scope x = .forward name

section Signals

variable {b : Body} {scope : Scope Signal}

theorem ensures_materialize (x : Signal) (want : Option Nat) :
    Ensures (materialize b scope x want) fun _ => PlainWire scope x := by
  unfold materialize PlainWire
  cases follow scope x with
  | bundle fields =>
    match fields with
    | [] => exact Ensures.warned rfl (Ensures.pure trivial)
    | [(_, w)] => exact Ensures.pure fun fields h => by cases h; rfl
    | _ :: _ :: _ => exact Ensures.warned rfl (Ensures.pure trivial)
  | forward name => exact (ensures_readForward name 0 _).imp fun _ _ => nofun
  | _ => exact Ensures.pure nofun

theorem ensures_fitted (x : Signal) (width : Nat) :
    Ensures (fitted b scope x width) fun _ => PlainWire scope x :=
  (ensures_materialize x (some width)).bind fun _ _ => Ensures.pure id

/-- Taking bits out of a wire, of which it may not have enough. -/
theorem ensures_extract {y : Signal} {w : Wire} (hy : y.wire? = some w) (r : BitRange) : Ensures (do
      let w ← materialize b scope y none
      if w.width ≤ r.hi then note (.bitOutOfRange r.hi w.width b.module.name)
      return w.extract r.lo r.width) fun _ => r.hi < w.width := by
  have hmaterialize : materialize b scope y none = pure w := by
    unfold materialize
    cases y with
    | wire v =>
      cases hy
      rw [follow, followWithin_of_ne (by simp)]
    | bundle fields =>
      obtain _ | ⟨⟨name, v⟩, _ | ⟨_, _⟩⟩ := fields <;> cases hy
      rw [follow, followWithin_of_ne (by simp)]
    | _ => cases hy
  rw [hmaterialize, pure_bind]
  split
  · exact Ensures.warned rfl (Ensures.pure trivial)
  · exact Ensures.pure (by omega)

theorem ensures_project (x : Signal) (r : BitRange) :
    Ensures (project b scope x r) fun _ => InRange scope x r ∨ follow scope x = .blackBox := by
  unfold project InRange
  cases hx : follow scope x with
  | literal value => exact Ensures.pure (.inl (.inr (.inl ⟨value, rfl⟩)))
  | blackBox => exact Ensures.pure (.inr rfl)
  | forward name => exact (ensures_readForward name r.lo r.width).imp fun _ _ => .inl (.inr (.inr ⟨name, rfl⟩))
  | wire w => exact (ensures_extract rfl r).imp fun _ h => .inl (.inl ⟨w, rfl, h⟩)
  | bundle fields =>
    match fields with
    | [(_, w)] => exact (ensures_extract rfl r).imp fun _ h => .inl (.inl ⟨w, rfl, h⟩)
    | [] | _ :: _ :: _ =>
      -- what is no single wire is refused before any bit is taken out
      refine (ensures_materialize _ none).bind fun w _ => ?_
      refine Ensures.imp (P := fun _ => True) ?_ fun _ _ hplain => ?_
      · split
        · exact Ensures.warned rfl (Ensures.pure trivial)
        · exact Ensures.pure trivial
      · have hlength := hplain _ (followWithin_of_ne (by simp) _ _)
        simp at hlength

theorem ensures_field (object : Expr) (x : Signal) (name : String) :
    Ensures (field scope object x name) fun y => follow scope x = .blackBox ∨
      y ≠ .blackBox ∧ ∃ fields, follow scope x = .bundle fields ∧ name ∈ fields.map Prod.fst := by
  unfold field
  cases hx : follow scope x with
  | bundle fields =>
    cases hf : fields.find? fun f => decide (f.1 = name) with
    | none =>
      simp only [hf]
      exact Ensures.warned rfl (Ensures.pure trivial)
    | some f =>
      simp only [hf]
      have hname : f.1 = name := by simpa using List.find?_some hf
      exact Ensures.pure (.inr ⟨by simp, fields, rfl, List.mem_map.2 ⟨f, List.mem_of_find?_eq_some hf, hname⟩⟩)
  | blackBox => exact Ensures.pure (.inl rfl)
  | _ => exact Ensures.warned rfl (Ensures.pure trivial)

/-- Gates over two signals brought to one width. -/
theorem ensures_gates (x y : Signal) (width : Nat) :
    Ensures (do
      let x ← fitted b scope x width
      let y ← fitted b scope y width
      return Signal.wire (← place .nand x y))
      fun z => z ≠ .blackBox ∧ PlainWire scope x ∧ PlainWire scope y := by
  refine (ensures_fitted x width).bind fun v _ => (ensures_fitted y width).bind fun w _ => ?_
  exact (ensures_place .nand v w).bind fun z _ => Ensures.pure fun _ hy hx => ⟨by simp, hx, hy⟩

theorem ensures_nand (want : Option Nat) (x y : Signal) : Ensures (nand b scope want x y)
    fun z => z ≠ .blackBox ∧ PlainWire scope x ∧ PlainWire scope y := by
  unfold nand
  cases knownWidth scope x with
  | none =>
    cases knownWidth scope y with
    | none => exact ensures_gates x y _
    | some v => exact ensures_gates x y v
  | some w =>
    cases knownWidth scope y with
    | none => exact ensures_gates x y w
    | some v =>
      by_cases h : w = v
      · simp only [if_pos h, pure_bind]
        exact ensures_gates x y w
      · simp only [if_neg h]
        exact Ensures.throw_bind

theorem ensures_dff (want : Option Nat) (x y : Signal) : Ensures (dff b scope want x y)
    fun z => z ≠ .blackBox ∧ PlainWire scope x ∧ PlainWire scope y := by
  unfold dff
  refine (ensures_fitted x _).bind fun v _ => ?_
  have hcells : ∀ w : Wire, Ensures (do return Signal.wire (← place .dff v w)) fun z => z ≠ .blackBox :=
    fun w => (ensures_place .dff v w).bind fun z _ => Ensures.pure fun _ => by simp
  have hshared : Ensures (do
      let clk ← fitted b scope y 1
      let clk ← pure (.ofFn ((knownWidth scope x).getD (want.getD x.naturalWidth)) fun _ => clk.bitOrZero 0)
      return Signal.wire (← place .dff v clk))
      fun z => PlainWire scope x → z ≠ .blackBox ∧ PlainWire scope x ∧ PlainWire scope y := by
    refine (ensures_fitted y 1).bind fun clk _ => ?_
    simp only [pure_bind]
    exact (hcells _).imp fun _ hz hy hx => ⟨hz, hx, hy⟩
  split
  · exact hshared
  · exact hshared
  · split
    · exact (ensures_materialize y _).bind fun w _ => (hcells w).imp fun _ hz hy hx => ⟨hz, hx, hy⟩
    · exact Ensures.throw_bind

end Signals

/-! ## Bodies -/

/-- Only names that the module knows are bound, and none to a black box. -/
structure Intact (m : Module) (scope : Scope Signal) : Prop where
  within : scope.Within m
  boxes : ∀ e ∈ scope.newestFirst, e.2 ≠ .blackBox

/-- In the scope the expression may stand for a signal that is no instance with several outputs or none. -/
def StandsForWire (b : Body) (scope : Scope Signal) (e : Expr) : Prop :=
  ∃ want x, MayGive (expr b scope want e) x ∧ PlainWire scope x

mutual

/-- **No part of the expression gives way to 0** where it is elaborated, a name read early apart: its names
are inputs or assigned, its calls name a primitive, the module itself or one of the modules `es` before it,
its fields are outputs of the instances they are taken from, its ranges lie within what they are taken from,
and no instance with several outputs or none is used as a wire. -/
inductive Kept (es : List Module) (b : Body) (scope : Scope Signal) : Expr → Prop
  | identifier {name : String} (h : name ∈ b.module.inputs.map Port.name ∨ b.module.assigns name) :
    Kept es b scope (.identifier name)
  | number (value : Nat) : Kept es b scope (.number value)
  | call {name : String} {args : List Expr} (hname : isPrimitive name ∨ name ∈ definedFor es b.module)
    (hargs : KeptAll es b scope args) (hwires : ∀ a ∈ args, StandsForWire b scope a) :
    Kept es b scope (.call name args)
  | member {object : Expr} {name : String} (hobject : Kept es b scope object)
    (hname : ∃ x fields, MayGive (expr b scope none object) x ∧ follow scope x = .bundle fields ∧
      name ∈ fields.map Prod.fst) : Kept es b scope (.member object name)
  | select {object : Expr} {r : BitRange} (hobject : Kept es b scope object)
    (hrange : ∃ x, MayGive (expr b scope none object) x ∧ InRange scope x r) :
    Kept es b scope (.select object r)

@[inherit_doc Kept]
inductive KeptAll (es : List Module) (b : Body) (scope : Scope Signal) : List Expr → Prop
  | nil : KeptAll es b scope []
  | cons {a : Expr} {as : List Expr} (h : Kept es b scope a) (hs : KeptAll es b scope as) :
    KeptAll es b scope (a :: as)

end

/-- Instances of the callee only add reports. -/
def Callee.Reports (c : Callee) : Prop := ∀ chain args, Ensures (c.instantiate chain args) fun _ => True

section Bodies

variable {es : List Module} {b : Body} {scope : Scope Signal} {m : Module}

theorem Intact.bind (h : Intact m scope) {name : String} (hname : m.assigns name) {x : Signal}
    (hx : x ≠ .blackBox) : Intact m (scope.bind name x) :=
  ⟨h.within.bind hname x, List.forall_mem_cons.2 ⟨hx, h.boxes⟩⟩

theorem Intact.lookup (h : Intact m scope) {name : String} {x : Signal} (hx : scope.lookup name = some x) :
    (name ∈ m.inputs.map Port.name ∨ m.assigns name) ∧ x ≠ .blackBox :=
  ⟨h.within _ (Scope.mem_of_lookup hx), h.boxes _ (Scope.mem_of_lookup hx)⟩

/-- Names lead to no black box where none is bound to one. -/
theorem Intact.follow_ne (h : Intact m scope) {x : Signal} (hx : x ≠ .blackBox) :
    follow scope x ≠ .blackBox := by
  have hboxes := h.boxes
  unfold follow
  generalize scope.newestFirst.length = fuel
  -- the scope loses a name with every step, and no black box comes into it
  induction fuel generalizing scope x with
  | zero => exact hx
  | succ fuel ih =>
    cases x with
    | forward name =>
      cases hl : scope.lookup name with
      | none => simp [followWithin, hl]
      | some y =>
        simp only [followWithin, hl]
        have hrest : ∀ e ∈ (scope.without name).newestFirst, e.2 ≠ .blackBox :=
          fun e he => hboxes e (List.mem_filter.1 he).1
        exact ih ⟨fun e he => h.within e (List.mem_filter.1 he).1, hrest⟩
          (hboxes _ (Scope.mem_of_lookup hl)) hrest
    | blackBox => exact absurd rfl hx
    | _ => exact hx

theorem ensures_nameSignal (name : String) : Ensures (nameSignal b scope name) fun x =>
    Intact b.module scope → (name ∈ b.module.inputs.map Port.name ∨ b.module.assigns name) ∧ x ≠ .blackBox := by
  unfold nameSignal
  cases hx : scope.lookup name with
  | some x => exact Ensures.pure fun h => h.lookup hx
  | none =>
    simp only
    split
    · next h => exact Ensures.pure fun _ => ⟨.inr h, by simp⟩
    · exact Ensures.warned rfl (Ensures.pure trivial)

/-- What can be called is defined. -/
theorem definedFor_of_callee? {chain : List String} {name : String} {c : Callee}
    (h : Body.callee? ⟨m, chain, visibleFrom (calleesOf es) m⟩ name = some c) : name ∈ definedFor es m := by
  by_contra hname
  rw [callee?_undefined hname] at h
  cases h

/-- Expressions and argument lists. -/
theorem ensures_expr_arguments (hcalls : ∀ c ∈ b.callees, c.Reports)
    (hdefined : ∀ name c, b.callee? name = some c → name ∈ definedFor es b.module) (scope : Scope Signal) :
    (∀ want e, Ensures (expr b scope want e) fun x =>
      Intact b.module scope → Kept es b scope e ∧ x ≠ .blackBox) ∧
    ∀ ps as, Ensures (arguments b scope ps as) fun _ => ps.length = as.length →
      Intact b.module scope → KeptAll es b scope as ∧ ∀ a ∈ as, StandsForWire b scope a := by
  have hpair : ∀ {name : String} {want want' : Option Nat} {x y : Expr} {v w : Signal}, isPrimitive name →
      MayGive (expr b scope want x) v → MayGive (expr b scope want' y) w → PlainWire scope v →
      PlainWire scope w → Kept es b scope x → Kept es b scope y → Kept es b scope (.call name [x, y]) := by
    intro name want want' x y v w hname hv hw hpv hpw hx hy
    refine .call (.inl hname) (.cons hx (.cons hy .nil)) fun a ha => ?_
    rcases List.mem_cons.1 ha with rfl | ha
    · exact ⟨want, v, hv, hpv⟩
    · rw [List.mem_singleton.1 ha]
      exact ⟨want', w, hw, hpw⟩
  -- the induction is on expressions and argument lists at once, one case for each equation
  apply expr.mutual_induct b
  case case1 =>
    intro want name
    rw [expr]
    exact (ensures_nameSignal name).imp fun x hx h => ⟨.identifier (hx h).1, (hx h).2⟩
  case case2 =>
    intro want value
    rw [expr]
    exact Ensures.pure fun _ => ⟨.number value, by simp⟩
  case case3 =>
    intro want x y hx hy
    rw [expr]
    refine hx.bind fun v hv => hy.bind fun w hw => (ensures_nand want v w).imp fun z hz hky hkx h => ?_
    exact ⟨hpair rfl hv hw hz.2.1 hz.2.2 (hkx h).1 (hky h).1, hz.1⟩
  case case4 =>
    intro want args hargs
    rw [expr.eq_4 b scope want args hargs]
    exact Ensures.throw
  case case5 =>
    intro want d clk hd hclk
    rw [expr]
    refine hd.bind fun v hv => hclk.bind fun w hw => (ensures_dff want v w).imp fun z hz hky hkx h => ?_
    exact ⟨hpair rfl hv hw hz.2.1 hz.2.2 (hkx h).1 (hky h).1, hz.1⟩
  case case6 =>
    intro want args hargs
    rw [expr.eq_6 b scope want args hargs]
    exact Ensures.throw
  case case7 =>
    intro want name args hnand hdff hnone
    rw [expr.eq_7 b scope want name args hnand hdff, hnone]
    exact Ensures.warned rfl (Ensures.pure trivial)
  case case8 =>
    intro want name args hnand hdff callee hsome ih
    rw [expr.eq_7 b scope want name args hnand hdff, hsome]
    refine (ensures_checkArity _ _ _).bind fun _ _ => ih.bind fun ws _ => ?_
    refine (hcalls callee (List.mem_of_find?_eq_some hsome) b.chain ws).bind fun outs _ => ?_
    refine Ensures.pure fun _ hargs harity h => ⟨?_, by simp⟩
    exact .call (.inr (hdefined name callee hsome)) (hargs harity h).1 (hargs harity h).2
  case case9 =>
    intro want object name ih
    rw [expr]
    refine ih.bind fun x hx => (ensures_field object x name).imp fun y hy hkept h => ?_
    rcases hy with hbox | ⟨hne, fields, hfields, hname⟩
    · exact absurd hbox (h.follow_ne (hkept h).2)
    · exact ⟨.member (hkept h).1 ⟨x, fields, hx, hfields, hname⟩, hne⟩
  case case10 =>
    intro want object r ih
    rw [expr]
    refine ih.bind fun x hx => (ensures_project x r).bind fun w _ => Ensures.pure fun hr hkept h => ?_
    rcases hr with hr | hbox
    · exact ⟨.select (hkept h).1 ⟨x, hx, hr⟩, by simp⟩
    · exact absurd hbox (h.follow_ne (hkept h).2)
  case case11 =>
    intro p ps a as ha has
    rw [arguments]
    refine ha.bind fun x hx => (ensures_fitted x p.width).bind fun w _ => has.bind fun ws _ => ?_
    refine Ensures.pure fun hrest hplain hkept hlength h => ?_
    obtain ⟨hall, hwires⟩ := hrest (Nat.succ.inj hlength) h
    exact ⟨.cons (hkept h).1 hall, List.forall_mem_cons.2 ⟨⟨some p.width, x, hx, hplain⟩, hwires⟩⟩
  case case12 =>
    intro as ps hne
    rw [arguments.eq_2 b scope ps as hne]
    refine Ensures.pure fun hlength _ => ?_
    cases as with
    | nil => exact ⟨.nil, List.forall_mem_nil _⟩
    | cons a as =>
      cases ps with
      | nil => cases hlength
      | cons p ps => exact (hne p ps a as rfl rfl).elim

/-! ## Statements -/

/-- No part of the statement gives way to 0 where it is elaborated. If it assigns some bits of a name, then
neither the value nor what the name had is an instance with several outputs or none. -/
structure KeptStatement (es : List Module) (b : Body) (scope : Scope Signal) (st : Statement) : Prop where
  expr : Kept es b scope st.expr
  part : st.target.range.isSome → StandsForWire b scope st.expr
  old : st.target.range.isSome → ∀ y, scope.lookup st.target.name = some y → PlainWire scope y

/-- No part of the statements gives way to 0 where they are elaborated, one after another. -/
inductive KeptBody (es : List Module) (b : Body) : Scope Signal → List Statement → Scope Signal → Prop
  | nil {scope : Scope Signal} : KeptBody es b scope [] scope
  | cons {scope next last : Scope Signal} {st : Statement} {sts : List Statement}
    (hst : KeptStatement es b scope st) (hnext : MayGive (assign b scope st) next)
    (hsts : KeptBody es b next sts last) : KeptBody es b scope (st :: sts) last

theorem ensures_splice (scope : Scope Signal) (name : String) (r : BitRange) (part current : Wire) :
    Ensures (do
      if (current.fit (max current.width (r.hi + 1))).width < r.lo + part.width then
        throw (.fault .spliceOutOfRange)
      return scope.bind name (.wire ((current.fit (max current.width (r.hi + 1))).splice r.lo part)))
      fun next => ∃ x, next = scope.bind name x ∧ x ≠ .blackBox := by
  split
  · exact Ensures.throw_bind
  · exact Ensures.pure ⟨_, rfl, by simp⟩

theorem ensures_assign (hcalls : ∀ c ∈ b.callees, c.Reports)
    (hdefined : ∀ name c, b.callee? name = some c → name ∈ definedFor es b.module) (scope : Scope Signal)
    (st : Statement) : Ensures (assign b scope st) fun next => Intact b.module scope →
      KeptStatement es b scope st ∧ ∃ x, next = scope.bind st.target.name x ∧ x ≠ .blackBox := by
  have hexpr := fun want => (ensures_expr_arguments hcalls hdefined scope).1 want st.expr
  unfold assign
  dsimp only
  cases hrange : st.target.range with
  | none =>
    refine (hexpr _).bind fun x _ => Ensures.pure fun hkept h => ⟨⟨(hkept h).1, ?_, ?_⟩, x, rfl, (hkept h).2⟩
    · rw [hrange]; nofun
    · rw [hrange]; nofun
  | some r =>
    refine (hexpr _).bind fun x hx => (ensures_fitted x r.width).bind fun part _ => ?_
    cases hold : scope.lookup st.target.name with
    | none =>
      refine (ensures_splice scope st.target.name r part _).imp fun next hnext hplain hkept h => ⟨?_, hnext⟩
      exact ⟨(hkept h).1, fun _ => ⟨_, x, hx, hplain⟩, fun _ y hy => by rw [hold] at hy; cases hy⟩
    | some y =>
      refine (ensures_materialize y _).bind fun current _ => ?_
      refine (ensures_splice scope st.target.name r part current).imp fun next hnext hy hplain hkept h =>
        ⟨?_, hnext⟩
      exact ⟨(hkept h).1, fun _ => ⟨_, x, hx, hplain⟩, fun _ y' hy' => by rw [hold] at hy'; cases hy'; exact hy⟩

theorem ensures_assignAll (hcalls : ∀ c ∈ b.callees, c.Reports)
    (hdefined : ∀ name c, b.callee? name = some c → name ∈ definedFor es b.module) (sts : List Statement)
    (hassigned : ∀ st ∈ sts, b.module.assigns st.target.name) : ∀ scope,
    Ensures (assignAll b scope sts) fun last => Intact b.module scope →
      KeptBody es b scope sts last ∧ Intact b.module last := by
  induction sts with
  | nil => exact fun scope => Ensures.pure fun h => ⟨.nil, h⟩
  | cons st sts ih =>
    intro scope
    obtain ⟨hhere, hrest⟩ := List.forall_mem_cons.1 hassigned
    refine (ensures_assign hcalls hdefined scope st).bind fun next hnext => ?_
    refine (ih hrest next).imp fun last hlast hkept h => ?_
    obtain ⟨hst, x, rfl, hx⟩ := hkept h
    obtain ⟨hbody, hintact⟩ := hlast (h.bind hhere hx)
    exact ⟨.cons hst hnext hbody, hintact⟩

/-! ## The end of a body -/

theorem ensures_outputs (scope : Scope Signal) (ps : List Port) :
    Ensures (outputs b scope ps) fun _ => ∀ p ∈ ps, ∃ x, scope.lookup p.name = some x ∧ PlainWire scope x := by
  induction ps with
  | nil => exact Ensures.pure nofun
  | cons p ps ih =>
    rw [outputs_cons]
    refine Ensures.bind (P := fun _ => ∃ x, scope.lookup p.name = some x ∧ PlainWire scope x) ?_ fun w _ =>
      ih.bind fun ws _ => Ensures.pure fun hps hp => List.forall_mem_cons.2 ⟨hp, hps⟩
    unfold outputWire
    cases hx : scope.lookup p.name with
    | none => exact Ensures.warned rfl (Ensures.pure trivial)
    | some x => exact (ensures_fitted x p.width).imp fun _ hplain => ⟨x, rfl, hplain⟩

theorem ensures_locals (scope : Scope Signal) (xs : List (String × Signal)) :
    Ensures (locals b scope xs) fun _ => True := by
  induction xs with
  | nil => exact Ensures.pure trivial
  | cons e xs ih =>
    rw [locals_cons]
    refine Ensures.bind (P := fun _ => True) ?_ fun _ _ => ih.bind fun _ _ => Ensures.pure fun _ _ => trivial
    have hsingle : ∀ y : Signal, Ensures (do pure [(e.1, ← materialize b scope y none)]) fun _ => True :=
      fun y => (ensures_materialize y none).bind fun _ _ => Ensures.pure fun _ => trivial
    unfold wiresOf
    cases follow scope e.2 with
    | bundle fields =>
      match fields with
      | [] | [(_, _)] | _ :: _ :: _ => exact Ensures.pure trivial
    | _ => exact hsingle _

theorem ensures_noteSelfDefined (module : String) (slots : List (ForwardSlot × Option Bit)) :
    Ensures (noteSelfDefined module slots) fun _ => ∀ e ∈ slots, e.2.isSome := by
  induction slots with
  | nil => exact Ensures.pure nofun
  | cons e slots ih =>
    obtain ⟨slot, _ | bit⟩ := e
    · exact Ensures.warned rfl (ih.imp fun _ _ => trivial)
    · exact ih.imp fun _ h => List.forall_mem_cons.2 ⟨rfl, h⟩

/-- Every slot that is open at the state gives way to a bit at the end of its chain. -/
def ChainsEnd (scope : Scope Signal) (s : State) : Prop :=
  ∀ e ∈ (s.slots.zip (chaseAll s.slotBase (s.slots.map (finalBit scope)))).toList, e.2.isSome

theorem ensures_resolveForwards (scope : Scope Signal) (inst : Instance) {s s' : State} {i : Instance}
    (h : Gives (resolveForwards b scope inst) s i s') :
    s.log <:+ s'.log ∧ (Silent s'.log → ChainsEnd scope s) := by
  obtain ⟨a, t, hget, hrest⟩ := gives_bind.1 h
  obtain ⟨rfl, rfl⟩ := gives_get.1 hget
  dsimp only at hrest
  split at hrest
  · refine Ensures.bind (Q := fun _ => ChainsEnd scope t) (ensures_noteSelfDefined _ _) (fun _ _ => ?_)
      _ _ _ hrest
    refine Ensures.bind (P := fun _ => True) ?_ fun _ _ => Ensures.pure fun _ => id
    exact ensures_modify fun _ => rfl
  · exact Ensures.throw_bind (P := fun _ => ChainsEnd scope t) _ _ _ hrest

theorem ensures_innerBody (hcalls : ∀ c ∈ b.callees, c.Reports)
    (hdefined : ∀ name c, b.callee? name = some c → name ∈ definedFor es b.module) (args : List Wire) :
    Ensures (innerBody b args) fun _ => True := by
  have hassigned : ∀ st ∈ b.module.statements, b.module.assigns st.target.name := fun st hst =>
    List.any_eq_true.2 ⟨st, hst, decide_eq_true rfl⟩
  refine (ensures_assignAll hcalls hdefined _ hassigned _).bind fun scope _ => ?_
  refine (ensures_outputs scope _).bind fun outs _ => ?_
  exact fun s i s' h => ⟨(ensures_resolveForwards scope _ h).1, fun _ _ _ => trivial⟩

/-- The body starts with its inputs. -/
theorem intact_start (m : Module) (args : List Wire) : Intact m (argumentScope .empty m.inputs args) := by
  refine ⟨within_argumentScope m m.inputs .empty args (fun _ hp => hp) nofun, ?_⟩
  have hwires : ∀ (ps : List Port) (scope : Scope Signal) (ws : List Wire),
      (∀ e ∈ scope.newestFirst, e.2 ≠ .blackBox) →
        ∀ e ∈ (argumentScope scope ps ws).newestFirst, e.2 ≠ .blackBox := by
    intro ps
    induction ps with
    | nil => exact fun _ _ h => h
    | cons p ps ih =>
      intro scope ws h
      cases ws with
      | nil => exact h
      | cons w ws => exact ih _ ws (List.forall_mem_cons.2 ⟨by simp, h⟩)
  exact hwires m.inputs .empty args nofun

/-- What the outermost body of a module keeps: its statements, and its outputs, which are all assigned. -/
theorem ensures_openBody (hcalls : ∀ c ∈ b.callees, c.Reports)
    (hdefined : ∀ name c, b.callee? name = some c → name ∈ definedFor es b.module) (args : List Wire) :
    Ensures (openBody b args) fun r =>
      KeptBody es b (argumentScope .empty b.module.inputs args) b.module.statements r.1 ∧ Intact b.module r.1 ∧
        ∀ p ∈ b.module.outputs, ∃ x, r.1.lookup p.name = some x ∧ PlainWire r.1 x := by
  have hassigned : ∀ st ∈ b.module.statements, b.module.assigns st.target.name := fun st hst =>
    List.any_eq_true.2 ⟨st, hst, decide_eq_true rfl⟩
  refine (ensures_assignAll hcalls hdefined _ hassigned _).bind fun scope _ => ?_
  refine (ensures_outputs scope _).bind fun outs _ => (ensures_locals scope _).bind fun locs _ => ?_
  refine Ensures.pure fun _ houts hbody => ?_
  obtain ⟨hkept, hintact⟩ := hbody (intact_start b.module args)
  exact ⟨hkept, hintact, houts⟩

end Bodies

/-! ## Modules -/

section Modules

variable {es ms : List Module} {m : Module} {first : Nat}

theorem ensures_enclosed {α : Type} {x : Build α} (h : Ensures x fun _ => True) :
    Ensures (enclosed x) fun _ => True := by
  unfold enclosed
  refine Ensures.bind (P := fun _ => True) (ensures_modifyGet (fun _ => rfl) fun _ => trivial) fun _ _ => ?_
  refine h.bind fun _ _ => Ensures.bind (P := fun _ => True) ?_ fun _ _ => Ensures.pure fun _ _ _ => trivial
  exact ensures_modify fun _ => rfl

theorem reports_recursive (m : Module) : (Callee.recursive m).Reports := fun _ _ => Ensures.throw

theorem reports_visibleFrom (hcalls : ∀ c ∈ calleesOf es, c.Reports) (m : Module) :
    ∀ c ∈ visibleFrom (calleesOf es) m, c.Reports :=
  List.forall_mem_cons.2 ⟨reports_recursive m, hcalls⟩

theorem ensures_instantiate (hcalls : ∀ c ∈ calleesOf es, c.Reports) (m : Module) (outer : List String)
    (args : List Wire) : Ensures (instantiate (visibleFrom (calleesOf es) m) m outer args) fun _ => True := by
  have hvisible := reports_visibleFrom hcalls m
  cases outer with
  | nil =>
    rw [instantiate_nil, outerBody_eq]
    refine (ensures_note _).bind fun _ _ => (ensures_enclosed ?_).imp fun _ _ _ => trivial
    refine (ensures_openBody hvisible (fun _ _ => definedFor_of_callee?) args).bind fun r _ => ?_
    exact fun s i s' h => ⟨(ensures_resolveForwards r.1 r.2 h).1, fun _ _ => trivial⟩
  | cons c outer =>
    rw [instantiate_cons]
    refine (ensures_note _).bind fun _ _ => (ensures_enclosed ?_).imp fun _ _ _ => trivial
    exact ensures_innerBody hvisible (fun name c => definedFor_of_callee?) args

/-- Instances only add reports, at any depth. -/
theorem reports_calleesOf (es : List Module) : ∀ c ∈ calleesOf es, c.Reports := by
  induction es with
  | nil => exact nofun
  | cons m es ih =>
    refine List.forall_mem_cons.2 ⟨fun chain args => ?_, ih⟩
    exact (ensures_instantiate ih m chain args).bind fun _ _ => Ensures.pure fun _ => trivial

/-- The outermost body of the module `m`, behind the modules `es`. -/
def bodyOf (es : List Module) (m : Module) : Body := ⟨m, [m.name], visibleFrom (calleesOf es) m⟩

/-- **Nothing in the body of a module gives way to 0**, early reads apart. From its inputs on, no part of a
statement does; every output is assigned, and none is an instance with several outputs or none; and of the
slots that are open at the end of the body, each leads to a bit. -/
structure KeptModule (es : List Module) (m : Module) (scope : Scope Signal) : Prop where
  statements : KeptBody es (bodyOf es m) (argumentScope .empty m.inputs (inputWires 0 m.inputs))
    m.statements scope
  outputs : ∀ p ∈ m.outputs, m.assigns p.name ∧ ∃ x, scope.lookup p.name = some x ∧ PlainWire scope x
  chains : ∃ s inst s', Gives (openBody (bodyOf es m) (inputWires 0 m.inputs)) s (scope, inst) s' ∧
    ChainsEnd scope s'

/-- A module that is elaborated without a warning keeps everything. -/
theorem kept_of_netlist (hports : (m.ports.map Port.name).Nodup) {s s' : State} {n : Netlist}
    (h : Gives (netlist (calleesOf es) m) s n s') (hs : Silent s'.log) : ∃ scope, KeptModule es m scope := by
  obtain ⟨inst, hinst, -⟩ := gives_netlist h
  rw [instantiate_nil, outerBody_eq] at hinst
  obtain ⟨_, s₁, -, hinst⟩ := gives_bind.1 hinst
  obtain ⟨t, hbody, hleave⟩ := gives_enclosed.1 hinst
  obtain ⟨⟨scope, open'⟩, u, hopen, hresolve⟩ := gives_bind.1 hbody
  have hlog : Silent t.log := by
    rw [hleave] at hs
    exact hs
  obtain ⟨hle, hchains⟩ := ensures_resolveForwards scope open' hresolve
  obtain ⟨hkept, hintact, houts⟩ := (ensures_openBody (reports_visibleFrom (reports_calleesOf es) m)
    (fun name c => definedFor_of_callee?) (inputWires 0 m.inputs) _ _ _ hopen).2 (hlog.of_suffix hle)
  refine ⟨scope, hkept, fun p hp => ?_, s₁.inner, open', u, hopen, hchains hlog⟩
  obtain ⟨x, hx, hplain⟩ := houts p hp
  refine ⟨(hintact.lookup hx).1.resolve_left fun hin => ?_, x, hx, hplain⟩
  -- an output is no input, so it is assigned
  rw [Module.ports, List.map_append] at hports
  exact (List.nodup_append.1 hports).2.2 p.name hin p.name (List.mem_map_of_mem hp) rfl

theorem silent_append {log rest : List Event} : Silent (log ++ rest) ↔ Silent log ∧ Silent rest :=
  List.forall_mem_append

/-- Every module of a design that is elaborated without a warning keeps everything. -/
theorem kept_of_compileFrom (ms : List Module) : ∀ {es : List Module} {first : Nat} {ns : List Netlist},
    (∀ m ∈ ms, (m.ports.map Port.name).Nodup) → (compileFrom (calleesOf es) first ms).result = .ok ns →
    Silent (compileFrom (calleesOf es) first ms).log → ∀ before m after, ms = before ++ m :: after →
      ∃ scope, KeptModule (before.reverse ++ es) m scope := by
  induction ms with
  | nil =>
    intro es first ns _ _ _ before m after h
    exact absurd h (by simp)
  | cons d ms ih =>
    intro es first ns hports h hs before m after hms
    obtain ⟨hd, hrest⟩ := List.forall_mem_cons.1 hports
    obtain ⟨n, s, rest, hn, hok, rfl⟩ := compileFrom_cons h
    have hrun : (netlist (calleesOf es) d).run (State.initial first) = (.ok n, s) := hn
    rw [compileFrom, hrun] at hs
    obtain ⟨hhere, hlater⟩ := silent_append.1 hs
    cases before with
    | nil =>
      obtain ⟨rfl, -⟩ := List.cons.inj hms
      exact kept_of_netlist hd hn fun e he => hhere e (List.mem_reverse.2 he)
    | cons d' before =>
      obtain ⟨rfl, hms'⟩ := List.cons.inj hms
      rw [List.reverse_cons, List.append_assoc, List.singleton_append]
      exact @ih (d :: es) _ _ hrest hok (fun e he => hlater e (List.mem_cons_of_mem _ he)) before m after hms'

end Modules

end Elaboration

open Elaboration

namespace Ledger

/-- **A design that compiles without a warning keeps everything**, early reads apart. In every module, names
that are read are inputs or assigned; calls name a primitive or a module up to the calling one; fields are
outputs of the instances they are taken from; ranges lie within what they are taken from, unless that is a
number or a name read early; no instance with several outputs or none is used as a wire where it is read
directly; no chain of slots is without an end; and every output is assigned. -/
theorem compile_silent {l : Ledger} {ms : List Module} {lib : Library} (h : (l.compile ms).result = .ok lib)
    (hs : Silent (l.compile ms).log) (before : List Module) (m : Module) (after : List Module)
    (hms : ms = before ++ m :: after) : ∃ scope, KeptModule before.reverse m scope := by
  have hcheck := check_of_compile h
  have hfrom := compileFrom_of_compile h
  rw [compile_of_ok hcheck] at hs
  have hports := fun d hd => ((checkDesign_ok hcheck).2 d hd).1
  have hkept := @kept_of_compileFrom ms [] _ _ hports hfrom hs before m after hms
  rwa [List.append_nil] at hkept

theorem latched_silent : Silent (({} : Ledger).compile latched).log := by decide +kernel

/-- In the latch both gates read each other, one of them early. -/
theorem latch_kept : latched = [inverter] ++ latch :: latched.drop 2 ∧
    Silent (({} : Ledger).compile latched).log ∧ ∃ lib scope, (({} : Ledger).compile latched).result = .ok lib ∧
      KeptModule [inverter] latch scope := by
  obtain ⟨lib, -, hlib, -⟩ := latch_copied
  obtain ⟨scope, hscope⟩ := compile_silent hlib latched_silent [inverter] latch (latched.drop 2) rfl
  exact ⟨rfl, latched_silent, lib, scope, hlib, hscope⟩

/-! ## Early reads -/

/-- A bit that is read early, and that the last binding of its name does not have. -/
def readPast : Module :=
  ⟨"m", [⟨"a", 1⟩], [⟨"out", 1⟩],
    [⟨⟨"out", none⟩, .select (.identifier "x") (.bit 3)⟩, ⟨⟨"x", none⟩, .identifier "a"⟩]⟩

/-- An instance with two outputs that is read early, as if it were a wire. -/
def readPair : Module :=
  ⟨"m", [⟨"a", 1⟩], [⟨"out", 1⟩],
    [⟨⟨"out", none⟩, .select (.identifier "h") (.bit 0)⟩, ⟨⟨"h", none⟩, .call "two" [.identifier "a"]⟩]⟩

/-- A name that is defined only as itself. -/
def readSelf : Module :=
  ⟨"m", [⟨"a", 1⟩], [⟨"out", 1⟩],
    [⟨⟨"out", none⟩, .identifier "x"⟩, ⟨⟨"x", none⟩, .identifier "x"⟩]⟩

/-- A module with two outputs. -/
def pair : Module :=
  ⟨"two", [⟨"a", 1⟩], [⟨"y", 1⟩, ⟨"z", 1⟩],
    [⟨⟨"y", none⟩, .identifier "a"⟩, ⟨⟨"z", none⟩, .identifier "a"⟩]⟩

/-- Behind `pair`, the module compiles without a warning, and its output `out` is 0. -/
def SilentlyZero (m : Module) : Prop :=
  ∃ lib n, (({} : Ledger).compile [pair, m]).result = .ok lib ∧ Silent (({} : Ledger).compile [pair, m]).log ∧
    lib.main? = some n ∧ n.output? "out" = some (.zeros 1)

theorem silentlyZero_of_output {m : Module} (hs : Silent (({} : Ledger).compile [pair, m]).log)
    (hout : ((({} : Ledger).compile [pair, m]).result.toOption.bind fun lib =>
      lib.main?.bind fun n => n.output? "out") = some (.zeros 1)) : SilentlyZero m := by
  obtain ⟨lib, hlib, hout⟩ := Option.bind_eq_some_iff.1 hout
  obtain ⟨n, hn, hout⟩ := Option.bind_eq_some_iff.1 hout
  refine ⟨lib, n, ?_, hs, hn, hout⟩
  cases h : (({} : Ledger).compile [pair, m]).result with
  | error e =>
    rw [h] at hlib
    cases hlib
  | ok lib' =>
    rw [h] at hlib
    cases hlib
    rfl

/-- **What an early read does not find is 0, and no warning is given**: a bit past the last binding of the
name, an instance with two outputs, a name that stands for nothing but itself. -/
theorem early_reads_silent : SilentlyZero readPast ∧ SilentlyZero readPair ∧ SilentlyZero readSelf :=
  ⟨silentlyZero_of_output (by decide +kernel) (by decide +kernel),
    silentlyZero_of_output (by decide +kernel) (by decide +kernel),
    silentlyZero_of_output (by decide +kernel) (by decide +kernel)⟩

end Ledger

end NandHdl
