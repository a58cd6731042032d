import NandHdl.Proofs.Agreement

/-!
# Black boxes are the number 0

A call of an undefined module and a name that is neither an input nor assigned
stand for 0 of any width, as the number 0 does. One can take the place of the
other anywhere: in an operand, as an argument, below a field or a range, behind
other names. Only warnings tell the difference.

* `Expr.Void`, `Expr.Zeroed`, `ZeroedDesign`: some black boxes of a design replaced by 0.
* `agree_expr`, `agree_assignAll`, `agree_instantiate`, `agree_netlist`: expressions, statements, instances and
  modules agree if what they call does.
* `Ledger.compile_zeroed`: **black boxes are exactly the number 0.**
-/

namespace NandHdl

/-! ## Replacing black boxes -/

namespace Expr

/-- The expression is a black box in the module `m`, behind the modules `es`: a call of what is neither a
primitive nor defined so far, or a name that is neither an input nor assigned. -/
inductive Void (es : List Module) (m : Module) : Expr → Prop
  | call {name : String} {args : List Expr} (hprim : isPrimitive name = false)
    (hname : name ∉ definedFor es m) : Void es m (call name args)
  | identifier {name : String} (hinput : name ∉ m.inputs.map Port.name)
    (hassigned : m.assigns name = false) : Void es m (identifier name)

mutual

/-- The second expression is the first one with some of its black boxes replaced by the number 0, at any
depth. -/
inductive Zeroed (es : List Module) (m : Module) : Expr → Expr → Prop
  | void {e : Expr} (h : Void es m e) : Zeroed es m e (number 0)
  | identifier (name : String) : Zeroed es m (identifier name) (identifier name)
  | number (value : Nat) : Zeroed es m (number value) (number value)
  | call {args args' : List Expr} (name : String) (h : ZeroedAll es m args args') :
    Zeroed es m (call name args) (call name args')
  | member {object object' : Expr} (field : String) (h : Zeroed es m object object') :
    Zeroed es m (member object field) (member object' field)
  | select {object object' : Expr} (range : BitRange) (h : Zeroed es m object object') :
    Zeroed es m (select object range) (select object' range)

@[inherit_doc Zeroed]
inductive ZeroedAll (es : List Module) (m : Module) : List Expr → List Expr → Prop
  | nil : ZeroedAll es m [] []
  | cons {a a' : Expr} {as as' : List Expr} (h : Zeroed es m a a') (hs : ZeroedAll es m as as') :
    ZeroedAll es m (a :: as) (a' :: as')

end

end Expr

/-- Some black boxes of the statement are replaced by 0. -/
structure Statement.Zeroed (es : List Module) (m : Module) (st st' : Statement) : Prop where
  target : st'.target = st.target
  expr : st.expr.Zeroed es m st'.expr

/-- Some black boxes of the module are replaced by 0. The modules before it are `es`. -/
structure Module.Zeroed (es : List Module) (m m' : Module) : Prop where
  name : m'.name = m.name
  inputs : m'.inputs = m.inputs
  outputs : m'.outputs = m.outputs
  statements : List.Forall₂ (Statement.Zeroed es m) m.statements m'.statements

/-- Some black boxes of the modules are replaced by 0. The modules before them are `es`, the last one
first. -/
inductive ZeroedDesign : List Module → List Module → List Module → Prop
  | nil {es : List Module} : ZeroedDesign es [] []
  | cons {es ms ms' : List Module} {m m' : Module} (h : m.Zeroed es m') (hs : ZeroedDesign (m :: es) ms ms') :
    ZeroedDesign es (m :: ms) (m' :: ms')

section Replacing

variable {es : List Module} {m : Module}

theorem Expr.ZeroedAll.length_eq {as as' : List Expr} (h : Expr.ZeroedAll es m as as') :
    as.length = as'.length := by
  induction as generalizing as' with
  | nil => cases h; rfl
  | cons a as ih =>
    cases h with
    | cons _ hs => rw [List.length_cons, List.length_cons, ih hs]

mutual

/-- None of the black boxes has to be replaced. -/
theorem Expr.Zeroed.refl : ∀ e : Expr, Expr.Zeroed es m e e
  | .identifier name => .identifier name
  | .number value => .number value
  | .call name args => .call name (Expr.ZeroedAll.refl args)
  | .member object field => .member field (Expr.Zeroed.refl object)
  | .select object range => .select range (Expr.Zeroed.refl object)

theorem Expr.ZeroedAll.refl : ∀ as : List Expr, Expr.ZeroedAll es m as as
  | [] => .nil
  | a :: as => .cons (Expr.Zeroed.refl a) (Expr.ZeroedAll.refl as)

end

theorem Module.Zeroed.refl (es : List Module) (m : Module) : m.Zeroed es m :=
  ⟨rfl, rfl, rfl, List.forall₂_same.2 fun st _ => ⟨rfl, .refl st.expr⟩⟩

theorem Module.Zeroed.assigns {m' : Module} (h : m.Zeroed es m') (name : String) :
    m.assigns name = m'.assigns name := by
  have hsts := h.statements
  rw [Module.assigns, Module.assigns]
  generalize m.statements = sts, m'.statements = sts' at hsts
  induction hsts with
  | nil => rfl
  | cons hst _ ih => rw [List.any_cons, List.any_cons, ih, hst.target]

end Replacing

namespace Elaboration

/-! ## Expressions -/

namespace Likeness

variable {L : Likeness}

/-- The callees are called alike, and their instances agree. -/
structure Calls (L : Likeness) (c c' : Callee) : Prop where
  name : c.name = c'.name
  inputs : c.inputs = c'.inputs
  instantiate : ∀ chain {args args' : List Wire}, args.map (Wire.map L.bit) = args'.map (Wire.map L.bit) →
    L.Agree L.Named (c.instantiate chain args) (c'.instantiate chain args')

/-- The second body is the first one with some black boxes replaced by 0, and what they call agrees. The
modules before the first one are `es`. -/
structure Bodies (L : Likeness) (es : List Module) (b b' : Body) : Prop where
  module : b.module.Zeroed es b'.module
  chain : b.chain = b'.chain
  callees : List.Forall₂ L.Calls b.callees b'.callees
  undefined : ∀ name, name ∉ definedFor es b.module → b.callee? name = none

section Bodies

variable {es : List Module} {b b' : Body} {scope scope' : Scope Signal} {x y : Signal}

/-- Either both bodies can call the name or none can. -/
theorem Bodies.callee? (hb : L.Bodies es b b') (name : String) :
    Option.Rel L.Calls (b.callee? name) (b'.callee? name) := by
  have hcs := hb.callees
  rw [Body.callee?, Body.callee?]
  generalize b.callees = cs, b'.callees = cs' at hcs
  induction hcs with
  | nil => exact .none
  | @cons c c' cs cs' hc _ ih =>
    rw [List.find?_cons, List.find?_cons, hc.name]
    split
    · exact .some hc
    · exact ih

theorem agree_nameSignal (hb : L.Bodies es b b') (hscope : L.Scopes scope scope') (name : String) :
    L.Agree L.Signals (nameSignal b scope name) (nameSignal b' scope' name) := by
  unfold nameSignal
  rw [← hb.module.assigns]
  rcases hscope.lookup name with ⟨hx, hy⟩ | ⟨x, y, hx, hy, hxy⟩
  · simp only [hx, hy]
    split
    · exact Agree.pure rfl
    · exact agree_blackBox.warn rfl rfl
  · simp only [hx, hy]
    exact Agree.pure hxy

/-- **A black box is the number 0.** -/
theorem agree_void (hb : L.Bodies es b b') (hbound : scope.Within b.module) {e : Expr}
    (h : e.Void es b.module) (want : Option Nat) :
    L.Agree L.Signals (expr b scope want e) (expr b' scope' want (.number 0)) := by
  have hbox : L.Agree L.Signals (pure .blackBox) (pure (.literal 0)) := Agree.pure rfl
  rw [expr.eq_2]
  cases h with
  | @call name args hprim hname =>
    rw [expr_undefined hprim (hb.undefined name hname)]
    exact hbox.warn_left rfl
  | @identifier name hinput hassigned =>
    have hlookup : scope.lookup name = none := by
      cases hx : scope.lookup name with
      | none => rfl
      | some x =>
        rcases hbound _ (Scope.mem_of_lookup hx) with hin | has
        · exact absurd hin hinput
        · rw [hassigned] at has
          cases has
    simp only [expr, nameSignal, hlookup, hassigned, Bool.false_eq_true, if_false]
    exact hbox.warn_left rfl

/-- Wires for the arguments of a call, alike in both bodies. -/
def Arguments (L : Likeness) (ws ws' : List Wire) : Prop := ws.map (Wire.map L.bit) = ws'.map (Wire.map L.bit)

/-- Expressions and argument lists with black boxes replaced by 0. -/
theorem agree_expr_arguments (hb : L.Bodies es b b') (hscope : L.Scopes scope scope')
    (hbound : scope.Within b.module) :
    (∀ want e, ∀ e', e.Zeroed es b.module e' →
      L.Agree L.Signals (expr b scope want e) (expr b' scope' want e')) ∧
    ∀ ps as, ∀ as', Expr.ZeroedAll es b.module as as' →
      L.Agree L.Arguments (arguments b scope ps as) (arguments b' scope' ps as') := by
  have hnot : ∀ {args args' : List Expr}, (∀ x y, args ≠ [x, y]) → Expr.ZeroedAll es b.module args args' →
      ∀ x y, args' ≠ [x, y] := by
    intro args args' hargs h x y heq
    have hlength := h.length_eq
    rw [heq] at hlength
    obtain ⟨v, w, hvw⟩ := List.length_eq_two.1 hlength
    exact hargs v w hvw
  -- the induction is on expressions and argument lists at once, one case for each equation
  apply expr.mutual_induct b
  case case1 =>
    intro want name e' h
    cases h with
    | void h => exact agree_void hb hbound h want
    | identifier =>
      rw [expr, expr]
      exact agree_nameSignal hb hscope name
  case case2 =>
    intro want value e' h
    cases h with
    | void h => exact agree_void hb hbound h want
    | number =>
      rw [expr, expr]
      exact Agree.pure rfl
  case case3 =>
    intro want x y hx hy e' h
    cases h with
    | void h => exact agree_void hb hbound h want
    | call _ h =>
      cases h with
      | cons hxx h =>
        cases h with
        | cons hyy h =>
          cases h
          rw [expr, expr]
          exact (hx _ hxx).bind fun v v' hv => (hy _ hyy).bind fun w w' hw => agree_nand hscope hv hw want
  case case4 =>
    intro want args hargs e' h
    cases h with
    | void h => exact agree_void hb hbound h want
    | @call _ args' _ h =>
      rw [expr.eq_4 b scope want args hargs, expr.eq_4 b' scope' want args' (hnot hargs h), h.length_eq]
      exact Agree.throw _
  case case5 =>
    intro want d clk hd hclk e' h
    cases h with
    | void h => exact agree_void hb hbound h want
    | call _ h =>
      cases h with
      | cons hdd h =>
        cases h with
        | cons hcc h =>
          cases h
          rw [expr, expr]
          exact (hd _ hdd).bind fun v v' hv => (hclk _ hcc).bind fun w w' hw => agree_dff hscope hv hw want
  case case6 =>
    intro want args hargs e' h
    cases h with
    | void h => exact agree_void hb hbound h want
    | @call _ args' _ h =>
      rw [expr.eq_6 b scope want args hargs, expr.eq_6 b' scope' want args' (hnot hargs h), h.length_eq]
      exact Agree.throw _
  case case7 =>
    intro want name args hnand hdff hnone e' h
    cases h with
    | void h => exact agree_void hb hbound h want
    | @call _ args' _ h =>
      have hcallee := hb.callee? name
      rw [hnone] at hcallee
      rw [expr.eq_7 b scope want name args hnand hdff, expr.eq_7 b' scope' want name args' hnand hdff, hnone]
      cases hnone' : b'.callee? name with
      | none => exact agree_blackBox.warn rfl rfl
      | some _ => rw [hnone'] at hcallee; cases hcallee
  case case8 =>
    intro want name args hnand hdff callee hsome ih e' h
    cases h with
    | void h => exact agree_void hb hbound h want
    | @call _ args' _ h =>
      have hcallee := hb.callee? name
      rw [hsome] at hcallee
      rw [expr.eq_7 b scope want name args hnand hdff, expr.eq_7 b' scope' want name args' hnand hdff, hsome]
      cases hsome' : b'.callee? name with
      | none => rw [hsome'] at hcallee; cases hcallee
      | some callee' =>
        rw [hsome'] at hcallee
        cases hcallee with
        | some hcalls =>
          simp only
          rw [← hcalls.inputs, ← hb.chain, h.length_eq]
          refine (agree_checkArity _ _ _).bind fun _ _ _ => (ih _ h).bind fun ws ws' hws => ?_
          exact (hcalls.instantiate b.chain hws).bind fun outs outs' houts =>
            Agree.pure (congrArg Signal.bundle houts)
  case case9 =>
    intro want object name ih e' h
    cases h with
    | void h => exact agree_void hb hbound h want
    | @member _ object' _ h =>
      rw [expr, expr]
      exact (ih _ h).bind fun x x' hx => agree_field hscope hx object object' name
  case case10 =>
    intro want object r ih e' h
    cases h with
    | void h => exact agree_void hb hbound h want
    | select _ h =>
      rw [expr, expr]
      exact (ih _ h).bind fun x x' hx => (agree_project hscope hx r).bind fun w w' hw =>
        Agree.pure (signals_wire hw)
  case case11 =>
    intro p ps a as ha has as' h
    cases h with
    | cons haa hs =>
      rw [arguments, arguments]
      refine (ha _ haa).bind fun x x' hx => (agree_fitted hscope hx p.width).bind fun w w' hw => ?_
      exact (has _ hs).bind fun ws ws' hws => Agree.pure (List.cons_eq_cons.2 ⟨hw, hws⟩)
  case case12 =>
    intro as ps hne as' h
    have hne' : ∀ p rest a as, ps = p :: rest → as' = a :: as → False := by
      intro p rest a as'' hps has
      subst has
      cases h with
      | cons _ _ => exact hne _ _ _ _ hps rfl
    rw [arguments.eq_2 b scope ps as hne, arguments.eq_2 b' scope' ps as' hne']
    exact Agree.pure rfl

theorem agree_expr (hb : L.Bodies es b b') (hscope : L.Scopes scope scope') (hbound : scope.Within b.module)
    {e e' : Expr} (h : e.Zeroed es b.module e') (want : Option Nat) :
    L.Agree L.Signals (expr b scope want e) (expr b' scope' want e') :=
  (agree_expr_arguments hb hscope hbound).1 want e e' h

/-! ## Statements -/

/-- The names stand for what is alike in both scopes, and only those that the module knows are bound. -/
def ScopesOf (L : Likeness) (m : Module) (scope scope' : Scope Signal) : Prop :=
  L.Scopes scope scope' ∧ scope.Within m

theorem agree_splice {m : Module} (hscopes : L.ScopesOf m scope scope') {name : String}
    (hname : m.assigns name) (r : BitRange) {part part' current current' : Wire} (hpart : L.Wires part part')
    (hcurrent : L.Wires current current') :
    L.Agree (L.ScopesOf m) (do
      if (current.fit (max current.width (r.hi + 1))).width < r.lo + part.width then
        throw (.fault .spliceOutOfRange)
      return scope.bind name (.wire ((current.fit (max current.width (r.hi + 1))).splice r.lo part))) (do
      if (current'.fit (max current'.width (r.hi + 1))).width < r.lo + part'.width then
        throw (.fault .spliceOutOfRange)
      return scope'.bind name (.wire ((current'.fit (max current'.width (r.hi + 1))).splice r.lo part'))) := by
  have hfit := hcurrent.fit (max current'.width (r.hi + 1))
  rw [hcurrent.width_eq, hpart.width_eq, hfit.width_eq]
  split
  · exact Agree.throw_bind _
  · refine Agree.pure ⟨hscopes.1.bind (signals_wire ?_) name, hscopes.2.bind hname _⟩
    rw [Wires, Wire.map_splice (f := L.bit) rfl, Wire.map_splice (f := L.bit) rfl, hfit, hpart]

theorem agree_assign (hb : L.Bodies es b b') (hscopes : L.ScopesOf b.module scope scope') {st st' : Statement}
    (hst : st.Zeroed es b.module st') (hassigned : b.module.assigns st.target.name) :
    L.Agree (L.ScopesOf b.module) (assign b scope st) (assign b' scope' st') := by
  obtain ⟨hscope, hbound⟩ := hscopes
  have houtput : ∀ name, b'.module.output? name = b.module.output? name := fun name => by
    rw [Module.output?, Module.output?, hb.module.outputs]
  unfold assign
  dsimp only
  rw [hst.target, houtput]
  cases st.target.range with
  | none =>
    exact (agree_expr hb hscope hbound hst.expr _).bind fun x y hxy =>
      Agree.pure ⟨hscope.bind hxy _, hbound.bind hassigned _⟩
  | some r =>
    refine (agree_expr hb hscope hbound hst.expr _).bind fun x y hxy => ?_
    refine (agree_fitted hscope hxy r.width).bind fun part part' hpart => ?_
    rcases hscope.lookup st.target.name with ⟨hx, hy⟩ | ⟨old, old', hx, hy, hsame⟩
    · simp only [hx, hy, pure_bind]
      exact agree_splice ⟨hscope, hbound⟩ hassigned r hpart rfl
    · simp only [hx, hy]
      exact (agree_materialize hscope hsame _).bind fun current current' hcurrent =>
        agree_splice ⟨hscope, hbound⟩ hassigned r hpart hcurrent

theorem agree_assignAll (hb : L.Bodies es b b') {sts sts' : List Statement}
    (hsts : List.Forall₂ (Statement.Zeroed es b.module) sts sts')
    (hassigned : ∀ st ∈ sts, b.module.assigns st.target.name) :
    ∀ scope scope', L.ScopesOf b.module scope scope' →
      L.Agree (L.ScopesOf b.module) (assignAll b scope sts) (assignAll b' scope' sts') := by
  induction hsts with
  | nil => exact fun scope scope' hscopes => Agree.pure hscopes
  | @cons st st' sts sts' hst _ ih =>
    intro scope scope' hscopes
    obtain ⟨hhere, hrest⟩ := List.forall_mem_cons.1 hassigned
    exact (agree_assign hb hscopes hst hhere).bind fun next next' hnext => ih hrest next next' hnext

/-! ## The end of a body -/

theorem named_cons {name : String} {w w' : Wire} {ws ws' : List (String × Wire)} (hw : L.Wires w w')
    (hws : L.Named ws ws') : L.Named ((name, w) :: ws) ((name, w') :: ws') :=
  List.cons_eq_cons.2 ⟨congrArg (Prod.mk name) hw, hws⟩

theorem Named.append {vs vs' ws ws' : List (String × Wire)} (hv : L.Named vs vs') (hw : L.Named ws ws') :
    L.Named (vs ++ ws) (vs' ++ ws') := by
  rw [Named, List.map_append, List.map_append, hv, hw]

theorem agree_outputWire (hscope : L.Scopes scope scope') (p : Port) :
    L.Agree L.Wires (outputWire b scope p) (outputWire b' scope' p) := by
  unfold outputWire
  rcases hscope.lookup p.name with ⟨hx, hy⟩ | ⟨x, y, hx, hy, hxy⟩
  · simp only [hx, hy]
    exact (agree_zeros _).warn rfl rfl
  · simp only [hx, hy]
    exact agree_fitted hscope hxy p.width

theorem agree_outputs (hscope : L.Scopes scope scope') (ps : List Port) :
    L.Agree L.Named (outputs b scope ps) (outputs b' scope' ps) := by
  induction ps with
  | nil => exact Agree.pure rfl
  | cons p ps ih =>
    rw [outputs_cons, outputs_cons]
    exact (agree_outputWire hscope p).bind fun w w' hw => ih.bind fun ws ws' hws =>
      Agree.pure (named_cons hw hws)

theorem agree_wiresOf (hscope : L.Scopes scope scope') (name : String) (h : L.Signals x y) :
    L.Agree L.Named (wiresOf b scope name x) (wiresOf b' scope' name y) := by
  have hsingle : ∀ {x y : Signal}, L.Signals x y → L.Agree L.Named
      (do pure [(name, ← materialize b scope x none)]) (do pure [(name, ← materialize b' scope' y none)]) :=
    fun hxy => (agree_materialize hscope hxy none).bind fun w w' hw => Agree.pure (named_cons hw rfl)
  have hprefixed : ∀ {fs fs' : List (String × Wire)}, L.Named fs fs' →
      L.Named (fs.map fun f => (name ++ "." ++ f.1, f.2)) (fs'.map fun f => (name ++ "." ++ f.1, f.2)) := by
    intro fs fs' hfs
    have hmap : ∀ gs : List (String × Wire),
        ((gs.map fun f => (name ++ "." ++ f.1, f.2)).map fun f => (f.1, f.2.map L.bit)) =
          (gs.map fun f => (f.1, f.2.map L.bit)).map fun f => (name ++ "." ++ f.1, f.2) := fun gs => by
      rw [List.map_map, List.map_map]
      rfl
    rw [Named, hmap, hmap, hfs]
  have hsame := h.follow hscope
  have hlike := hsame.like
  unfold wiresOf
  generalize follow scope x = u, follow scope' y = v at hsame hlike
  cases hlike with
  | bundle hfields =>
    obtain ⟨rfl, rfl⟩ | ⟨f, v, g, w, rfl, rfl, hw⟩ | ⟨_, _, _, _, _, _, rfl, rfl⟩ := hfields.none_or_one_or_more
    · exact Agree.pure rfl
    · exact Agree.pure (named_cons hw rfl)
    · exact Agree.pure (hprefixed hfields)
  | _ => exact hsingle hsame

theorem agree_locals (hscope : L.Scopes scope scope') {xs ys : List (String × Signal)}
    (h : (xs.map fun e => (e.1, L.plain e.2)) = ys.map fun e => (e.1, L.plain e.2)) :
    L.Agree L.Named (locals b scope xs) (locals b' scope' ys) := by
  induction xs generalizing ys with
  | nil =>
    rw [List.map_nil, List.nil_eq, List.map_eq_nil_iff] at h
    rw [h]
    exact Agree.pure rfl
  | cons e xs ih =>
    cases ys with
    | nil => cases h
    | cons d ys =>
      rw [List.map_cons, List.map_cons, List.cons.injEq, Prod.mk.injEq] at h
      obtain ⟨⟨hname, hsame⟩, hrest⟩ := h
      rw [locals_cons, locals_cons, hname]
      exact (agree_wiresOf hscope d.1 hsame).bind fun ws ws' hws => (ih hrest).bind fun rest rest' hr =>
        Agree.pure (hws.append hr)

/-- The instances are alike. -/
structure Instances (L : Likeness) (i i' : Instance) : Prop where
  outputs : L.Named i.outputs i'.outputs
  locals : L.Named i.locals i'.locals

/-- Only warnings are made of slots without an end. -/
theorem agree_noteSelfDefined (module module' : String) (slots slots' : List (ForwardSlot × Option Bit)) :
    L.Agree (fun _ _ => True) (noteSelfDefined module slots) (noteSelfDefined module' slots') := by
  induction slots with
  | nil =>
    induction slots' with
    | nil => exact Agree.pure trivial
    | cons e slots' ih =>
      obtain ⟨slot, _ | bit⟩ := e
      · exact ih.warn_right rfl
      · exact ih
  | cons e slots ih =>
    obtain ⟨slot, _ | bit⟩ := e
    · exact ih.warn_left rfl
    · exact ih

/-- Nodes that are alike read the same slots. -/
theorem all_slotsBelow_of_order {ns ns' : Array Node} (h : L.order (ns.map L.node) (ns'.map L.node))
    (limit : Nat) :
    (ns.all fun n => n.cell.slotsBelow limit) = ns'.all fun n => n.cell.slotsBelow limit := by
  have hall : ∀ ks : Array Node, (ks.all fun n => n.cell.slotsBelow limit) =
      (ks.map L.node).all fun n => n.cell.slotsBelow limit := fun ks => by
    simp only [Array.all_map, Function.comp_def, node, Node.rename, Cell.slotsBelow_rename]
  rw [hall ns, hall ns', Bool.eq_iff_iff, Array.all_eq_true', Array.all_eq_true']
  exact forall_congr' fun n => by rw [L.order_mem h n]

/-- Wires that are alike name the same slots. -/
theorem Named.slotsBelow_eq {ws ws' : List (String × Wire)} (h : L.Named ws ws') (limit : Nat) :
    (ws.all fun w => w.2.slotsBelow limit) = ws'.all fun w => w.2.slotsBelow limit := by
  have hall : ∀ vs : List (String × Wire), (vs.all fun w => w.2.slotsBelow limit) =
      (vs.map fun v => (v.1, v.2.map L.bit)).all fun w => w.2.slotsBelow limit := fun vs => by
    simp only [List.all_map, Function.comp_def, bit, Wire.slotsBelow_rename]
  rw [hall ws, hall ws', h]

section Resolve

variable {ends ends' : Array (Option Bit)} (hends : ends.map (Option.map L.bit) = ends'.map (Option.map L.bit))
  (base : Nat)

include hends

theorem Named.resolve {ws ws' : List (String × Wire)} (h : L.Named ws ws') :
    L.Named (ws.map fun w => (w.1, w.2.map (Bit.resolve base ends)))
      (ws'.map fun w => (w.1, w.2.map (Bit.resolve base ends'))) := by
  have hmap : ∀ (vs : List (String × Wire)) (ends : Array (Option Bit)),
      ((vs.map fun w => (w.1, w.2.map (Bit.resolve base ends))).map fun w => (w.1, w.2.map L.bit)) =
        (vs.map fun w => (w.1, w.2.map L.bit)).map fun w =>
          (w.1, w.2.map (Bit.resolve base (ends.map (Option.map L.bit)))) := by
    intro vs ends
    rw [List.map_map, List.map_map]
    refine List.map_congr_left fun w _ => ?_
    simp only [Function.comp_apply, Wire.map_map, bit, resolve_rename]
  rw [Named, hmap, hmap, h, hends]

theorem order_resolve {ns ns' : Array Node} (h : L.order (ns.map L.node) (ns'.map L.node)) :
    L.order ((ns.map fun n => Node.mk n.id (n.cell.map (Bit.resolve base ends))).map L.node)
      ((ns'.map fun n => Node.mk n.id (n.cell.map (Bit.resolve base ends'))).map L.node) := by
  have hmap : ∀ (ks : Array Node) (ends : Array (Option Bit)),
      (ks.map fun n => Node.mk n.id (n.cell.map (Bit.resolve base ends))).map L.node =
        (ks.map L.node).map fun n =>
          Node.mk n.id (n.cell.map (Bit.resolve base (ends.map (Option.map L.bit)))) := by
    intro ks ends
    rw [Array.map_map, Array.map_map]
    refine Array.map_congr_left fun n _ => ?_
    simp only [Function.comp_apply, node, bit, Node.rename, Cell.map_map, resolve_rename]
  rw [hmap, hmap, hends]
  exact L.order_map _ h

end Resolve

theorem agree_resolveForwards (hscope : L.Scopes scope scope') {i i' : Instance} (hi : L.Instances i i') :
    L.Agree L.Instances (resolveForwards b scope i) (resolveForwards b' scope' i') := by
  refine agree_get.bind fun s t hst => ?_
  have hdirect : (s.slots.map (finalBit scope)).map L.bit = (s.slots.map (finalBit scope')).map L.bit := by
    rw [Array.map_map, Array.map_map]
    exact Array.map_congr_left fun slot _ => finalBit_of_scopes hscope slot
  have hbelow : ∀ limit, (s.slots.map (finalBit scope)).all (·.slotBelow limit) =
      (s.slots.map (finalBit scope')).all (·.slotBelow limit) := by
    intro limit
    have hall : ∀ ds : Array Bit,
        ds.all (·.slotBelow limit) = (ds.map L.bit).all (·.slotBelow limit) := fun ds => by
      simp only [Array.all_map, Function.comp_def, bit, slotBelow_rename]
    rw [hall, hdirect, ← hall]
  -- the check that nothing dangles has the same result
  simp only [← hst.slotBase, ← hst.slots, hbelow, all_slotsBelow_of_order hst.nodes, hi.outputs.slotsBelow_eq,
    hi.locals.slotsBelow_eq]
  have hends : ∀ base, (chaseAll base (s.slots.map (finalBit scope))).map (Option.map L.bit) =
      (chaseAll base (s.slots.map (finalBit scope'))).map (Option.map L.bit) := fun base => by
    rw [bit, ← chaseAll_rename, ← chaseAll_rename]
    exact congrArg (chaseAll base) hdirect
  split
  · refine (agree_noteSelfDefined _ _ _ _).bind fun _ _ _ =>
      (Agree.modify fun s' t' hst' => ?_).bind fun _ _ _ =>
      Agree.pure ⟨hi.outputs.resolve (hends _) _, hi.locals.resolve (hends _) _⟩
    exact ⟨hst'.nextId, order_resolve (hends _) _ hst'.nodes, hst'.slotBase, hst'.slots, hst'.log⟩
  · exact Agree.throw_bind _

end Bodies

theorem agree_enclosed {α β : Type} {R : α → β → Prop} {x : Build α} {y : Build β} (h : L.Agree R x y) :
    L.Agree R (enclosed x) (enclosed y) := by
  unfold enclosed
  have henter : L.Agree (fun o o' => L.order (o.1.map L.node) (o'.1.map L.node) ∧ o.2 = o'.2)
      (modifyGet fun s => ((s.nodes, s.slotBase, s.slots),
        { s with nodes := #[], slotBase := s.slotBase + s.slots.size, slots := #[] }))
      (modifyGet fun s => ((s.nodes, s.slotBase, s.slots),
        { s with nodes := #[], slotBase := s.slotBase + s.slots.size, slots := #[] })) :=
    Agree.modifyGet fun s t hst => by
      refine ⟨⟨hst.nodes, congrArg₂ Prod.mk hst.slotBase hst.slots⟩, hst.nextId, L.order_refl _, ?_, rfl,
        hst.log⟩
      simp only [hst.slotBase, hst.slots]
  refine henter.bind fun o o' ho => h.bind fun a a' ha => ?_
  obtain ⟨nodes, slotBase, slots⟩ := o
  obtain ⟨nodes', slotBase', slots'⟩ := o'
  obtain ⟨hnodes, hslots⟩ := ho
  cases hslots
  refine (Agree.modify fun s t hst => ?_).bind fun _ _ _ => Agree.pure ha
  refine ⟨hst.nextId, ?_, rfl, rfl, hst.log⟩
  rw [Array.map_append, Array.map_append]
  exact L.order_append hnodes hst.nodes

theorem scopes_argumentScope (ps : List Port) : ∀ {scope scope' : Scope Signal} {args args' : List Wire},
    L.Scopes scope scope' → L.Arguments args args' →
      L.Scopes (argumentScope scope ps args) (argumentScope scope' ps args') := by
  induction ps with
  | nil => exact fun hscope _ => hscope
  | cons p ps ih =>
    intro scope scope' args args' hscope hargs
    cases args with
    | nil =>
      cases args' with
      | nil => exact hscope
      | cons w' args' => cases hargs
    | cons w args =>
      cases args' with
      | nil => cases hargs
      | cons w' args' =>
        obtain ⟨hw, hrest⟩ := List.cons_eq_cons.1 hargs
        have hwire : L.Wires w w' := hw
        exact ih (hscope.bind (signals_wire (hwire.fit p.width)) p.name) hrest

/-- **A body keeps its outcome**, at any depth. -/
theorem agree_instantiate {es : List Module} {m m' : Module} (hm : m.Zeroed es m')
    {callees callees' : List Callee}
    (hcallees : List.Forall₂ L.Calls callees callees')
    (hundefined : ∀ name, name ∉ definedFor es m → callees.find? (·.name = name) = none)
    (outer : List String) {args args' : List Wire} (hargs : L.Arguments args args') :
    L.Agree L.Instances (instantiate callees m outer args) (instantiate callees' m' outer args') := by
  have hb : L.Bodies es ⟨m, m.name :: outer, callees⟩ ⟨m', m.name :: outer, callees'⟩ :=
    ⟨hm, rfl, hcallees, hundefined⟩
  have hassigned : ∀ st ∈ m.statements, m.assigns st.target.name := fun st hst =>
    List.any_eq_true.2 ⟨st, hst, decide_eq_true rfl⟩
  unfold instantiate
  rw [hm.name, hm.inputs, hm.outputs]
  refine (agree_note _).bind fun _ _ _ => agree_enclosed ?_
  have hscopes : L.ScopesOf m (argumentScope .empty m.inputs args) (argumentScope .empty m.inputs args') :=
    ⟨scopes_argumentScope m.inputs rfl hargs,
      within_argumentScope m m.inputs .empty args (fun _ hp => hp) nofun⟩
  refine (agree_assignAll hb hm.statements hassigned _ _ hscopes).bind fun scope scope' hscopes => ?_
  refine (agree_outputs hscopes.1 m.outputs).bind fun outs outs' houts => ?_
  split
  · have hlatest : (scope.latest.map fun e => (e.1, L.plain e.2)) =
        scope'.latest.map fun e => (e.1, L.plain e.2) := by
      rw [← Scope.latest_map, ← Scope.latest_map, hscopes.1]
    exact (agree_locals hscopes.1 hlatest).bind fun locs locs' hlocs =>
      agree_resolveForwards hscopes.1 ⟨houts, hlocs⟩
  · exact agree_resolveForwards hscopes.1 ⟨houts, rfl⟩

/-! ## Modules -/

section Modules

variable {es : List Module} {m m' : Module} {callees callees' : List Callee}

theorem calls_recursive (hm : m.Zeroed es m') : L.Calls (Callee.recursive m) (Callee.recursive m') where
  name := hm.name.symm
  inputs := hm.inputs.symm
  instantiate chain _ _ _ := by
    simp only [Callee.recursive, hm.name]
    exact Agree.throw _

theorem names_calleesOf (es : List Module) : (calleesOf es).map (·.name) = es.map (·.name) := by
  induction es with
  | nil => rfl
  | cons m es ih => exact congrArg (m.name :: ·) ih

/-- What the module `m` cannot call behind the modules `es` it does not see behind these callees. -/
theorem undefined_of_names (hnames : callees.map (·.name) = es.map (·.name)) {name : String}
    (h : name ∉ definedFor es m) : (visibleFrom callees m).find? (·.name = name) = none := by
  rw [definedFor, List.mem_cons, not_or] at h
  refine List.find?_eq_none.2 fun c hc hname => ?_
  have hname : c.name = name := of_decide_eq_true hname
  rcases List.mem_cons.1 hc with rfl | hc
  · exact h.1 hname.symm
  · exact h.2 (hname ▸ hnames ▸ List.mem_map_of_mem hc)

theorem calls_ofModule (hm : m.Zeroed es m') (hnames : callees.map (·.name) = es.map (·.name))
    (hcallees : List.Forall₂ L.Calls callees callees') :
    L.Calls (Callee.ofModule callees m) (Callee.ofModule callees' m') where
  name := hm.name.symm
  inputs := hm.inputs.symm
  instantiate chain _ _ hargs :=
    (agree_instantiate hm (.cons (calls_recursive hm) hcallees) (fun _ => undefined_of_names hnames) chain
      hargs).bind fun _ _ hi => Agree.pure hi.outputs

/-- The netlists are alike. -/
structure Netlists (L : Likeness) (n n' : Netlist) : Prop where
  name : n.name = n'.name
  inputs : n.inputs = n'.inputs
  outputs : (n.outputs.map fun o => (o.1, o.2.map L.bit)) = n'.outputs.map fun o => (o.1, o.2.map L.bit)
  nodes : L.order (n.nodes.map L.node) (n'.nodes.map L.node)
  signals : n.signals.map (Wire.map L.bit) = n'.signals.map (Wire.map L.bit)

/-- **The netlists of a module are alike.** -/
theorem agree_netlist (hm : m.Zeroed es m') (hnames : callees.map (·.name) = es.map (·.name))
    (hcallees : List.Forall₂ L.Calls callees callees') :
    L.Agree L.Netlists (netlist callees m) (netlist callees' m') := by
  unfold netlist
  rw [hm.name, hm.inputs, hm.outputs]
  have hinst : L.Agree L.Instances (instantiate (visibleFrom callees m) m [] (inputWires 0 m.inputs))
      (instantiate (visibleFrom callees' m') m' [] (inputWires 0 m.inputs)) :=
    agree_instantiate hm (.cons (calls_recursive hm) hcallees) (fun _ => undefined_of_names hnames) [] rfl
  refine hinst.bind fun i i' hi => agree_get.bind fun s t hst => Agree.pure ⟨rfl, rfl, ?_, hst.nodes, ?_⟩
  · have hsnd : ∀ ws : List (String × Wire), (ws.map Prod.snd).map (Wire.map L.bit) =
        (ws.map fun w => (w.1, w.2.map L.bit)).map Prod.snd := fun ws => by
      rw [List.map_map, List.map_map]
      rfl
    have hzip : ∀ ws : List Wire, ((m.outputs.zip ws).map fun o => (o.1, o.2.map L.bit)) =
        m.outputs.zip (ws.map (Wire.map L.bit)) := fun ws => (List.zip_map_right ..).symm
    rw [hzip, hzip, hsnd, hsnd, hi.outputs]
  · simp only [NameTable.map_insertAll]
    rw [show (i.locals.map fun e => (e.1, e.2.map L.bit)) = _ from hi.locals,
      show (i.outputs.map fun e => (e.1, e.2.map L.bit)) = _ from hi.outputs]

end Modules

end Likeness

/-! ## Warnings apart -/

/-- The reports that are no warnings. -/
def unwarned (log : List Event) : List Event := log.filter fun e => e.level ≠ .warn

theorem unwarned_append (log rest : List Event) : unwarned (log ++ rest) = unwarned log ++ unwarned rest :=
  List.filter_append log rest

theorem unwarned_cons (e : Event) (log : List Event) : unwarned (e :: log) = unwarned [e] ++ unwarned log :=
  unwarned_append [e] log

theorem unwarned_warning {e : Event} (he : e.level = .warn) (log : List Event) :
    unwarned (e :: log) = unwarned log :=
  List.filter_cons_of_neg (by simp [he])

theorem unwarned_reverse {log log' : List Event} (h : unwarned log = unwarned log') :
    unwarned log.reverse = unwarned log'.reverse := by
  rw [unwarned, unwarned, List.filter_reverse, List.filter_reverse]
  exact congrArg List.reverse h

/-- Nothing is alike but what is the same, warnings apart. -/
def Likeness.exact : Likeness where
  ids := fun n => n
  ids_add _ h := by rw [h]
  order := Eq
  order_refl _ := rfl
  order_append h h' := by rw [h, h']
  order_map _ _ _ h := by rw [h]
  order_mem h _ := by rw [h]
  log es es' := unwarned es = unwarned es'
  log_note e es es' h := by rw [unwarned_cons, unwarned_cons e es', h]
  log_left he h := (unwarned_warning he _).trans h
  log_right he h := h.trans (unwarned_warning he _).symm

theorem Likeness.exact_wire (w : Wire) : w.map Likeness.exact.bit = w := w.map_rename_self

theorem Likeness.exact_netlists {n n' : Netlist} (h : Likeness.exact.Netlists n n') : n = n' := by
  have hwires : ∀ {ι : Type} (ws : List (ι × Wire)),
      (ws.map fun w => (w.1, w.2.map Likeness.exact.bit)) = ws := by
    intro ι ws
    simp only [Likeness.exact_wire, List.map_id']
  have hnodes : ∀ ns : Array Node, ns.map Likeness.exact.node = ns := fun ns => by
    have hself : Likeness.exact.node = fun n => n := funext Node.rename_self
    rw [hself, Array.map_id']
  have hsignals : ∀ t : NameTable Wire, t.map (Wire.map Likeness.exact.bit) = t :=
    fun t => NameTable.ext (hwires _)
  have houtputs := ((hwires _).symm.trans h.outputs).trans (hwires _)
  have hnode := ((hnodes _).symm.trans h.nodes).trans (hnodes _)
  have hsignal := ((hsignals _).symm.trans h.signals).trans (hsignals _)
  obtain ⟨_, _, _, _, _⟩ := n
  obtain ⟨_, _, _, _, _⟩ := n'
  exact Netlist.mk.injEq .. ▸ ⟨h.name, h.inputs, houtputs, hnode, hsignal⟩

/-- The outcome without its warnings. -/
def Outcome.unwarned {α : Type} (o : Outcome α) : Outcome α := { o with log := Elaboration.unwarned o.log }

/-- **The rest of a design has the same outcome**, warnings apart. -/
theorem compileFrom_zeroed {es ms ms' : List Module} (h : ZeroedDesign es ms ms') :
    ∀ {callees' : List Callee} (first : Nat), List.Forall₂ Likeness.exact.Calls (calleesOf es) callees' →
      (compileFrom callees' first ms').unwarned = (compileFrom (calleesOf es) first ms).unwarned := by
  induction h with
  | nil => exact fun _ _ => rfl
  | @cons es ms ms' m m' hm _ ih =>
    intro callees' first hcallees
    have hinitial : Likeness.exact.States (State.initial first) (State.initial first) :=
      ⟨rfl, rfl, rfl, rfl, rfl⟩
    have hrun := Likeness.agree_netlist hm (Likeness.names_calleesOf es) hcallees _ _ hinitial
    rw [compileFrom, compileFrom]
    change Likeness.exact.SameOutcome _ ((netlist (calleesOf es) m).run (State.initial first))
      ((netlist callees' m').run (State.initial first)) at hrun
    generalize (netlist (calleesOf es) m).run (State.initial first) = r at hrun ⊢
    generalize (netlist callees' m').run (State.initial first) = r' at hrun ⊢
    cases hrun with
    | error e hst => simp only [Outcome.unwarned, unwarned_reverse hst.log]
    | @ok n n' s t hn hst =>
      obtain rfl := Likeness.exact_netlists hn
      have hnext : s.nextId = t.nextId := hst.nextId
      have hrest := ih s.nextId
        (.cons (Likeness.calls_ofModule hm (Likeness.names_calleesOf es) hcallees) hcallees)
      simp only [hm.name, ← hnext]
      simp only [Outcome.unwarned, Outcome.mk.injEq] at hrest ⊢
      refine ⟨congrArg (Except.map (n :: ·)) hrest.1, hrest.2.1, ?_⟩
      rw [unwarned_append, unwarned_append, unwarned_cons, unwarned_cons _ (compileFrom _ _ ms).log,
        unwarned_reverse hst.log]
      exact congrArg _ (congrArg _ hrest.2.2)

end Elaboration

/-! ## Designs -/

open Elaboration

section Checks

variable {es ms ms' : List Module} {m m' : Module}

mutual

/-- Black boxes mention bit numbers, and the number 0 mentions none. -/
theorem Expr.Zeroed.maxIndex_le {e e' : Expr} : Expr.Zeroed es m e e' → e'.maxIndex ≤ e.maxIndex
  | .void _ => Nat.zero_le _
  | .identifier _ => le_rfl
  | .number _ => le_rfl
  | .call _ h => h.maxIndexList_le
  | .member _ h => h.maxIndex_le
  | .select _ h => max_le_max_right _ h.maxIndex_le

theorem Expr.ZeroedAll.maxIndexList_le {as as' : List Expr} :
    Expr.ZeroedAll es m as as' → Expr.maxIndexList as' ≤ Expr.maxIndexList as
  | .nil => le_rfl
  | .cons h hs => max_le_max h.maxIndex_le hs.maxIndexList_le

end

theorem foldl_max_le {α : Type} {R : α → α → Prop} {f : α → Nat} (hf : ∀ x y, R x y → f y ≤ f x)
    {xs ys : List α} (h : List.Forall₂ R xs ys) :
    ∀ {n k : Nat}, n ≤ k → (ys.map f).foldl max n ≤ (xs.map f).foldl max k := by
  induction h with
  | nil => exact fun hle => hle
  | cons hxy _ ih =>
    intro n k hle
    rw [List.map_cons, List.map_cons, List.foldl_cons, List.foldl_cons]
    exact ih (max_le_max hle (hf _ _ hxy))

theorem Module.Zeroed.maxIndex_le (h : m.Zeroed es m') : m'.maxIndex ≤ m.maxIndex := by
  unfold Module.maxIndex
  rw [Module.ports, Module.ports, h.inputs, h.outputs]
  refine max_le_max_left _ (foldl_max_le (fun st st' hst => ?_) h.statements le_rfl)
  rw [hst.target]
  exact max_le_max_left _ hst.expr.maxIndex_le

/-- The checks before elaboration have the same result. -/
theorem checkModules_zeroed (h : ZeroedDesign es ms ms') (hindex : ∀ m ∈ ms, m.maxIndex ≤ widthLimit) :
    ∀ seen, checkModules seen ms' = checkModules seen ms := by
  induction h with
  | nil => exact fun _ => rfl
  | @cons es ms ms' m m' hm _ ih =>
    intro seen
    obtain ⟨hhere, hrest⟩ := List.forall_mem_cons.1 hindex
    have hmodule : checkModule seen m' = checkModule seen m := by
      rw [checkModule, checkModule, Module.ports, Module.ports, hm.name, hm.inputs, hm.outputs,
        if_neg (Nat.not_lt.2 hhere), if_neg (Nat.not_lt.2 (hm.maxIndex_le.trans hhere))]
    rw [checkModules, checkModules, hmodule, hm.name, ih hrest]

theorem checkDesign_zeroed (h : ZeroedDesign [] ms ms') (hindex : ∀ m ∈ ms, m.maxIndex ≤ widthLimit) :
    checkDesign ms' = checkDesign ms := by
  have hempty : ms'.isEmpty = ms.isEmpty := by cases h <;> rfl
  rw [checkDesign, checkDesign, hempty, checkModules_zeroed h hindex]

end Checks

namespace Ledger

/-- The outcome without its warnings. -/
def Outcome.unwarned (o : Outcome) : Outcome := { o with log := Elaboration.unwarned o.log }

/-- **Black boxes are exactly the number 0.** In a design whose bit numbers are in range, let some calls of
undefined modules, whatever their arguments are, and some names that are neither inputs nor assigned be
replaced by the number 0, at any depth. Then the design compiles to the same netlists or fails with the same
error, and takes the same numbers. Only warnings differ. -/
theorem compile_zeroed (l : Ledger) {ms ms' : List Module} (hindex : ∀ m ∈ ms, m.maxIndex ≤ widthLimit)
    (h : ZeroedDesign [] ms ms') : (l.compile ms').unwarned = (l.compile ms).unwarned := by
  have hcheck := checkDesign_zeroed h hindex
  cases hms : checkDesign ms with
  | error e => rw [compile_of_error hms, compile_of_error (hcheck.trans hms)]
  | ok u =>
    have hfrom := @compileFrom_zeroed [] ms ms' h [] l.nextId .nil
    rw [compile_of_ok hms, compile_of_ok (hcheck.trans hms)]
    simp only [Outcome.unwarned, Elaboration.Outcome.unwarned, Elaboration.Outcome.mk.injEq,
      Outcome.mk.injEq, Ledger.mk.injEq] at hfrom ⊢
    exact ⟨congrArg _ hfrom.1, hfrom.2.1, hfrom.2.2⟩

/-- Black boxes in an operand, below a field and a range, and as what a name is assigned. -/
def boxed : List Module :=
  [⟨"Main", [⟨"a", 2⟩], [⟨"y", 2⟩, ⟨"z", 1⟩],
    [⟨⟨"y", none⟩, .call "nand" [.identifier "a", .call "Ghost" [.call "nand" [], .call "Main" []]]⟩,
      ⟨⟨"z", none⟩, .select (.member (.call "Ghost" []) "q") (.bit 3)⟩,
      ⟨⟨"x", none⟩, .identifier "nowhere"⟩]⟩]

/-- The same with zeros. -/
def zeroed : List Module :=
  [⟨"Main", [⟨"a", 2⟩], [⟨"y", 2⟩, ⟨"z", 1⟩],
    [⟨⟨"y", none⟩, .call "nand" [.identifier "a", .number 0]⟩,
      ⟨⟨"z", none⟩, .select (.member (.number 0) "q") (.bit 3)⟩,
      ⟨⟨"x", none⟩, .number 0⟩]⟩]

theorem boxed_zeroed : ZeroedDesign [] boxed zeroed := by
  have hghost : ∀ args, Expr.Void [] (boxed.head nofun) (.call "Ghost" args) :=
    fun args => .call rfl (by decide)
  refine .cons ⟨rfl, rfl, rfl, .cons ⟨rfl, ?_⟩ (.cons ⟨rfl, ?_⟩ (.cons ⟨rfl, ?_⟩ .nil))⟩ .nil
  · exact .call "nand" (.cons (.identifier "a") (.cons (.void (hghost _)) .nil))
  · exact .select (.bit 3) (.member "q" (.void (hghost _)))
  · exact .void (.identifier (by decide) (by decide))

/-- The black box in the operand has ill-formed arguments, and makes two gates all the same. -/
theorem compile_boxed : (∀ m ∈ boxed, m.maxIndex ≤ widthLimit) ∧ ZeroedDesign [] boxed zeroed ∧
    (({} : Ledger).compile zeroed).unwarned = (({} : Ledger).compile boxed).unwarned ∧
    ((({} : Ledger).compile boxed).result.toOption.map
      fun lib => lib.netlists.map (·.nodes.size)) = some [2] := by
  have hindex : ∀ m ∈ boxed, m.maxIndex ≤ widthLimit := by decide
  exact ⟨hindex, boxed_zeroed, compile_zeroed {} hindex boxed_zeroed, by decide +kernel⟩

end Ledger

end NandHdl
