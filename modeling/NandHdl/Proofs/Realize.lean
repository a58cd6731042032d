import NandHdl.Proofs.Compute

/-!
# Instances compute what their modules mean

* `Realizes`: an instance computes what a function means.
* `Supported`: an expression reads no name early and calls what is realized.
* `computes_expr_arguments`: expressions compute their values.
* `computes_assignAll`, `computes_innerBody`: statements and bodies.
* `realizes_ofModule`: **an instance computes the meaning of its module**, if neither it nor what it
  calls reads a name early.
-/

namespace NandHdl

namespace Elaboration

/-- The values of all names. -/
def valuedScope (V : Valuation) (scope : Scope Signal) : Scope Value := scope.map (Signal.valued V)

/-- An instance of `c` computes what `f` means if its arguments have the widths of their ports. -/
structure Realizes (V : Valuation) (c : Callee) (f : Function) : Prop where
  inputs : f.inputs = c.inputs
  instantiate : ∀ (s : State) (chain : List String) (args : List Wire), chain ≠ [] →
    args.map Wire.width = c.inputs.map Port.width → (∀ w ∈ args, w.All (Bit.Before s.nextId)) →
    Computes V s (c.instantiate chain args) (f.apply (args.map (Wire.valued V))) (valuedWires V)
      fun next outs => ∀ o ∈ outs, o.2.All (Bit.Before next)

/-- The names that a body can call. -/
structure Calls (b : Body) (fs : List Function) (defined : List String) : Prop where
  chain : b.chain ≠ []
  undefined : ∀ name, b.callee? name = none → fs.find? (·.name = name) = none
  defined : ∀ name c, b.callee? name = some c → name ∈ defined

/-- What an instance under this name does is realized. -/
def Realized (V : Valuation) (b : Body) (fs : List Function) (name : String) : Prop :=
  ∀ c, b.callee? name = some c → ∃ f, fs.find? (·.name = name) = some f ∧ Realizes V c f

/-- The expression reads no name before its assignment, and all its instances are realized. -/
structure Supported (V : Valuation) (b : Body) (fs : List Function) (defined : List String)
    (scope : Scope Signal) (e : Expr) : Prop where
  reads : ∀ name ∈ e.reads defined, b.module.assigns name = true → (scope.lookup name).isSome
  instances : ∀ name ∈ e.instances defined, Realized V b fs name

variable {V : Valuation} {b : Body} {fs : List Function} {defined : List String} {scope : Scope Signal}
  {s s' : State}

/-! ## Expressions -/

theorem mem_readsList {name : String} {es : List Expr} :
    name ∈ Expr.readsList defined es ↔ ∃ e ∈ es, name ∈ e.reads defined := by
  induction es with
  | nil => simp [Expr.readsList]
  | cons e es ih => simp only [Expr.readsList, List.mem_append, ih, List.mem_cons, exists_eq_or_imp]

theorem mem_instancesList {name : String} {es : List Expr} :
    name ∈ Expr.instancesList defined es ↔ ∃ e ∈ es, name ∈ e.instances defined := by
  induction es with
  | nil => simp [Expr.instancesList]
  | cons e es ih => simp only [Expr.instancesList, List.mem_append, ih, List.mem_cons, exists_eq_or_imp]

/-- The arguments of what looks at them. -/
theorem Supported.args {name : String} {args : List Expr}
    (h : Supported V b fs defined scope (.call name args))
    (hname : isPrimitive name = true ∨ name ∈ defined) : ∀ a ∈ args, Supported V b fs defined scope a := by
  intro a ha
  refine ⟨fun n hn => h.reads n ?_, fun n hn => h.instances n ?_⟩
  · rw [Expr.reads, if_pos (by simpa using hname)]
    exact mem_readsList.2 ⟨a, ha, hn⟩
  · -- what an argument makes instances of, the call does
    have hmem : n ∈ Expr.instancesList defined args := mem_instancesList.2 ⟨a, ha, hn⟩
    rw [Expr.instances]
    split
    · exact hmem
    · next hprim =>
      rw [if_pos (hname.resolve_left hprim)]
      exact List.mem_cons_of_mem name hmem

/-- What is called is realized. -/
theorem Supported.callee {name : String} {args : List Expr}
    (h : Supported V b fs defined scope (.call name args)) (hprim : isPrimitive name = false)
    (hname : name ∈ defined) : Realized V b fs name := by
  refine h.instances name ?_
  rw [Expr.instances, hprim, if_neg Bool.false_ne_true, if_pos hname]
  exact List.mem_cons_self

theorem Supported.member {object : Expr} {name : String}
    (h : Supported V b fs defined scope (.member object name)) :
    Supported V b fs defined scope object := ⟨h.reads, h.instances⟩

theorem Supported.select {object : Expr} {r : BitRange}
    (h : Supported V b fs defined scope (.select object r)) :
    Supported V b fs defined scope object := ⟨h.reads, h.instances⟩

theorem gives_checkArity {name : String} {expected found : Nat} {u : Unit}
    (h : Gives (checkArity name expected found) s u s') : Quiet s s' ∧ expected = found := by
  unfold checkArity at h
  split at h
  · next heq => exact ⟨by rw [(gives_pure.1 h).2]; exact .refl s, heq⟩
  · exact absurd h not_gives_throw

/-- **An expression computes its value.** -/
theorem computes_expr_arguments (hcalls : Calls b fs defined) (scope : Scope Signal) :
    (∀ want e s, scope.Ready s.nextId → Supported V b fs defined scope e →
      Computes V s (expr b scope want e) (Meaning.expr fs (valuedScope V scope) want e) (Signal.valued V)
        fun next x => x.Ready next) ∧
    ∀ ps es s, scope.Ready s.nextId → (∀ e ∈ es, Supported V b fs defined scope e) →
      Computes V s (arguments b scope ps es) (Meaning.arguments fs (valuedScope V scope) ps es)
        (List.map (Wire.valued V)) fun next ws => (∀ w ∈ ws, w.All (Bit.Before next)) ∧
          (ps.length = es.length → ws.map Wire.width = ps.map Port.width) := by
  -- the cases are the equations of elaboration, which the meaning has as well
  apply expr.mutual_induct b
  case case1 =>
    intro want name s hscope hsup
    rw [expr, Meaning.expr]
    have hname := hsup.reads name (List.mem_singleton.2 rfl)
    exact Computes.of_quiet fun _ _ => gives_nameSignal V hscope hname
  case case2 =>
    intro want value s _ _
    rw [expr, Meaning.expr]
    exact Computes.pure rfl (Signal.ready_literal value)
  case case3 =>
    intro want x y hx hy s hscope hsup
    have hargs := hsup.args (.inl rfl)
    rw [expr, Meaning.expr]
    refine (hx s hscope (hargs x (by simp))).bind fun v s₁ h₁ hv => ?_
    refine (hy s₁ (hscope.mono h₁) (hargs y (by simp))).bind fun w s₂ h₂ hw => ?_
    exact computes_nand (hv.mono h₂) hw want
  case case4 =>
    intro want args hargs s _ _
    rw [expr.eq_4 b scope want args hargs]
    exact Computes.throw
  case case5 =>
    intro want x y hx hy s hscope hsup
    have hargs := hsup.args (.inl rfl)
    rw [expr, Meaning.expr]
    refine (hx s hscope (hargs x (by simp))).bind fun v s₁ h₁ hv => ?_
    refine (hy s₁ (hscope.mono h₁) (hargs y (by simp))).bind fun w s₂ h₂ hw => ?_
    exact computes_dff (hv.mono h₂) hw want
  case case6 =>
    intro want args hargs s _ _
    rw [expr.eq_6 b scope want args hargs]
    exact Computes.throw
  case case7 =>
    intro want name args hnand hdff hc s _ _
    rw [expr.eq_7 b scope want name args hnand hdff, Meaning.expr.eq_7 fs _ want name args hnand hdff, hc,
      hcalls.undefined name hc]
    refine Computes.quiet_bind (fun _ _ h => ⟨quiet_note h, trivial⟩) fun _ _ _ _ => ?_
    exact Computes.pure rfl Signal.ready_blackBox
  case case8 =>
    intro want name args hnand hdff c hc ih s hscope hsup
    -- the name is no primitive, so its instances are those of the expression
    have hprim : isPrimitive name = false := by
      rw [isPrimitive, Bool.or_eq_false_iff, decide_eq_false_iff_not, decide_eq_false_iff_not]
      exact ⟨hnand, hdff⟩
    have hdefined := hcalls.defined name c hc
    obtain ⟨f, hf, hrealizes⟩ := hsup.callee hprim hdefined c hc
    rw [expr.eq_7 b scope want name args hnand hdff, Meaning.expr.eq_7 fs _ want name args hnand hdff,
      hc, hf]
    refine Computes.quiet_bind (fun _ _ => gives_checkArity) fun _ s₁ h₁ harity => ?_
    simp only [hrealizes.inputs, if_pos harity]
    rw [← h₁] at hscope
    refine (ih s₁ hscope (hsup.args (.inr hdefined))).bind fun ws s₂ h₂ hws => ?_
    exact (hrealizes.instantiate s₂ _ ws hcalls.chain (hws.2 harity) hws.1).bind
      fun outs s₃ h₃ houts => Computes.pure rfl (Signal.ready_bundle houts)
  case case9 =>
    intro want object name ih s hscope hsup
    rw [expr, Meaning.expr]
    refine (ih s hscope hsup.member).bind fun x s₁ h₁ hx => ?_
    exact Computes.of_quiet fun _ _ => gives_field V hx
  case case10 =>
    intro want object r ih s hscope hsup
    rw [expr, Meaning.expr]
    refine (ih s hscope hsup.select).bind fun x s₁ h₁ hx => ?_
    refine Computes.quiet_bind (fun _ _ => gives_project V hx) fun w s₂ h₂ hw => ?_
    rw [← h₂] at hw
    exact Computes.pure (congrArg Value.bits hw.1) (Signal.ready_wire hw.2)
  case case11 =>
    intro p ps a as ha has s hscope hsup
    rw [arguments, Meaning.arguments]
    refine (ha s hscope (hsup a List.mem_cons_self)).bind fun x s₁ h₁ hx => ?_
    refine Computes.quiet_bind (fun _ _ => gives_fitted V hx) fun w s₂ h₂ hw => ?_
    have hscope₂ : scope.Ready s₂.nextId := hscope.mono (by omega)
    refine (has s₂ hscope₂ fun e he => hsup e (List.mem_cons_of_mem a he)).bind fun ws s₃ h₃ hws => ?_
    refine Computes.pure ?_ ⟨?_, fun hlen => ?_⟩
    · rw [List.map_cons, hw.1]
    · intro v hv
      rcases List.mem_cons.1 hv with rfl | hv
      · exact hw.2.1.imp (Bit.Before.mono (by omega))
      · exact hws.1 v hv
    · rw [List.map_cons, List.map_cons, hw.2.2, hws.2 (Nat.succ.inj hlen)]
  case case12 =>
    intro es ps hne s _ _
    rw [arguments.eq_2 b scope ps es hne, Meaning.arguments.eq_2 fs _ ps es hne]
    refine Computes.pure rfl ⟨List.forall_mem_nil _, fun hlen => ?_⟩
    cases ps with
    | nil => rfl
    | cons p ps =>
      cases es with
      | nil => cases hlen
      | cons e es => exact (hne p ps e es rfl rfl).elim

/-! ## Statements -/

theorem lookup_valuedScope (scope : Scope Signal) (name : String) :
    (valuedScope V scope).lookup name = (scope.lookup name).map (Signal.valued V) := Scope.lookup_map _ _ _

theorem computes_expr (hcalls : Calls b fs defined) (hscope : scope.Ready s.nextId) (want : Option Nat)
    {e : Expr} (hsup : Supported V b fs defined scope e) : Computes V s (expr b scope want e)
      (Meaning.expr fs (valuedScope V scope) want e) (Signal.valued V) fun next x => x.Ready next :=
  (computes_expr_arguments hcalls scope).1 want e s hscope hsup

/-- Replacing some bits of a name. -/
theorem computes_splice {part current : Wire} {r : BitRange} (name : String)
    (hscope : scope.Ready s.nextId) (hpart : part.All (Bit.Before s.nextId)) (hwidth : part.width = r.width)
    (hcurrent : current.All (Bit.Before s.nextId)) :
    Computes V s (do
      if (current.fit (max current.width (r.hi + 1))).width < r.lo + part.width then
        throw (.fault .spliceOutOfRange)
      return scope.bind name (.wire ((current.fit (max current.width (r.hi + 1))).splice r.lo part)))
      (pure ((valuedScope V scope).bind name
        (.bits ((current.valued V).replace r (part.valued V))))) (valuedScope V)
      fun next scope' => scope'.Ready next ∧ ∃ x, scope' = scope.bind name x := by
  split
  · exact Computes.throw_bind
  · have hspliced := (hcurrent.fit trivial (max current.width (r.hi + 1))).splice trivial hpart r.lo
    refine Computes.pure ?_ ⟨hscope.bind (Signal.ready_wire hspliced) name, _, rfl⟩
    rw [valuedScope, Scope.map_bind, Signal.valued, Wire.valued_splice current hwidth]
    rfl

/-- **A statement binds its name** to what it means. -/
theorem computes_assign (hcalls : Calls b fs defined) (hscope : scope.Ready s.nextId) {st : Statement}
    (hsup : Supported V b fs defined scope st.expr) :
    Computes V s (assign b scope st) (Meaning.assign fs b.module (valuedScope V scope) st) (valuedScope V)
      fun next scope' => scope'.Ready next ∧ ∃ x, scope' = scope.bind st.target.name x := by
  unfold assign Meaning.assign
  cases st.target.range with
  | none =>
    refine (computes_expr hcalls hscope _ hsup).bind fun x s₁ h₁ hx => ?_
    exact Computes.pure rfl ⟨(hscope.mono h₁).bind hx _, x, rfl⟩
  | some r =>
    refine (computes_expr hcalls hscope _ hsup).bind fun x s₁ h₁ hx => ?_
    have hscope₁ := hscope.mono h₁
    refine Computes.quiet_bind (fun _ _ => gives_fitted V hx) fun part s₂ h₂ hpart => ?_
    rw [← h₂] at hpart hscope₁
    rw [lookup_valuedScope, ← hpart.1]
    cases hl : scope.lookup st.target.name with
    | none =>
      -- nothing is bound yet, so the other bits start at 0 on both sides
      simp only [pure_bind]
      have hzeros := computes_splice (V := V) st.target.name hscope₁ hpart.2.1 hpart.2.2
        (Wire.all_zeros trivial (((b.module.output? st.target.name).map Port.width).getD (r.hi + 1)))
      rwa [Wire.valued_zeros] at hzeros
    | some y =>
      refine Computes.quiet_bind (fun _ _ => gives_materialize V (hscope₁.lookup hl))
        fun current s₃ h₃ hcurrent => ?_
      rw [← h₃] at hpart hscope₁ hcurrent
      rw [Option.map_some, Option.getD_some, ← hcurrent.1]
      exact computes_splice st.target.name hscope₁ hpart.2.1 hpart.2.2 hcurrent.2

theorem isSome_lookup_bind {x : Signal} {name other : String} (h : (scope.lookup other).isSome) :
    ((scope.bind name x).lookup other).isSome := by
  rw [Scope.lookup_bind]
  split
  · rfl
  · exact h

/-- **Statements bind their names** one after another, if each reads names that are bound. -/
theorem computes_assignAll (hcalls : Calls b fs defined) (sts : List Statement) :
    ∀ {s : State} {scope : Scope Signal} {bound : List String}, scope.Ready s.nextId →
      (∀ name ∈ bound, (scope.lookup name).isSome) → readsBound defined b.module bound sts = true →
      (∀ st ∈ sts, ∀ name ∈ st.expr.instances defined, Realized V b fs name) →
      Computes V s (assignAll b scope sts) (Meaning.assignAll fs b.module (valuedScope V scope) sts)
        (valuedScope V) fun next scope' => scope'.Ready next := by
  induction sts with
  | nil => exact fun hscope _ _ _ => Computes.pure rfl hscope
  | cons st sts ih =>
    intro s scope bound hscope hbound hreads hinstances
    rw [readsBound, Bool.and_eq_true, List.all_eq_true] at hreads
    obtain ⟨hread, hreads⟩ := hreads
    -- what the statement reads is bound by now
    have hsup : Supported V b fs defined scope st.expr := by
      refine ⟨fun name hname hassigns => hbound name ?_, hinstances st List.mem_cons_self⟩
      simpa [hassigns] using hread name hname
    rw [assignAll, Meaning.assignAll]
    refine (computes_assign hcalls hscope hsup).bind fun scope' s₁ h₁ ⟨hscope', x, hx⟩ => ?_
    refine ih hscope' (fun name hname => ?_) hreads
      fun st' hst' => hinstances st' (List.mem_cons_of_mem st hst')
    rw [hx]
    rcases List.mem_cons.1 hname with rfl | hname
    · rw [Scope.lookup_bind, if_pos rfl]
      rfl
    · exact isSome_lookup_bind (hbound name hname)

theorem gives_outputWire (V : Valuation) {next : Nat} (hscope : scope.Ready next) {p : Port} {w : Wire}
    (h : Gives (outputWire b scope p) s w s') :
    Quiet s s' ∧ w.valued V = (((valuedScope V scope).lookup p.name).getD .nothing).fitted p.width ∧
      w.All (Bit.Before next) := by
  unfold outputWire at h
  rw [lookup_valuedScope]
  cases hl : scope.lookup p.name with
  | none =>
    rw [hl] at h
    obtain ⟨hquiet, rfl⟩ := quiet_note_pure h
    refine ⟨hquiet, ?_, Wire.all_zeros trivial _⟩
    rw [Wire.valued_zeros]
    exact (Bits.fit_zeros _ _).symm
  | some x =>
    rw [hl] at h
    obtain ⟨hquiet, hvalue, hbefore, -⟩ := gives_fitted V (hscope.lookup hl) h
    exact ⟨hquiet, hvalue, hbefore⟩

theorem gives_outputs (V : Valuation) {next : Nat} (hscope : scope.Ready next) (ps : List Port) :
    ∀ {s s' : State} {outs : List (String × Wire)}, Gives (outputs b scope ps) s outs s' →
      Quiet s s' ∧ valuedWires V outs = Meaning.outputs (valuedScope V scope) ps ∧
        ∀ o ∈ outs, o.2.All (Bit.Before next) := by
  induction ps with
  | nil =>
    intro s s' outs h
    obtain ⟨rfl, rfl⟩ := gives_pure.1 h
    exact ⟨.refl s', rfl, List.forall_mem_nil _⟩
  | cons p ps ih =>
    intro s s' outs h
    rw [outputs_cons] at h
    obtain ⟨w, s₁, hw, h⟩ := gives_bind.1 h
    obtain ⟨hquiet, hvalue, hbefore⟩ := gives_outputWire V hscope hw
    obtain ⟨rest, s₂, hrest, h⟩ := gives_bind.1 h
    obtain ⟨rfl, rfl⟩ := gives_pure.1 h
    obtain ⟨hquiet', hvalues, hall⟩ := ih hrest
    refine ⟨hquiet.trans hquiet', ?_, fun o ho => ?_⟩
    · rw [valuedWires, List.map_cons, hvalue]
      exact congrArg (_ :: ·) hvalues
    · rcases List.mem_cons.1 ho with rfl | ho
      · exact hbefore
      · exact hall o ho

/-! ## Bodies -/

/-- Without slots the end of a body changes no bit, unless it names a slot of another body. -/
theorem settled_of_no_slots (scope : Scope Signal) (hslots : s.slots = #[]) (x : Bit) :
    settled scope s x = x ∨ (∃ k, x = .forward k) ∧ settled scope s x = .const false := by
  have hdirect : directBits scope s = #[] := by rw [directBits, hslots, Array.map_empty]
  rw [settled, hdirect, resolve_eq_chase]
  rcases slot_or_below s.slotBase x with ⟨k, hk, rfl⟩ | hend
  · right
    refine ⟨⟨k, rfl⟩, ?_⟩
    rw [chase_succ hk, chase_end rfl]
    rfl
  · left
    rw [chase_end hend, Option.getD_some]

theorem value_settled (hslots : s.slots = #[]) (x : Bit) : V.value (settled scope s x) = V.value x := by
  rcases settled_of_no_slots scope hslots x with h | ⟨⟨k, rfl⟩, h⟩
  · rw [h]
  · rw [h, V.forward, V.const]

theorem before_settled (hslots : s.slots = #[]) {next : Nat} {x : Bit} (hx : Bit.Before next x) :
    Bit.Before next (settled scope s x) := by
  rcases settled_of_no_slots scope hslots x with h | ⟨-, h⟩
  · rw [h]
    exact hx
  · rw [h]
    trivial

/-- Without slots the end of a body changes no output. -/
theorem valuedWires_settle (hslots : s.slots = #[]) (i : Instance) :
    valuedWires V (i.settle scope s).outputs = valuedWires V i.outputs := by
  rw [Instance.settle, valuedWires, valuedWires, List.map_map]
  refine List.map_congr_left fun o _ => ?_
  simp only [Function.comp_apply, Wire.valued, Wire.map, Array.toList_map, List.map_map,
    value_settled hslots, Function.comp_def]

/-- Nodes that read other bits of the same values do the same. -/
theorem solves_map {g : Bit → Bit} (hg : ∀ x, V.value (g x) = V.value x) (ns : List Node) (t : Tape) :
    (Solves V (ns.map fun n => ⟨n.id, n.cell.map g⟩) t ↔ Solves V ns t) ∧
      afterNodes V (ns.map fun n => ⟨n.id, n.cell.map g⟩) t = afterNodes V ns t := by
  have heval : ∀ (n : Node) (t : Tape), Node.evaluate V ⟨n.id, n.cell.map g⟩ t = n.evaluate V t := by
    intro n t
    obtain ⟨id, ⟨a, c⟩ | ⟨d, clk⟩⟩ := n <;> simp only [Node.evaluate, Cell.map, hg]
  induction ns generalizing t with
  | nil => exact ⟨Iff.rfl, rfl⟩
  | cons n ns ih =>
    obtain ⟨hsolves, hafter⟩ := ih (n.evaluate V t).2
    rw [List.map_cons, Solves, Solves, heval, hsolves]
    exact ⟨Iff.rfl, by rw [afterNodes, List.foldl_cons, heval]; exact hafter⟩

theorem valued_argumentScope (ps : List Port) : ∀ (scope : Scope Signal) (ws : List Wire),
    valuedScope V (argumentScope scope ps ws) =
      Meaning.argumentScope (valuedScope V scope) ps (ws.map (Wire.valued V)) := by
  induction ps with
  | nil => exact fun _ _ => rfl
  | cons p ps ih =>
    intro scope ws
    cases ws with
    | nil => rfl
    | cons w ws =>
      rw [argumentScope, ih, List.map_cons, Meaning.argumentScope, ← Wire.valued_fit]
      rfl

theorem ready_argumentScope {next : Nat} (ps : List Port) : ∀ {scope : Scope Signal} {ws : List Wire},
    scope.Ready next → (∀ w ∈ ws, w.All (Bit.Before next)) → (argumentScope scope ps ws).Ready next := by
  induction ps with
  | nil => exact fun h _ => h
  | cons p ps ih =>
    intro scope ws h hws
    cases ws with
    | nil => exact h
    | cons w ws =>
      have hw := hws w List.mem_cons_self
      rw [argumentScope]
      refine ih (h.bind (Signal.ready_wire (hw.fit trivial p.width)) p.name) fun v hv => ?_
      exact hws v (List.mem_cons_of_mem w hv)

/-- The inputs of a body are bound. -/
theorem isSome_argumentScope {name : String} (ps : List Port) : ∀ {scope : Scope Signal} {ws : List Wire},
    ws.length = ps.length → ((scope.lookup name).isSome ∨ name ∈ ps.map Port.name) →
      ((argumentScope scope ps ws).lookup name).isSome := by
  induction ps with
  | nil =>
    intro scope ws _ h
    exact h.resolve_right List.not_mem_nil
  | cons p ps ih =>
    intro scope ws hlen h
    cases ws with
    | nil => cases hlen
    | cons w ws =>
      rw [argumentScope]
      refine ih (Nat.succ.inj hlen) ?_
      rcases h with h | h
      · exact .inl (isSome_lookup_bind h)
      · rcases List.mem_cons.1 h with rfl | h
        · left
          rw [Scope.lookup_bind, if_pos rfl]
          rfl
        · exact .inr h

/-- **A body computes its outputs.** -/
theorem computes_innerBody (hcalls : Calls b fs defined) {args : List Wire}
    (hargs : ∀ w ∈ args, w.All (Bit.Before s.nextId)) (hlen : args.length = b.module.inputs.length)
    (hreads : readsBound defined b.module (b.module.inputs.map Port.name) b.module.statements = true)
    (hinstances : ∀ st ∈ b.module.statements, ∀ name ∈ st.expr.instances defined, Realized V b fs name)
    (hnodes : s.nodes = #[]) (hslots : s.slots = #[]) :
    Computes V s (innerBody b args) (do
        let env ← Meaning.assignAll fs b.module
          (Meaning.argumentScope .empty b.module.inputs (args.map (Wire.valued V))) b.module.statements
        return Meaning.outputs env b.module.outputs)
      (fun i => valuedWires V i.outputs) fun next i => ∀ o ∈ i.outputs, o.2.All (Bit.Before next) := by
  intro i s' h
  obtain ⟨scope, s₁, hassign, h⟩ := gives_bind.1 h
  obtain ⟨outs, s₂, houts, h⟩ := gives_bind.1 h
  have hstart : (argumentScope .empty b.module.inputs args).Ready s.nextId :=
    ready_argumentScope _ nofun hargs
  have hbound : ∀ name ∈ b.module.inputs.map Port.name,
      ((argumentScope .empty b.module.inputs args).lookup name).isSome := fun name hname =>
    isSome_argumentScope _ hlen (.inr hname)
  obtain ⟨Δ, hext, hscope, hrun⟩ :=
    computes_assignAll hcalls _ hstart hbound hreads hinstances scope s₁ hassign
  obtain ⟨hquiet, hvalues, hall⟩ := gives_outputs V hscope _ houts
  have hext₂ := hext.trans hquiet.extends
  obtain ⟨log, hresolve⟩ := gives_resolveForwards (b := b) (noneDangling_of_gives h)
  obtain ⟨rfl, rfl⟩ := h.unique hresolve
  -- no name was read early, so no slot is open at the end
  have hslots₂ : s₂.slots = #[] := hext₂.slots.trans hslots
  have hnodes₂ : s₂.nodes.toList = Δ := by
    rw [hext₂.nodes, hnodes, List.append_nil]
    rfl
  refine ⟨Δ.map fun n => ⟨n.id, n.cell.map (settled scope s₂)⟩, ⟨?_, ?_, ?_, ?_⟩, ?_, fun t ht => ?_⟩
  · rw [hnodes, ← hnodes₂, settledNodes, Array.toList_map]
    rfl
  · exact hslots₂.trans hslots.symm
  · exact hext₂.nextId
  · intro n hn
    obtain ⟨m, hm, rfl⟩ := List.mem_map.1 hn
    have hbefore := hext.ordered m hm
    exact (hbefore.imp fun _ hx => before_settled hslots₂ hx).map
  · intro o ho
    obtain ⟨p, hp, rfl⟩ := List.mem_map.1 ho
    refine ((hall p hp).imp fun _ hx => ?_).map
    rw [← hquiet.nextId] at hx
    exact before_settled hslots₂ hx
  · -- settling the nodes has changed no value that they read
    obtain ⟨hsolves, hafter⟩ := solves_map (value_settled hslots₂) Δ t
    have hscope₀ : Meaning.argumentScope .empty b.module.inputs (args.map (Wire.valued V)) =
        valuedScope V (argumentScope .empty b.module.inputs args) := by
      rw [valued_argumentScope]
      rfl
    rw [hafter, hscope₀, StateT.run_bind, hrun t (hsolves.1 ht)]
    change some (Meaning.outputs (valuedScope V scope) b.module.outputs, afterNodes V Δ t) =
      some (valuedWires V (Instance.settle scope s₂ ⟨outs, []⟩).outputs, afterNodes V Δ t)
    rw [valuedWires_settle hslots₂, hvalues]

/-! ## Instances -/

theorem computes_enclosed {β : Type} {x : Build Instance} {y : Tick β} {f : Instance → β}
    {K : Nat → Instance → Prop} (h : Computes V s.inner x y f K) : Computes V s (enclosed x) y f K := by
  intro i s' hi
  obtain ⟨t, hx, rfl⟩ := gives_enclosed.1 hi
  obtain ⟨Δ, hext, hK, hrun⟩ := h i t hx
  refine ⟨Δ, ⟨?_, rfl, hext.nextId, hext.ordered⟩, hK, hrun⟩
  rw [State.leave, Array.toList_append, hext.nodes]
  rfl

theorem realizes_recursive (m : Module) : Realizes V (Callee.recursive m) (Function.recursive m) :=
  ⟨rfl, fun _ _ _ _ _ _ => Computes.throw⟩

section Modules

variable {es : List Module} {m : Module} {chain : List String}

/-- What a name means to the module. -/
theorem find?_functions (name : String) :
    (Function.recursive m :: Function.ofModules es).find? (·.name = name) =
      if m.name = name then some (Function.recursive m)
      else match es.dropWhile (·.name ≠ name) with
        | [] => none
        | d :: es' => some (Function.ofModule (Function.ofModules es') d) := by
  have htable := find?_tableOf Function.ofModule Function.name (fun _ _ => rfl) es name
  rw [List.find?_cons, Function.ofModules, htable]
  by_cases h : m.name = name
  · rw [if_pos h, show decide ((Function.recursive m).name = name) = true from decide_eq_true h]
  · rw [if_neg h, show decide ((Function.recursive m).name = name) = false from decide_eq_false h]
    rfl

theorem calls_visible (hchain : chain ≠ []) : Calls ⟨m, chain, visibleFrom (calleesOf es) m⟩
    (Function.recursive m :: Function.ofModules es) (definedFor es m) := by
  refine ⟨hchain, fun name h => ?_, fun name c h => ?_⟩
  · rw [callee?_visible] at h
    rw [find?_functions]
    split at h
    · cases h
    · next hne =>
      rw [if_neg hne]
      cases hd : es.dropWhile (·.name ≠ name) with
      | nil => rfl
      | cons d es' =>
        rw [hd] at h
        cases h
  · rw [callee?_visible] at h
    rw [definedFor]
    split at h
    · next heq =>
      rw [heq]
      exact List.mem_cons_self
    · cases hd : es.dropWhile (·.name ≠ name) with
      | nil =>
        rw [hd] at h
        cases h
      | cons d es' =>
        have hmem : d ∈ es := (List.dropWhile_sublist _).mem (hd ▸ List.mem_cons_self)
        -- the search stops at a module of that name
        have hname : d.name = name := by
          have hnot := List.head?_dropWhile_not (fun e : Module => decide (e.name ≠ name)) es
          rw [hd] at hnot
          simpa using hnot
        exact List.mem_cons_of_mem _ (List.mem_map.2 ⟨d, hmem, hname⟩)

/-- What a module calls is realized if the modules before it are. -/
theorem realized_visible {name : String} (h : ∀ d es', es.dropWhile (·.name ≠ name) = d :: es' →
    Realizes V (Callee.ofModule (calleesOf es') d) (Function.ofModule (Function.ofModules es') d)) :
    Realized V ⟨m, chain, visibleFrom (calleesOf es) m⟩
      (Function.recursive m :: Function.ofModules es) name := by
  intro c hc
  rw [callee?_visible] at hc
  rw [find?_functions]
  split at hc
  · next heq =>
    cases hc
    exact ⟨_, if_pos heq, realizes_recursive m⟩
  · next hne =>
    cases hd : es.dropWhile (·.name ≠ name) with
    | nil =>
      rw [hd] at hc
      cases hc
    | cons d es' =>
      rw [hd] at hc
      cases hc
      rw [if_neg hne]
      exact ⟨_, rfl, h d es' hd⟩

/-- **An instance computes the meaning of its module**, if neither it nor what it calls reads a name
early. -/
theorem realizes_ofModule (h : ForwardFree es m) :
    Realizes V (Callee.ofModule (calleesOf es) m) (Function.ofModule (Function.ofModules es) m) := by
  induction h with
  | @intro es m hreads _ ih =>
    refine ⟨rfl, fun s chain args hchain hwidth hargs => ?_⟩
    obtain ⟨c, outer, rfl⟩ := List.exists_cons_of_ne_nil hchain
    have hlen : args.length = m.inputs.length := by
      have := congrArg List.length hwidth
      rwa [List.length_map, List.length_map] at this
    -- the report comes first, and then the body as its own meaning has it
    have hinstance : Computes V s (instantiate (visibleFrom (calleesOf es) m) m (c :: outer) args)
        ((Function.ofModule (Function.ofModules es) m).apply (args.map (Wire.valued V)))
        (fun i => valuedWires V i.outputs) fun next i => ∀ o ∈ i.outputs, o.2.All (Bit.Before next) := by
      rw [instantiate_cons]
      refine Computes.quiet_bind (fun _ _ h => ⟨quiet_note h, trivial⟩) fun _ s₁ h₁ _ => ?_
      rw [← h₁] at hargs
      exact computes_enclosed (computes_innerBody (calls_visible (List.cons_ne_nil _ _)) hargs hlen hreads
        (fun st hst name hname => realized_visible (ih st hst name hname)) rfl rfl)
    intro outs s' houts
    obtain ⟨i, s₁, hi, hpure⟩ := gives_bind.1 houts
    obtain ⟨rfl, rfl⟩ := gives_pure.1 hpure
    exact hinstance i _ hi

end Modules

end Elaboration

end NandHdl
