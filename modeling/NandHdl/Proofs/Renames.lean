import NandHdl.Proofs.Inputs
import NandHdl.Proofs.Realize
import NandHdl.Proofs.Rereading

/-!
# A name for another name

A statement that assigns one name to another makes the second one stand for the first. Reads of the one behave like
reads of the other, wherever both are assigned.

* `Alias.Ready`: what is known between the statements that assign the names and those that read them.
* `agree_instantiate`, `ModulesAlike`: instances agree, with other reads in their own bodies or behind their calls.
* `Ledger.compile_reread`: **reading the alias or the name makes no difference**, but for gates that take the natural
  width of a number under the alias.
* `Ledger.narrowed_differ`: for them it does.
-/

namespace NandHdl

open Elaboration

/-- Exactly one statement assigns the name, and it assigns it as a whole. -/
def Module.AssignsOnce (m : Module) (name : String) : Prop :=
  ∃ e, m.statements.filter (·.target.name = name) = [⟨⟨name, none⟩, e⟩]

/-- The name is an input that no statement assigns. -/
def Module.OnlyInput (m : Module) (name : String) : Prop :=
  name ∈ m.inputs.map Port.name ∧ name ∉ m.statements.map (·.target.name)

theorem Module.AssignsOnce.assigns {m : Module} {name : String} (h : m.AssignsOnce name) : m.assigns name := by
  obtain ⟨e, h⟩ := h
  have hst : (⟨⟨name, none⟩, e⟩ : Statement) ∈ m.statements.filter (·.target.name = name) :=
    h ▸ List.mem_singleton_self _
  exact List.any_eq_true.2 ⟨_, (List.mem_filter.1 hst).1, decide_eq_true rfl⟩

/-- Behind the only statement that assigns a name, none does. -/
theorem Module.AssignsOnce.not_mem {m : Module} {name : String} (h : m.AssignsOnce name) {sts rest : List Statement}
    (hm : m.statements = sts ++ rest) (hname : name ∈ sts.map (·.target.name)) :
    name ∉ rest.map (·.target.name) := by
  obtain ⟨e, h⟩ := h
  rw [hm] at h
  obtain ⟨t, ht, rfl⟩ := List.mem_map.1 hname
  intro hrest
  obtain ⟨u, hu, hsame⟩ := List.mem_map.1 hrest
  have hlength := congrArg List.length h
  have hfirst : t ∈ sts.filter (·.target.name = t.target.name) := List.mem_filter.2 ⟨ht, decide_eq_true rfl⟩
  have hsecond : u ∈ rest.filter (·.target.name = t.target.name) := List.mem_filter.2 ⟨hu, decide_eq_true hsame⟩
  have h₁ := List.length_pos_of_mem hfirst
  have h₂ := List.length_pos_of_mem hsecond
  rw [List.filter_append, List.length_append, List.length_singleton] at hlength
  omega

namespace Elaboration

/-! ## What statements leave bound -/

section Bound

variable {b : Body} {name : String}

/-- What is assigned is bound. -/
theorem isSome_of_assignAll (sts : List Statement) : ∀ {scope scope' : Scope Signal} {s s' : State},
    Gives (assignAll b scope sts) s scope' s' →
      (scope.lookup name).isSome ∨ name ∈ sts.map (·.target.name) → (scope'.lookup name).isSome := by
  induction sts with
  | nil =>
    intro scope scope' s s' h hname
    rw [(gives_pure.1 h).1]
    exact hname.resolve_right (List.not_mem_nil)
  | cons st sts ih =>
    intro scope scope' s s' h hname
    obtain ⟨next, s₁, hnext, h⟩ := gives_bind.1 h
    obtain ⟨x, rfl⟩ := exists_bind_of_assign hnext
    refine ih h ?_
    rw [Scope.lookup_bind]
    rw [List.map_cons, List.mem_cons] at hname
    split
    · exact .inl rfl
    · next hne => exact hname.imp id fun h => h.resolve_left fun heq => hne heq.symm

theorem assignAll_append (scope : Scope Signal) : ∀ pre post : List Statement,
    assignAll b scope (pre ++ post) = (do assignAll b (← assignAll b scope pre) post) := by
  intro pre
  induction pre generalizing scope with
  | nil => exact fun post => rfl
  | cons st pre ih =>
    intro post
    rw [List.cons_append, assignAll, assignAll, bind_assoc]
    exact bind_congr fun next => ih next post

end Bound

end Elaboration

namespace Alias

/-- The names have been assigned, and the statements to come leave them alone and underrate neither. -/
structure Ready (a : Alias) (es : List Module) (m : Module) (scope : Scope Signal) (post : List Statement) :
    Prop where
  scopes : a.Scopes scope scope
  spares : ∀ st ∈ post, a.Spares st.target.name
  fair : a.Fair (underratesAll a.name es m scope.outline post)

/-! ## Instances -/

section Instances

variable {es : List Module} {m m' : Module} {pre post post' : List Statement} {old name : String}
  {callees : List Callee}

theorem targets_reread (h : List.Forall₂ (Statement.Reread old name) post post') :
    post'.map (·.target) = post.map (·.target) := by
  induction h with
  | nil => rfl
  | cons hst _ ih => rw [List.map_cons, List.map_cons, ih, hst.target]

theorem alike_recursive (hname : m'.name = m.name) (hinputs : m'.inputs = m.inputs) :
    Callee.Alike (Callee.recursive m) (Callee.recursive m') where
  name := hname.symm
  inputs := hinputs.symm
  instantiate a chain _ _ := by
    simp only [Callee.recursive, hname]
    exact Agree.throw _

/-- The changed module has a body that assigns the same names. -/
theorem bodies_reread (hm : m.statements = pre ++ post) (hm' : m' = { m with statements := pre ++ post' })
    (hpost : List.Forall₂ (Statement.Reread old name) post post')
    (hcallees : List.Forall₂ Callee.Alike (calleesOf es) callees) (outer : List String) :
    Bodies es m outer ⟨m', m'.name :: outer, visibleFrom callees m'⟩ := by
  have hassigns : ∀ n, m.assigns n = m'.assigns n := by
    intro n
    have htargets := congrArg (List.any · (·.name = n)) (targets_reread hpost)
    simp only [List.any_map] at htargets
    rw [hm', Module.assigns, Module.assigns, hm, List.any_append, List.any_append]
    exact congrArg _ htargets.symm
  refine ⟨hassigns, by rw [hm'], by rw [hm'], .cons (alike_recursive ?_ ?_) hcallees⟩ <;> rw [hm']

/-- **The rest of a body keeps its outcome**, once the name and the alias are ready. -/
theorem agree_rest {outer : List String} {b : Body} (hb : Bodies es m outer b) {value : Signal} {scope : Scope Signal}
    (hpost : List.Forall₂ (Statement.Reread old name) post post')
    (hready : (Alias.mk old name value).Ready es m scope post) (ports : List Port) (outermost : Bool) :
    (Alias.mk old name value).Agree Eq (do
      let last ← assignAll (bodyIn es m outer) scope post
      let outs ← outputs (bodyIn es m outer) last ports
      let locs ← if outermost then locals (bodyIn es m outer) last last.latest else pure []
      resolveForwards (bodyIn es m outer) last ⟨outs, locs⟩) (do
      let last ← assignAll b scope post'
      let outs ← outputs b last ports
      let locs ← if outermost then locals b last last.latest else pure []
      resolveForwards b last ⟨outs, locs⟩) := by
  have hrest := agree_assignAll hb hpost hready.scopes hready.spares hready.fair
  refine Together.bind hrest fun last last' hlast => ?_
  refine Together.bind (agree_outputs hlast ports) fun outs outs' houts => ?_
  subst houts
  split
  · have hlatest : (last.latest.map fun e => (e.1, (Alias.mk old name value).signal e.2)) =
        last'.latest.map fun e => (e.1, (Alias.mk old name value).signal e.2) := by
      rw [← Scope.latest_map, ← Scope.latest_map, hlast.same]
    refine Together.bind (agree_locals hlast hlatest) fun locs locs' hlocs => ?_
    subst hlocs
    exact agree_resolveForwards hlast _
  · exact agree_resolveForwards hlast _

/-- **A body keeps its outcome** with other reads behind its first statements. -/
theorem agree_instantiate (hm : m.statements = pre ++ post) (hm' : m' = { m with statements := pre ++ post' })
    (hpost : List.Forall₂ (Statement.Reread old name) post post')
    (hcallees : List.Forall₂ Callee.Alike (calleesOf es) callees) {outer : List String} {args : List Wire}
    (hready : Returns (assignAll (bodyIn es m outer) (argumentScope .empty m.inputs args) pre) fun scope =>
      ∃ value, (Alias.mk old name value).Ready es m scope post) (a : Alias) :
    a.Agree Eq (instantiate (visibleFrom (calleesOf es) m) m outer args)
      (instantiate (visibleFrom callees m') m' outer args) := by
  have hb := bodies_reread hm hm' hpost hcallees outer
  -- up to the reads that are replaced, both runs are the same
  have hfirst : (self "").Agree (self "").Scopes
      (assignAll (bodyIn es m outer) (argumentScope .empty m.inputs args) pre)
      (assignAll ⟨m', m'.name :: outer, visibleFrom callees m'⟩ (argumentScope .empty m.inputs args) pre) :=
    agree_assignAll hb (List.forall₂_same.2 fun st _ => Statement.Reread.refl st)
      (Scopes.refl (.inl rfl) (.inl rfl)) (fun _ _ => .inl ⟨rfl, rfl⟩) (.inl rfl)
  unfold instantiate
  rw [hm]
  subst hm'
  refine Together.bind (agree_note _) fun _ _ _ => together_enclosed "" ?_
  simp only [assignAll_append, bind_assoc]
  refine (Together.returns hfirst hready).bind fun scope scope' hscope => ?_
  obtain ⟨hsame, value, hready⟩ := hscope
  obtain rfl := hsame.eq_of_self
  exact Together.mono (agree_rest hb hpost hready m.outputs outer.isEmpty) (fun s t hst => hst.of_self _)
    fun s t hst => ⟨_, hst⟩

end Instances

/-! ## Modules -/

/-- Behind the modules `es`, the second module has the ports of the first one, and instances of the two agree if what
the second one calls agrees with `es`. -/
structure ModulesAlike (es : List Module) (m m' : Module) : Prop where
  name : m'.name = m.name
  inputs : m'.inputs = m.inputs
  outputs : m'.outputs = m.outputs
  instantiate : ∀ {callees : List Callee}, List.Forall₂ Callee.Alike (calleesOf es) callees →
    ∀ (a : Alias) (outer : List String) (args : List Wire), args.length = m.inputs.length →
      a.Agree Eq (Elaboration.instantiate (visibleFrom (calleesOf es) m) m outer args)
        (Elaboration.instantiate (visibleFrom callees m') m' outer args)

/-- The modules are alike, one after another, behind the modules `es`. -/
inductive DesignsAlike : List Module → List Module → List Module → Prop
  | nil {es : List Module} : DesignsAlike es [] []
  | cons {es ms ms' : List Module} {m m' : Module} (h : ModulesAlike es m m') (hs : DesignsAlike (m :: es) ms ms') :
    DesignsAlike es (m :: ms) (m' :: ms')

section Modules

variable {es ms : List Module} {m m' : Module} {callees : List Callee}

theorem ModulesAlike.refl (es : List Module) (m : Module) : ModulesAlike es m m where
  name := rfl
  inputs := rfl
  outputs := rfl
  instantiate hcallees a outer args _ := by
    -- a body without reads that are replaced
    have hready : Returns (assignAll (bodyIn es m outer) (argumentScope .empty m.inputs args) m.statements)
        fun scope => ∃ value, (Alias.mk "" "" value).Ready es m scope [] := fun _ _ _ _ =>
      ⟨.forward "", Scopes.refl (.inl rfl) (.inl rfl), List.forall_mem_nil _, .inl rfl⟩
    have hsame : m = { m with statements := m.statements ++ [] } := by rw [List.append_nil]
    exact agree_instantiate (List.append_nil _).symm hsame .nil hcallees hready a

theorem DesignsAlike.refl (es ms : List Module) : DesignsAlike es ms ms := by
  induction ms generalizing es with
  | nil => exact .nil
  | cons m ms ih => exact .cons (.refl es m) (ih (m :: es))

/-- One module may be alike only. -/
theorem DesignsAlike.middle {before after : List Module} : ∀ {es : List Module},
    ModulesAlike (before.reverse ++ es) m m' → DesignsAlike es (before ++ m :: after) (before ++ m' :: after) := by
  induction before with
  | nil => exact fun h => .cons h (.refl _ after)
  | cons d before ih =>
    intro es h
    rw [List.reverse_cons, List.append_assoc] at h
    exact .cons (.refl es d) (ih h)

theorem ModulesAlike.callee (h : ModulesAlike es m m')
    (hcallees : List.Forall₂ Callee.Alike (calleesOf es) callees) :
    Callee.Alike (Callee.ofModule (calleesOf es) m) (Callee.ofModule callees m') where
  name := h.name.symm
  inputs := h.inputs.symm
  instantiate a chain args hargs :=
    Together.bind (h.instantiate hcallees a chain args hargs) fun _ _ hi => Together.pure (by rw [hi])

/-- **The netlists of modules that are alike are the same.** -/
theorem ModulesAlike.netlist (h : ModulesAlike es m m')
    (hcallees : List.Forall₂ Callee.Alike (calleesOf es) callees) :
    (self "").Agree Eq (netlist (calleesOf es) m) (netlist callees m') := by
  unfold Elaboration.netlist
  rw [h.inputs, h.outputs, h.name]
  refine Together.bind (h.instantiate hcallees (self "") [] _ (length_inputWires 0 _)) fun i i' hi => ?_
  subst hi
  exact Together.bind together_get fun s t hst => Together.pure (by rw [hst.nodes])

/-- **The rest of a design has the same outcome**, warnings apart. -/
theorem compileFrom_alike {ms' : List Module} (h : DesignsAlike es ms ms') : ∀ {callees : List Callee} (first : Nat),
    List.Forall₂ Callee.Alike (calleesOf es) callees →
      (compileFrom callees first ms').unwarned = (compileFrom (calleesOf es) first ms).unwarned := by
  induction h with
  | nil => exact fun _ _ => rfl
  | @cons es ms ms' m m' hm _ ih =>
    intro callees first hcallees
    have hrun := hm.netlist hcallees (State.initial first) (State.initial first) ⟨rfl, rfl, rfl, rfl, rfl⟩
    rw [compileFrom, compileFrom]
    change SameOutcome _ _ ((Elaboration.netlist (calleesOf es) m).run (State.initial first))
      ((Elaboration.netlist callees m').run (State.initial first)) at hrun
    generalize (Elaboration.netlist (calleesOf es) m).run (State.initial first) = r at hrun ⊢
    generalize (Elaboration.netlist callees m').run (State.initial first) = r' at hrun ⊢
    cases hrun with
    | error e hlog => simp only [Elaboration.Outcome.unwarned, unwarned_reverse hlog]
    | @ok n n' s t hn hst =>
      subst hn
      have hnext : s.nextId = t.nextId := hst.nextId
      have hrest := ih s.nextId (.cons (hm.callee hcallees) hcallees)
      simp only [hm.name, ← hnext]
      simp only [Elaboration.Outcome.unwarned, Elaboration.Outcome.mk.injEq] at hrest ⊢
      refine ⟨congrArg (Except.map (n :: ·)) hrest.1, hrest.2.1, ?_⟩
      rw [unwarned_append, unwarned_append, unwarned_cons, unwarned_cons _ (compileFrom _ _ ms).log,
        unwarned_reverse hst.log]
      exact congrArg _ (congrArg _ hrest.2.2)

end Modules

/-! ## The two assignments -/

section Assignments

variable {es : List Module} {m m' : Module} {early late post post' : List Statement} {x y : String}
  {outer : List String} {args : List Wire}

/-- The alias stands for what the name is bound to, or for the name. -/
theorem gives_alias {b : Body} {scope next : Scope Signal} {s s' : State}
    (hx : b.module.assigns x ∨ (scope.lookup x).isSome)
    (h : Gives (assign b scope ⟨⟨y, none⟩, .identifier x⟩) s next s') :
    next = scope.bind y ((scope.lookup x).getD (.forward x)) := by
  obtain ⟨u, s₁, hu, hnext⟩ := gives_bind.1 h
  have hread : Gives (expr b scope ((b.module.output? y).map Port.width) (.identifier x)) s
      ((scope.lookup x).getD (.forward x)) s := by
    rcases hx with hassigned | hbound
    · exact gives_identifier hassigned _
    · obtain ⟨v, hv⟩ := Option.isSome_iff_exists.1 hbound
      rw [expr, nameSignal, hv]
      exact gives_pure.2 ⟨rfl, rfl⟩
  obtain ⟨rfl, rfl⟩ := hu.unique hread
  exact (gives_pure.1 hnext).1

/-- What the name and the alias stand for behind both assignments. -/
theorem lookup_of_gives {b : Body} {scope scope' : Scope Signal} {s s' : State}
    (h : Gives (assignAll b scope (early ++ ⟨⟨y, none⟩, .identifier x⟩ :: late)) s scope' s')
    (hassigned : b.module.assigns x ∨ (scope.lookup x).isSome)
    (hx : (scope.lookup x).isSome ∨ x ∈ early.map (·.target.name) ∨ x ∈ late.map (·.target.name)) (hne : x ≠ y)
    (hlate : y ∉ late.map (·.target.name)) :
    ∃ value, scope'.lookup x = some value ∧
      (x ∉ late.map (·.target.name) → scope'.lookup y = some value) ∧
      (x ∉ early.map (·.target.name) → scope.lookup x = none → scope'.lookup y = some (.forward x)) := by
  obtain ⟨mid, s₁, hmid, h⟩ := gives_assignAll_append.1 h
  obtain ⟨next, s₂, hnext, h⟩ := gives_bind.1 h
  obtain rfl := gives_alias (hassigned.imp id fun hstart => isSome_of_assignAll early hmid (.inl hstart)) hnext
  have hold : scope'.lookup y = some ((mid.lookup x).getD (.forward x)) := by
    rw [lookup_assignAll late h hlate, Scope.lookup_bind, if_pos rfl]
  have hname : ∀ v, (mid.bind y v).lookup x = mid.lookup x := fun v => by
    rw [Scope.lookup_bind, if_neg fun heq => hne heq.symm]
  have hbound : (scope'.lookup x).isSome := by
    refine isSome_of_assignAll late h ?_
    rw [hname]
    rcases hx with hstart | hearly | hlate
    · exact .inl (isSome_of_assignAll early hmid (.inl hstart))
    · exact .inl (isSome_of_assignAll early hmid (.inr hearly))
    · exact .inr hlate
  obtain ⟨value, hvalue⟩ := Option.isSome_iff_exists.1 hbound
  refine ⟨value, hvalue, fun hnot => ?_, fun hnot hnone => ?_⟩
  · rw [lookup_assignAll late h hnot, hname] at hvalue
    rw [hold, hvalue]
    rfl
  · rw [hold, lookup_assignAll early hmid hnot, hnone]
    rfl

/-- **Behind both assignments everything is ready** for reads of the name in place of the alias. -/
theorem returns_ready (hbody : m.statements = early ++ ⟨⟨y, none⟩, .identifier x⟩ :: late ++ post)
    (hy : m.AssignsOnce y) (hx : m.AssignsOnce x ∨ m.OnlyInput x)
    (hboth : x ∈ m.inputs.map Port.name ∨ x ∈ early.map (·.target.name) ∨ x ∈ late.map (·.target.name)) (hne : x ≠ y)
    (hinput : x ∈ m.inputs.map Port.name → x ∉ (late ++ post).map (·.target.name))
    (hwidth : x ∉ late.map (·.target.name) ∨ underratesAll x es m (outlineAll es m (outlineInputs .empty m.inputs)
      (early ++ ⟨⟨y, none⟩, .identifier x⟩ :: late)) post = false)
    (hargs : args.length = m.inputs.length) :
    Returns (assignAll (bodyIn es m outer) (argumentScope .empty m.inputs args)
      (early ++ ⟨⟨y, none⟩, .identifier x⟩ :: late)) fun scope =>
      ∃ value, (Alias.mk y x value).Ready es m scope post := by
  have hstart : x ∈ m.inputs.map Port.name → ((argumentScope .empty m.inputs args).lookup x).isSome :=
    fun hin => isSome_argumentScope _ hargs (.inr hin)
  have hassigned : m.assigns x ∨ ((argumentScope .empty m.inputs args).lookup x).isSome :=
    hx.imp (fun h => h.assigns) fun h => hstart h.1
  -- each of the names is assigned once, so nothing behind both assignments assigns it
  have hyrest : y ∉ (late ++ post).map (·.target.name) := by
    have hsplit : m.statements = (early ++ [⟨⟨y, none⟩, .identifier x⟩]) ++ (late ++ post) := by
      rw [hbody, List.append_cons early, List.append_assoc (early ++ _)]
    exact hy.not_mem hsplit (by simp)
  have hxpost : x ∉ post.map (·.target.name) := fun hin => by
    rcases hboth with hstart | hboth
    · exact hinput hstart (by rw [List.map_append]; exact List.mem_append_right _ hin)
    · rcases hx with hx | hx
      · refine hx.not_mem hbody ?_ hin
        rw [List.map_append, List.map_cons, List.mem_append, List.mem_cons]
        exact hboth.imp id .inr
      · exact hx.2 (by rw [hbody, List.map_append]; exact List.mem_append_right _ hin)
  rw [List.map_append, List.mem_append, not_or] at hyrest
  have hspares : ∀ value, ∀ st ∈ post, (Alias.mk y x value).Spares st.target.name := fun value st hst =>
    .inr ⟨fun heq => hyrest.2 (List.mem_map.2 ⟨st, hst, heq⟩), fun heq => hxpost (List.mem_map.2 ⟨st, hst, heq⟩)⟩
  intro s scope s' h
  obtain ⟨value, hvalue, hbefore, hbehind⟩ :=
    lookup_of_gives h hassigned (hboth.imp_left hstart) hne hyrest.1
  by_cases hlate : x ∈ late.map (·.target.name)
  · -- the alias stands for the name, which has a value only later
    have hearly : x ∉ early.map (·.target.name) := fun hearly => by
      rcases hx with hx | hx
      · exact hx.not_mem (hbody.trans (List.append_assoc ..)) hearly (by simp [hlate])
      · exact hx.2 (by rw [hbody, List.map_append]; exact List.mem_append_left _ (by simp [hearly]))
    have hnone : (argumentScope .empty m.inputs args).lookup x = none :=
      lookup_argumentScope_of_not_mem fun hin =>
        hinput hin (by rw [List.map_append]; exact List.mem_append_left _ hlate)
    have hlike : (Alias.mk y x value).Like (.forward x) value := ⟨(signal_name _).trans (ite_self _).symm, .inr rfl⟩
    have houtline := returns_outline_assignAll _ _ s scope s' h
    rw [outline_argumentScope m.inputs hargs] at houtline
    refine ⟨value, Scopes.refl (.inr hvalue) (.inr ⟨_, value, hbehind hearly hnone, hvalue, hlike⟩), hspares _, ?_⟩
    rw [houtline]
    exact .inr (hwidth.resolve_left fun hnot => hnot hlate)
  · -- the alias has the value of the name at once
    exact ⟨.forward x, Scopes.refl (.inl rfl) (.inr ⟨value, value, hbefore hlate, hvalue, Like.refl value⟩),
      hspares _, .inl rfl⟩

end Assignments

end Alias

/-! ## Designs -/

section Checks

variable {m : Module} {pre post post' : List Statement} {old name : String}

theorem maxIndex_reread (hm : m.statements = pre ++ post)
    (h : List.Forall₂ (Statement.Reread old name) post post') :
    ({ m with statements := pre ++ post' } : Module).maxIndex = m.maxIndex := by
  have hmap : (post'.map fun st => max ((st.target.range.map BitRange.hi).getD 0) st.expr.maxIndex) =
      post.map fun st => max ((st.target.range.map BitRange.hi).getD 0) st.expr.maxIndex := by
    clear hm
    induction h with
    | nil => rfl
    | cons hst _ ih => rw [List.map_cons, List.map_cons, ih, hst.target, hst.expr.maxIndex_eq]
  unfold Module.maxIndex
  dsimp only [Module.ports]
  simp only [hm, List.map_append, hmap]

theorem checkModules_middle {m' : Module} {before after : List Module}
    (h : ∀ seen, checkModule seen m' = checkModule seen m) (hname : m'.name = m.name) : ∀ seen,
    checkModules seen (before ++ m' :: after) = checkModules seen (before ++ m :: after) := by
  induction before with
  | nil =>
    intro seen
    rw [List.nil_append, List.nil_append, checkModules, checkModules, h, hname]
  | cons d before ih =>
    intro seen
    rw [List.cons_append, List.cons_append, checkModules, checkModules, ih]

theorem checkDesign_reread {before after : List Module} (hm : m.statements = pre ++ post)
    (h : List.Forall₂ (Statement.Reread old name) post post') :
    checkDesign (before ++ { m with statements := pre ++ post' } :: after) = checkDesign (before ++ m :: after) := by
  have hmodule : ∀ seen, checkModule seen { m with statements := pre ++ post' } = checkModule seen m := by
    intro seen
    rw [checkModule, checkModule, maxIndex_reread hm h]
    rfl
  have hempty : ∀ d : Module, (before ++ d :: after).isEmpty = false := fun d => by simp
  rw [checkDesign, checkDesign, hempty, hempty, checkModules_middle hmodule rfl]

end Checks

namespace Ledger

/-- **A name that renames another one behaves like it.** A body assigns the name `x` to the name `y`. Each of the two
is assigned once and as a whole, or `x` is an input that is not assigned; an input `x` is never assigned behind `y`.
Where both are bound, let some reads of `y` be replaced by reads of `x`, at any depth. Then the design compiles to the
same netlists or fails with the same error, and takes the same numbers. Only warnings differ.

Where `x` is assigned behind `y`, a gate takes one bit for the natural width of `y`, whatever `x` stands for. So there
no gate may be narrower because of that. -/
theorem compile_reread (l : Ledger) {before after : List Module} {m : Module} {early late post post' : List Statement}
    {x y : String} (hbody : m.statements = early ++ ⟨⟨y, none⟩, .identifier x⟩ :: late ++ post)
    (hy : m.AssignsOnce y) (hx : m.AssignsOnce x ∨ m.OnlyInput x)
    (hboth : x ∈ m.inputs.map Port.name ∨
      x ∈ (early ++ ⟨⟨y, none⟩, .identifier x⟩ :: late).map (·.target.name))
    (hinput : x ∈ m.inputs.map Port.name → x ∉ (late ++ post).map (·.target.name))
    (hreads : List.Forall₂ (Statement.Reread y x) post post')
    (hwidth : x ∉ late.map (·.target.name) ∨ underratesAll x before.reverse m
      (outlineAll before.reverse m (outlineInputs .empty m.inputs) (early ++ ⟨⟨y, none⟩, .identifier x⟩ :: late))
      post = false) :
    (l.compile (before ++
      { m with statements := early ++ ⟨⟨y, none⟩, .identifier x⟩ :: late ++ post' } :: after)).unwarned =
        (l.compile (before ++ m :: after)).unwarned := by
  by_cases hne : x = y
  · -- nothing is replaced
    subst hne
    have hsame : List.Forall₂ Eq post post' := hreads.imp fun _ _ hst => hst.eq.symm
    rw [List.forall₂_eq_eq_eq] at hsame
    rw [← hsame, ← hbody]
  · have hboth : x ∈ m.inputs.map Port.name ∨ x ∈ early.map (·.target.name) ∨ x ∈ late.map (·.target.name) := by
      rw [List.map_append, List.map_cons, List.mem_append, List.mem_cons] at hboth
      exact hboth.imp id fun h => h.imp id fun h => h.resolve_left hne
    obtain ⟨m', hm'⟩ : ∃ m' : Module,
        m' = { m with statements := early ++ ⟨⟨y, none⟩, .identifier x⟩ :: late ++ post' } := ⟨_, rfl⟩
    have halike : Alias.ModulesAlike (before.reverse ++ []) m m' := by
      rw [List.append_nil]
      refine ⟨by rw [hm'], by rw [hm'], by rw [hm'], fun hcallees a outer args hargs => ?_⟩
      exact Alias.agree_instantiate hbody hm' hreads hcallees
        (Alias.returns_ready hbody hy hx hboth hne hinput hwidth hargs) a
    have hdesign : Alias.DesignsAlike [] (before ++ m :: after) (before ++ m' :: after) := .middle halike
    have hcheck : checkDesign (before ++ m' :: after) = checkDesign (before ++ m :: after) :=
      hm' ▸ checkDesign_reread hbody hreads
    rw [← hm']
    cases hms : checkDesign (before ++ m :: after) with
    | error e => rw [compile_of_error hms, compile_of_error (hcheck.trans hms)]
    | ok u =>
      have hfrom := Alias.compileFrom_alike hdesign l.nextId .nil
      rw [compile_of_ok hms, compile_of_ok (hcheck.trans hms)]
      simp only [Outcome.unwarned, Elaboration.Outcome.unwarned, Elaboration.Outcome.mk.injEq,
        Outcome.mk.injEq, Ledger.mk.injEq] at hfrom ⊢
      exact ⟨congrArg _ hfrom.1, hfrom.2.1, hfrom.2.2⟩

/-- A number under another name that is assigned before it. Where `read` is used, a wire decides on the width of the
gate, and the third bit is taken. -/
def renamed (read : String) : Module :=
  ⟨"Renamed", [⟨"a", 3⟩], [⟨"p", 3⟩, ⟨"q", 1⟩],
    [⟨⟨"y", none⟩, .identifier "x"⟩, ⟨⟨"x", none⟩, .number 5⟩,
      ⟨⟨"p", none⟩, .call "nand" [.identifier read, .identifier "a"]⟩,
      ⟨⟨"q", none⟩, .select (.identifier read) (.bit 2)⟩]⟩

theorem renamed_read : (renamed "y").AssignsOnce "y" ∧ (renamed "y").AssignsOnce "x" ∧
    List.Forall₂ (Statement.Reread "y" "x") ((renamed "y").statements.drop 2) ((renamed "x").statements.drop 2) ∧
    (({} : Ledger).compile [renamed "x"]).unwarned = (({} : Ledger).compile [renamed "y"]).unwarned ∧
    ((({} : Ledger).compile [renamed "y"]).result.toOption.map fun lib =>
      lib.netlists.map fun n => (n.nodes.size, n.signal? "q")) = some [(3, some ⟨#[.const true]⟩)] := by
  have hy : (renamed "y").AssignsOnce "y" := ⟨.identifier "x", by decide⟩
  have hx : (renamed "y").AssignsOnce "x" := ⟨.number 5, by decide⟩
  have hreads : List.Forall₂ (Statement.Reread "y" "x") ((renamed "y").statements.drop 2)
      ((renamed "x").statements.drop 2) :=
    .cons ⟨rfl, .call "nand" (.cons .read (.cons (.identifier "a") .nil))⟩
      (.cons ⟨rfl, .select (.bit 2) .read⟩ .nil)
  have hwidth : underratesAll "x" [] (renamed "y") (outlineAll [] (renamed "y") (outlineInputs .empty [⟨"a", 3⟩])
      ((renamed "y").statements.take 2)) ((renamed "y").statements.drop 2) = false := by decide +kernel
  exact ⟨hy, hx, hreads, @compile_reread {} [] [] (renamed "y") [] [⟨⟨"x", none⟩, .number 5⟩] _ _ "x" "y" rfl hy
    (.inl hx) (by decide) (by decide) hreads (.inr hwidth), by decide +kernel⟩

/-- A gate both of whose operands are a number under another name. -/
def narrowed (read : String) : Module :=
  ⟨"m", [], [⟨"out", 3⟩],
    [⟨⟨"y", none⟩, .identifier "x"⟩, ⟨⟨"x", none⟩, .number 5⟩,
      ⟨⟨"t", none⟩, .call "nand" [.identifier read, .identifier read]⟩, ⟨⟨"out", none⟩, .identifier "t"⟩]⟩

/-- **The exception is real**: the gate is one bit wide under the alias, and three under the name. -/
theorem narrowed_differ : (narrowed "y").AssignsOnce "y" ∧ (narrowed "y").AssignsOnce "x" ∧
    List.Forall₂ (Statement.Reread "y" "x") ((narrowed "y").statements.drop 2) ((narrowed "x").statements.drop 2) ∧
    ((({} : Ledger).compile [narrowed "y"]).result.toOption.map fun lib =>
      lib.netlists.map fun n => (n.nodes.map Node.cell, n.signal? "t")) =
        some [(#[.nand (.const true) (.const true)], some ⟨#[.node 0]⟩)] ∧
    ((({} : Ledger).compile [narrowed "x"]).result.toOption.map fun lib =>
      lib.netlists.map fun n => (n.nodes.map Node.cell, n.signal? "t")) =
        some [(#[.nand (.const true) (.const true), .nand (.const false) (.const false),
          .nand (.const true) (.const true)], some ⟨#[.node 0, .node 1, .node 2]⟩)] := by
  refine ⟨⟨.identifier "x", by decide⟩, ⟨.number 5, by decide⟩, ?_, by decide +kernel, by decide +kernel⟩
  exact .cons ⟨rfl, .call "nand" (.cons .read (.cons .read .nil))⟩ (.cons (.refl _) .nil)

end Ledger

end NandHdl
