import NandHdl.Proofs.Interchange
import NandHdl.Proofs.OneBitNetlist

/-!
# Statements in another order

Where names are assigned once and every wire has one bit, the statements of a module can be written in any
order. Early reads become late ones and late ones early, and what every name stands for in the end stays the
same.

* `Netlist.SameUpTo`: netlists that differ in the numbers and the order of their nodes alone.
* `Module.OneBit`: the modules that this is about.
* `PartsOf`: the netlists of the modules before a module.
* `plainStatements_of_gives`: what compiles once has its calls in order, so that it has a layout.
* `netlist_reordered`: the netlist of a module whose statements are in another order.
* `Ledger.compile_reordered`: **in a design, the order of the statements of a one-bit module does not matter.**
-/

namespace NandHdl

/-- The netlists differ in nothing but the numbers of the nodes, which `π` turns into each other, and in the
order of the nodes. -/
structure Netlist.SameUpTo (π : Equiv.Perm Nat) (n n' : Netlist) : Prop where
  name : n'.name = n.name
  inputs : n'.inputs = n.inputs
  outputs : n'.outputs = n.outputs.map fun o => (o.1, o.2.map (Bit.rename π))
  nodes : n'.nodes.Perm (n.nodes.map (Node.rename π))
  signals : n'.signals = n.signals.map (Wire.map (Bit.rename π))

/-! ## One-bit bodies -/

/-- All ports have one bit. -/
def Module.OneBitPorts (m : Module) : Prop := ∀ p ∈ m.ports, p.width = 1

instance (m : Module) : Decidable m.OneBitPorts := inferInstanceAs (Decidable (∀ p ∈ m.ports, p.width = 1))

mutual

/-- The expression uses only names, the literals 0 and 1, gates, flip-flops and calls, and those of the modules
`es` that it calls have one output and ports of one bit. -/
inductive Expr.OneBit (es : List Module) : Expr → Prop
  | identifier (name : String) : Expr.OneBit es (.identifier name)
  | number {value : Nat} (h : value ≤ 1) : Expr.OneBit es (.number value)
  | call {name : String} {args : List Expr} (hcallee : isPrimitive name = false →
      ∀ d ∈ es, d.name = name → d.OneBitPorts ∧ d.outputs.length = 1) (hargs : Expr.AllOneBit es args) :
    Expr.OneBit es (.call name args)

@[inherit_doc Expr.OneBit]
inductive Expr.AllOneBit (es : List Module) : List Expr → Prop
  | nil : Expr.AllOneBit es []
  | cons {e : Expr} {rest : List Expr} (h : Expr.OneBit es e) (hs : Expr.AllOneBit es rest) :
    Expr.AllOneBit es (e :: rest)

end

/-- The module has ports of one bit, and its statements assign different names, none of them an input, as a
whole. The modules `es` are those before it. -/
structure Module.OneBit (m : Module) (es : List Module) : Prop where
  ports : m.OneBitPorts
  whole : ∀ st ∈ m.statements, st.target.range = none
  distinct : (m.statements.map (·.target.name)).Nodup
  assigned : ∀ st ∈ m.statements, st.target.name ∉ m.inputs.map Port.name
  exprs : ∀ st ∈ m.statements, st.expr.OneBit es

namespace Elaboration

/-! ## Layouts in another order -/

section Layouts

variable {f : Frame} {table : Array Bit} {entries entries' : List Entry} {m m' : Module} {n n' : Netlist}

/-- **Netlists with the same layout**, but for the numbers and the order. -/
theorem sameUpTo_of_describes {π : Equiv.Perm Nat} (h : Describes f table entries m n)
    (h' : Describes f (table.map (Bit.rename π)) entries' m' n')
    (hperm : entries'.Perm (entries.map (Entry.rename π))) (hname : m'.name = m.name)
    (hinputs : m'.inputs = m.inputs) (houtputs : m'.outputs = m.outputs) : n.SameUpTo π n' := by
  refine ⟨by rw [h.name, h'.name, hname], by rw [h.inputs, h'.inputs, hinputs], ?_, ?_, ?_⟩
  · rw [h.outputs, h'.outputs, houtputs, List.map_map]
    exact List.map_congr_left fun p _ => by rw [Function.comp_apply, final_rename]
  · rw [Array.perm_iff_toList_perm, Array.toList_map, h.nodes, h'.nodes]
    have hnodes : (entries.map (Entry.rename π)).flatMap (·.layout.nodes) =
        (entries.flatMap (·.layout.nodes)).map (Node.rename π) := by
      rw [List.flatMap_map, List.map_flatMap]
      rfl
    have hsettle := ((hperm.flatMap_right (·.layout.nodes)).map (Node.settle (table.map (Bit.rename π))))
    rw [hnodes, List.map_map] at hsettle
    rw [List.map_map]
    refine hsettle.trans (List.Perm.of_eq (List.map_congr_left fun node _ => ?_))
    exact Node.settle_rename π table node
  · refine NameTable.ext_get? fun name => ?_
    have hsignal := h.signals name
    have hsignal' := h'.signals name
    rw [Netlist.signal?] at hsignal hsignal'
    rw [NameTable.get?_map, hsignal, hsignal', houtputs, final_rename]
    split <;> rfl

end Layouts

/-! ## The modules before a module -/

/-- Each of the modules `es` before a module, the last one first, has a netlist that its instances copy. -/
inductive PartsOf : List Module → List Part → Prop
  | nil : PartsOf [] []
  | cons {es : List Module} {parts : List Part} {d : Module} {p : Part} (h : PartsOf es parts)
    (hof : p.netlist.IsOf d) (hwidth : ∀ o ∈ p.netlist.outputs, o.2.width = o.1.width)
    (hpastes : (Callee.ofModule (calleesOf es) d).Pastes p.first p.netlist) : PartsOf (d :: es) (p :: parts)

section Parts

variable {es ms : List Module} {parts : List Part} {m d : Module} {first : Nat} {n : Netlist} {s : State}

/-- The netlist of a module is a part. -/
theorem exists_part (hports : (m.ports.map Port.name).Nodup) (h : PartsOf es parts)
    (hn : Gives (netlist (calleesOf es) m) (State.initial first) n s) :
    ∃ p : Part, p.first = first ∧ p.netlist = n ∧ PartsOf (m :: es) (p :: parts) := by
  have hself := fun ρ => follows_calleesOf ρ es
  obtain ⟨hclosed, -⟩ := closed_of_netlist hself hn
  exact ⟨⟨first, n, hclosed⟩, rfl, rfl,
    .cons h (isOf_of_netlist hn) (wellFormed_of_netlist hself hports hn).output_width
      (pastes_of_netlist hself hn)⟩

/-- The modules of a design that compiles have netlists. -/
theorem exists_parts (ms : List Module) : ∀ {es : List Module} {parts : List Part} {first : Nat}
    {ns : List Netlist},
    (∀ m ∈ ms, (m.ports.map Port.name).Nodup) → PartsOf es parts →
      (compileFrom (calleesOf es) first ms).result = .ok ns → ∃ parts', PartsOf (ms.reverse ++ es) parts' := by
  induction ms with
  | nil => exact fun _ h _ => ⟨_, h⟩
  | cons m ms ih =>
    intro es parts first ns hports h hns
    obtain ⟨n, s, rest, hn, hrest, rfl⟩ := compileFrom_cons hns
    obtain ⟨hm, hms⟩ := List.forall_mem_cons.1 hports
    obtain ⟨p, -, -, hp⟩ := exists_part hm h hn
    obtain ⟨parts', hparts'⟩ := ih hms hp hrest
    exact ⟨parts', by rwa [List.reverse_cons, List.append_assoc]⟩

/-- A name has a part if it is that of a module. -/
theorem PartsOf.find? (h : PartsOf es parts) (name : String) :
    match es.dropWhile (·.name ≠ name) with
    | [] => parts.find? (·.netlist.name = name) = none
    | d :: es' => d.name = name ∧ ∃ p, parts.find? (·.netlist.name = name) = some p ∧ p.netlist.IsOf d ∧
      (∀ o ∈ p.netlist.outputs, o.2.width = o.1.width) ∧
      (Callee.ofModule (calleesOf es') d).Pastes p.first p.netlist := by
  induction h with
  | nil => rfl
  | @cons es parts d p _ hof hwidth hpastes ih =>
    rw [List.dropWhile_cons, List.find?_cons, hof.name]
    by_cases hname : d.name = name
    · simp only [hname, ne_eq, not_true_eq_false, decide_false, decide_true]
      exact ⟨hname, p, rfl, hof, hwidth, hpastes⟩
    · simp only [hname, ne_eq, not_false_eq_true, decide_true, decide_false]
      exact ih

variable {f : Frame} {chain : List String}

/-- What a body calls is what it has the netlists of. -/
theorem callsParts_of_parts (h : PartsOf es f.parts) (hassigns : Assigns f m) (hchain : chain ≠ []) :
    CallsParts f ⟨m, chain, visibleFrom (calleesOf es) m⟩ := by
  refine ⟨hchain, hassigns, fun name hown hpart => ?_, fun name p hown hpart => ?_⟩
  · rw [callee?_visible, if_neg fun h => hown h.symm]
    have hfind := h.find? name
    cases hdrop : es.dropWhile (·.name ≠ name) with
    | nil => rfl
    | cons d es' =>
      simp only [hdrop] at hfind
      obtain ⟨-, p, hp, -⟩ := hfind
      rw [Frame.part?, hp] at hpart
      cases hpart
  · rw [callee?_visible, if_neg fun h => hown h.symm]
    have hfind := h.find? name
    cases hdrop : es.dropWhile (·.name ≠ name) with
    | nil =>
      simp only [hdrop] at hfind
      rw [Frame.part?, hfind] at hpart
      cases hpart
    | cons d es' =>
      simp only [hdrop] at hfind
      obtain ⟨-, p', hp', hof, -, hpastes⟩ := hfind
      rw [Frame.part?, hp', Option.some.injEq] at hpart
      subst hpart
      exact ⟨_, rfl, hof.inputs.symm, hpastes⟩

/-- The module that a name stands for is one of those before. -/
theorem oneBit_of_part (h : PartsOf es f.parts) {name : String} {p : Part} (hpart : f.part? name = some p)
    (hcallee : ∀ d ∈ es, d.name = name → d.OneBitPorts ∧ d.outputs.length = 1) : p.OneBit := by
  have hfind := h.find? name
  cases hdrop : es.dropWhile (·.name ≠ name) with
  | nil =>
    simp only [hdrop] at hfind
    rw [Frame.part?, hfind] at hpart
    cases hpart
  | cons d es' =>
    simp only [hdrop] at hfind
    obtain ⟨hname, p', hp', hof, hwidth, -⟩ := hfind
    rw [Frame.part?, hp', Option.some.injEq] at hpart
    subst hpart
    have hd : d ∈ es := List.dropWhile_subset _ (hdrop ▸ List.mem_cons_self)
    obtain ⟨hports, hlength⟩ := hcallee d hd hname
    refine ⟨fun q hq => hports q (List.mem_append_left _ (hof.inputs ▸ hq)), ?_⟩
    have hlength' : p'.netlist.outputs.length = 1 := by rw [← hlength, ← hof.outputs, List.length_map]
    obtain ⟨o, ho⟩ := List.length_eq_one_iff.1 hlength'
    have hmem : o ∈ p'.netlist.outputs := by rw [ho]; exact List.mem_singleton.2 rfl
    refine ⟨o, ho, ?_⟩
    rw [hwidth o hmem]
    exact hports o.1 (List.mem_append_right _ (hof.outputs ▸ List.mem_map_of_mem hmem))

/-- A gate that is elaborated has two operands that are. -/
theorem operands_of_gives {b : Body} {scope : Scope Signal} {want : Option Nat} {name : String}
    {args : List Expr} {x : Signal} {s' : State} (hname : isPrimitive name)
    (h : Gives (expr b scope want (.call name args)) s x s') :
    ∃ a c, args = [a, c] ∧ (∃ want v t t', Gives (expr b scope want a) t v t') ∧
      ∃ want w t t', Gives (expr b scope want c) t w t' := by
  rw [isPrimitive, Bool.or_eq_true, decide_eq_true_iff, decide_eq_true_iff] at hname
  by_cases hargs : ∃ a c, args = [a, c]
  · obtain ⟨a, c, rfl⟩ := hargs
    rcases hname with rfl | rfl <;> rw [expr] at h <;> obtain ⟨v, s₁, hv, h⟩ := gives_bind.1 h <;>
      obtain ⟨w, s₂, hw, -⟩ := gives_bind.1 h <;> exact ⟨a, c, rfl, ⟨_, v, _, _, hv⟩, ⟨_, w, _, _, hw⟩⟩
  · have hne : ∀ a c, args = [a, c] → False := fun a c h => hargs ⟨a, c, h⟩
    rcases hname with rfl | rfl
    · rw [expr.eq_4 b scope want args hne] at h
      exact absurd h not_gives_throw
    · rw [expr.eq_6 b scope want args hne] at h
      exact absurd h not_gives_throw

/-- A call that is elaborated is none of the module itself, and has the arguments that its module asks for. -/
theorem arguments_of_gives {scope : Scope Signal} {want : Option Nat} {name : String} {args : List Expr}
    {x : Signal} {s' : State} {b : Body} (hname : isPrimitive name = false) {c : Callee}
    (hc : b.callee? name = some c) (h : Gives (expr b scope want (.call name args)) s x s') :
    c.inputs.length = args.length ∧ (∃ ws t t', Gives (arguments b scope c.inputs args) t ws t') ∧
      ∃ ws outs t t', Gives (c.instantiate b.chain ws) t outs t' := by
  obtain ⟨hnand, hdff⟩ := ne_of_not_primitive hname
  rw [expr.eq_7 b scope want name args hnand hdff, hc] at h
  obtain ⟨_, s₁, harity, h⟩ := gives_bind.1 h
  obtain ⟨ws, s₂, hws, h⟩ := gives_bind.1 h
  obtain ⟨outs, s₃, houts, -⟩ := gives_bind.1 h
  refine ⟨?_, ⟨ws, _, _, hws⟩, ⟨ws, outs, _, _, houts⟩⟩
  by_contra hne
  rw [checkArity, if_neg hne] at harity
  exact not_gives_throw harity

mutual

/-- What is elaborated without an error has calls with the right arguments, none of the module itself. -/
theorem plain_of_gives (h : PartsOf es f.parts) (hb : CallsParts f ⟨m, chain, visibleFrom (calleesOf es) m⟩)
    {scope : Scope Signal} : ∀ {e : Expr}, e.OneBit es → ∀ {want : Option Nat} {s s' : State} {x : Signal},
      Gives (expr ⟨m, chain, visibleFrom (calleesOf es) m⟩ scope want e) s x s' → Plain f m.name e
  | _, .identifier name, _, _, _, _, _ => .identifier name
  | _, .number hvalue, _, _, _, _, _ => .number hvalue
  | _, @Expr.OneBit.call _ name args hcallee hargs, want, s, s', x, hx => by
    cases hname : isPrimitive name with
    | true =>
      obtain ⟨a, c, rfl, ⟨_, _, _, _, ha⟩, ⟨_, _, _, _, hc⟩⟩ := operands_of_gives hname hx
      cases hargs with
      | cons h₁ hs =>
        cases hs with
        | cons h₂ _ => exact .gate hname (plain_of_gives h hb h₁ ha) (plain_of_gives h hb h₂ hc)
    | false =>
      have hown : name ≠ m.name := by
        intro hown
        have hself : Body.callee? ⟨m, chain, visibleFrom (calleesOf es) m⟩ name =
            some (Callee.recursive m) := by
          rw [callee?_visible, if_pos hown.symm]
        obtain ⟨-, -, _, _, _, _, hrecursive⟩ := arguments_of_gives hname hself hx
        exact not_gives_throw hrecursive
      cases hpart : f.part? name with
      | none => exact .box hname hown hpart
      | some p =>
        obtain ⟨c, hc, hinputs, -⟩ := hb.defined name p hown hpart
        obtain ⟨hlength, ⟨_, _, _, hws⟩, -⟩ := arguments_of_gives hname hc hx
        rw [hinputs] at hlength
        refine .copy hname hown hpart (oneBit_of_part h hpart (hcallee hname)) hlength.symm ?_
        exact plainAll_of_gives h hb hargs (hinputs ▸ hlength) hws

theorem plainAll_of_gives (h : PartsOf es f.parts) (hb : CallsParts f ⟨m, chain, visibleFrom (calleesOf es) m⟩)
    {scope : Scope Signal} : ∀ {as : List Expr}, Expr.AllOneBit es as → ∀ {ps : List Port} {s s' : State}
      {ws : List Wire}, ps.length = as.length →
      Gives (arguments ⟨m, chain, visibleFrom (calleesOf es) m⟩ scope ps as) s ws s' → PlainAll f m.name as
  | _, .nil, _, _, _, _, _, _ => .nil
  | _, .cons he hs, ps, s, s', ws, hlength, hws => by
    obtain ⟨p, ps, rfl⟩ : ∃ p ps', ps = p :: ps' := List.exists_cons_of_length_eq_add_one hlength
    rw [arguments] at hws
    obtain ⟨x, s₁, hx, hws⟩ := gives_bind.1 hws
    obtain ⟨w, s₂, -, hws⟩ := gives_bind.1 hws
    obtain ⟨rest, s₃, hrest, -⟩ := gives_bind.1 hws
    exact .cons (plain_of_gives h hb he hx) (plainAll_of_gives h hb hs (Nat.succ.inj hlength) hrest)

end

/-- What is run without an error are statements of a one-bit body. -/
theorem plainStatements_of_gives (h : PartsOf es f.parts)
    (hb : CallsParts f ⟨m, chain, visibleFrom (calleesOf es) m⟩)
    {sts : List Statement} : (∀ st ∈ sts, st.target.range = none) → (∀ st ∈ sts, st.expr.OneBit es) →
      ∀ {scope scope' : Scope Signal} {s s' : State},
        Gives (assignAll ⟨m, chain, visibleFrom (calleesOf es) m⟩ scope sts) s scope' s' →
          ∀ st ∈ sts, PlainStatement f m.name st := by
  induction sts with
  | nil => exact fun _ _ _ _ _ _ _ => List.forall_mem_nil _
  | cons st sts ih =>
    intro hwhole hexprs scope scope' s s' hrun
    obtain ⟨hw, hwhole⟩ := List.forall_mem_cons.1 hwhole
    obtain ⟨he, hexprs⟩ := List.forall_mem_cons.1 hexprs
    obtain ⟨scope₁, s₁, hassign, hrest⟩ := gives_bind.1 hrun
    rw [assign, hw] at hassign
    obtain ⟨x, s₂, hx, -⟩ := gives_bind.1 hassign
    exact List.forall_mem_cons.2 ⟨⟨hw, plain_of_gives h hb he hx⟩, ih hwhole hexprs hrest⟩

/-- **The netlist of a one-bit module with its statements in another order** is the same up to the numbers and
the order of its nodes. -/
theorem netlist_reordered (h : PartsOf es parts) (hports : (m.ports.map Port.name).Nodup) (hm : m.OneBit es)
    (hn : Gives (netlist (calleesOf es) m) (State.initial first) n s) {sts : List Statement}
    (hperm : m.statements.Perm sts) :
    ∃ n' s' π, Gives (netlist (calleesOf es) { m with statements := sts }) (State.initial first) n' s' ∧
      n.SameUpTo π n' := by
  obtain ⟨f, hf⟩ : ∃ f : Frame,
    f = ⟨m.inputs.map Port.name, m.statements.map (·.target.name), parts⟩ := ⟨_, rfl⟩
  have hdistinct : (f.inputs ++ f.names).Nodup := by
    rw [hf]
    rw [Module.ports, List.map_append] at hports
    refine List.nodup_append.2 ⟨(List.nodup_append.1 hports).1, hm.distinct, ?_⟩
    rintro name hinput _ hname rfl
    obtain ⟨st, hst, rfl⟩ := List.mem_map.1 hname
    exact hm.assigned st hst hinput
  have hnames : f.names = m.statements.map (·.target.name) := by rw [hf]
  have hparts : PartsOf es f.parts := by rwa [hf]
  -- the run of the module shows that its calls are well-formed
  have hcalls : CallsParts f ⟨m, [m.name], visibleFrom (calleesOf es) m⟩ :=
    callsParts_of_parts hparts (assigns_of_names (.of_eq hnames)) (List.cons_ne_nil _ _)
  obtain ⟨i, t, hbody, -, -⟩ := outerBody_of_netlist hn
  obtain ⟨scope, s₁, hrun, -⟩ := gives_bind.1 hbody
  have hplain : PlainModule f m :=
    ⟨by rw [hf], .of_eq hnames, hdistinct, fun p hp => hm.ports p (List.mem_append_left _ hp),
      fun p hp => hm.ports p (List.mem_append_right _ hp),
        plainStatements_of_gives hparts hcalls hm.whole hm.exprs hrun⟩
  obtain ⟨table, htable⟩ := exists_table hnames hdistinct first
  obtain ⟨n₁, t₁, hn₁, hdescribes⟩ := gives_netlist_of_plain hcalls hplain htable
  obtain ⟨rfl, rfl⟩ := hn.unique hn₁
  -- the other order has the same names, and its layout is the same but for the numbers
  have hnames' : f.names.Perm (sts.map (·.target.name)) := hnames ▸ hperm.map _
  have hplain' : PlainModule f { m with statements := sts } :=
    ⟨hplain.inputs, hnames', hplain.nodup, hplain.inputs_width, hplain.outputs_width,
      fun st hst => hplain.statements st (hperm.mem_iff.2 hst)⟩
  have hcalls' : CallsParts f
      ⟨{ m with statements := sts }, [m.name], visibleFrom (calleesOf es) { m with statements := sts }⟩ :=
    callsParts_of_parts hparts (assigns_of_names hnames') (List.cons_ne_nil _ _)
  obtain ⟨π, -, hentries⟩ := exists_perm_entries f hperm first
  obtain ⟨n', s', hn', hdescribes'⟩ := gives_netlist_of_plain hcalls' hplain' (htable.rename hentries)
  exact ⟨n', s', π, hn', sameUpTo_of_describes hdescribes hdescribes' hentries rfl rfl rfl⟩

end Parts

end Elaboration

/-! ## Designs -/

open Elaboration

section Designs

variable {es ms before after : List Module} {m d : Module} {n n' : Netlist} {π : Equiv.Perm Nat}

/-- Netlists that are the same up to the numbers and the order of the nodes have one shape. -/
theorem Netlist.SameUpTo.shape (h : n.SameUpTo π n') : Likeness.shape.Netlists n n' := by
  have hbit : ∀ b : Bit, (b.rename π).rename (fun _ => 0) = b.rename fun _ => 0 := fun b => b.rename_rename
  have hwire : ∀ w : Wire,
      (w.map (Bit.rename π)).map Likeness.shape.bit = w.map Likeness.shape.bit := fun w => by
    rw [Wire.map_map]
    exact congrArg w.map (funext hbit)
  refine ⟨h.name.symm, h.inputs.symm, ?_, ?_, ?_⟩
  · rw [h.outputs, List.map_map]
    exact List.map_congr_left fun o _ => congrArg (Prod.mk o.1) (hwire o.2).symm
  · have hnodes : (n.nodes.map (Node.rename π)).map Likeness.shape.node = n.nodes.map Likeness.shape.node := by
      rw [Array.map_map]
      exact Array.map_congr_left fun node _ => node.rename_rename
    have hperm := Likeness.shape.order_map Likeness.shape.node h.nodes
    rw [hnodes] at hperm
    exact hperm.symm
  · refine NameTable.ext_get? fun name => ?_
    rw [h.signals, NameTable.get?_map, NameTable.get?_map, NameTable.get?_map, Option.map_map]
    exact congrArg (Option.map · _) (funext fun w => (hwire w).symm)

mutual

/-- A one-bit expression stays one among some of the modules. -/
theorem Expr.OneBit.mono (hes : ∀ d ∈ es, d ∈ ms) : ∀ {e : Expr}, e.OneBit ms → e.OneBit es
  | _, .identifier name => .identifier name
  | _, .number h => .number h
  | _, .call hcallee hargs => .call (fun hname d hd => hcallee hname d (hes d hd)) (hargs.mono hes)

theorem Expr.AllOneBit.mono (hes : ∀ d ∈ es, d ∈ ms) :
    ∀ {as : List Expr}, Expr.AllOneBit ms as → Expr.AllOneBit es as
  | _, .nil => .nil
  | _, .cons h hs => .cons (h.mono hes) (hs.mono hes)

end

theorem Module.OneBit.mono (hes : ∀ d ∈ es, d ∈ ms) (h : m.OneBit ms) : m.OneBit es :=
  ⟨h.ports, h.whole, h.distinct, h.assigned, fun st hst => (h.exprs st hst).mono hes⟩

/-- The order of the statements does not matter for the checks before elaboration. -/
theorem checkModule_reordered {sts : List Statement} (hperm : m.statements.Perm sts) (seen : List String) :
    checkModule seen { m with statements := sts } = checkModule seen m := by
  have hindex : Module.maxIndex { m with statements := sts } = m.maxIndex := by
    unfold Module.maxIndex
    exact congrArg (max _) ((hperm.map _).foldl_eq 0).symm
  rw [checkModule, checkModule, hindex]
  rfl

theorem checkDesign_replace {m' : Module} (hname : m'.name = m.name)
    (hm : ∀ seen, checkModule seen m' = checkModule seen m) :
    checkDesign (before ++ m' :: after) = checkDesign (before ++ m :: after) := by
  have hmodules : ∀ seen,
      checkModules seen (before ++ m' :: after) = checkModules seen (before ++ m :: after) := by
    induction before with
    | nil =>
      intro seen
      rw [List.nil_append, List.nil_append, checkModules, checkModules, hm, hname]
    | cons d before ih =>
      intro seen
      rw [List.cons_append, List.cons_append, checkModules, checkModules, ih]
  have hempty : ∀ d : Module, (before ++ d :: after).isEmpty = false := fun d => by simp
  rw [checkDesign, checkDesign, hmodules, hempty, hempty]

namespace Ledger

/-- **The order of the statements does not matter** where names are assigned once. In a design that compiles,
let a module have ports of one bit, and let its statements assign different names, none of them an input, as a
whole, and use nothing but names, 0 and 1, gates, flip-flops and calls, of modules with one output and ports of
one bit. With its statements in any other order, the design compiles, and the module has the same netlist, up to
the numbers and the order of its nodes. -/
theorem compile_reordered (l : Ledger) {lib : Library}
    (h : (l.compile (before ++ m :: after)).result = .ok lib)
    (hm : m.OneBit before) {sts : List Statement} (hperm : m.statements.Perm sts) :
    ∃ lib' n n' π, (l.compile (before ++ { m with statements := sts } :: after)).result = .ok lib' ∧
      lib.netlists[before.length]? = some n ∧ lib'.netlists[before.length]? = some n' ∧
        Netlist.SameUpTo π n n' := by
  have hcheck := check_of_compile h
  obtain ⟨-, hports⟩ := checkDesign_ok hcheck
  have hfrom : (compileFrom (calleesOf []) l.nextId (before ++ m :: after)).result = .ok lib.netlists :=
    compileFrom_of_compile h
  obtain ⟨ns, rest, hbefore, hrest, hlib⟩ := compileFrom_append_ok.1 hfrom
  -- the module has a netlist behind the modules before it
  obtain ⟨n, s, ns', hn, hafter, rfl⟩ := compileFrom_cons hrest
  obtain ⟨parts, hparts⟩ :=
    exists_parts before (fun d hd => (hports d (List.mem_append_left _ hd)).1) .nil hbefore
  have hmem : m ∈ before ++ m :: after := List.mem_append_right _ List.mem_cons_self
  have hone : m.OneBit (before.reverse ++ []) := hm.mono fun d hd => by simpa using hd
  obtain ⟨n', s', π, hn', hsame⟩ := netlist_reordered hparts (hports m hmem).1 hone hn hperm
  -- and what is behind it compiles as before
  obtain ⟨rest', hrest'⟩ :=
    compileFrom_interchange after s'.nextId (interchangeable_of_shape hn hn' hsame.shape) hafter
  have hlength : before.length = ns.length := (compileFrom_ok before [] hbefore).1.length_eq
  have hget : ∀ (k : Netlist) (ks : List Netlist), (ns ++ k :: ks)[before.length]? = some k := fun k ks => by
    rw [hlength, List.getElem?_append_right le_rfl, Nat.sub_self, List.getElem?_cons_zero]
  refine ⟨⟨ns ++ n' :: rest'⟩, n, n', π, ?_, by rw [hlib, hget], hget n' rest', hsame⟩
  have hrest' : (compileFrom (calleesOf (before.reverse ++ []))
      (compileFrom (calleesOf []) l.nextId before).nextId
      ({ m with statements := sts } :: after)).result = .ok (n' :: rest') := by
    rw [(compileFrom_of_gives hn' after).1, hrest']
    rfl
  have hfrom' := compileFrom_append_ok.2 ⟨ns, n' :: rest', hbefore, hrest', rfl⟩
  have hreplace : checkDesign (before ++ { m with statements := sts } :: after) =
      checkDesign (before ++ m :: after) := checkDesign_replace rfl (checkModule_reordered hperm)
  rw [compile_of_ok (hreplace.trans hcheck)]
  exact congrArg (Except.map Library.mk) hfrom'

/-- A latch with an instance between its gates, names for names, and two names that stand for each other. -/
def knot : Module :=
  ⟨"Knot", [⟨"s", 1⟩, ⟨"r", 1⟩], [⟨"q", 1⟩, ⟨"z", 1⟩],
    [⟨⟨"q", none⟩, .call "nand" [.identifier "s", .identifier "p"]⟩,
      ⟨⟨"p", none⟩, .call "nand" [.identifier "t", .call "Not" [.identifier "q"]]⟩,
      ⟨⟨"t", none⟩, .identifier "u"⟩, ⟨⟨"u", none⟩, .identifier "r"⟩,
      ⟨⟨"v", none⟩, .identifier "w"⟩, ⟨⟨"w", none⟩, .identifier "v"⟩,
      ⟨⟨"z", none⟩, .call "dff" [.call "nand" [.identifier "v", .number 1], .identifier "q"]⟩]⟩

theorem knot_oneBit : knot.OneBit [inverter] := by
  have hnot : ∀ {args : List Expr}, Expr.AllOneBit [inverter] args →
      Expr.OneBit [inverter] (.call "Not" args) :=
    .call fun _ d hd _ => List.mem_singleton.1 hd ▸ by decide
  have hgate : ∀ {name : String} {a c : Expr}, isPrimitive name → a.OneBit [inverter] → c.OneBit [inverter] →
      Expr.OneBit [inverter] (.call name [a, c]) :=
    fun hname ha hc => .call (fun h => absurd hname (by simp [h])) (.cons ha (.cons hc .nil))
  refine ⟨by decide, by decide, by decide, by decide, ?_⟩
  simp only [knot, List.forall_mem_cons, List.not_mem_nil, false_imp_iff, implies_true, and_true]
  exact ⟨hgate rfl (.identifier _) (.identifier _),
    hgate rfl (.identifier _) (hnot (.cons (.identifier _) .nil)), .identifier _, .identifier _, .identifier _,
    .identifier _, hgate rfl (hgate rfl (.identifier _) (.number le_rfl)) (.identifier _)⟩

/-- A module behind the knot. -/
def tied : Module :=
  ⟨"Tied", [⟨"a", 1⟩], [⟨"y", 1⟩],
    [⟨⟨"y", none⟩, .member (.call "Knot" [.identifier "a", .call "Not" [.identifier "y"]]) "z"⟩]⟩

theorem knot_sizes : (({} : Ledger).compile ([inverter] ++ knot :: [tied])).result.toOption.map
    (fun lib => lib.netlists.map (·.nodes.size)) = some [1, 5, 6] := by decide +kernel

/-- The knot, read backwards. -/
theorem compile_knot : ∃ lib, (({} : Ledger).compile ([inverter] ++ knot :: [tied])).result = .ok lib ∧
    knot.OneBit [inverter] ∧ knot.statements.Perm knot.statements.reverse ∧
    ∃ lib' n n' π, (({} : Ledger).compile ([inverter] ++
        { knot with statements := knot.statements.reverse } :: [tied])).result = .ok lib' ∧
      lib.netlists[1]? = some n ∧ lib'.netlists[1]? = some n' ∧ Netlist.SameUpTo π n n' := by
  have hsizes := knot_sizes
  have hperm : knot.statements.Perm knot.statements.reverse := (List.reverse_perm _).symm
  cases h : (({} : Ledger).compile ([inverter] ++ knot :: [tied])).result with
  | error e =>
    rw [h] at hsizes
    cases hsizes
  | ok lib => exact ⟨lib, rfl, knot_oneBit, hperm, compile_reordered {} h knot_oneBit hperm⟩

end Ledger

end Designs

end NandHdl
