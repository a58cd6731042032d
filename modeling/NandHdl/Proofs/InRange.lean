import NandHdl.Proofs.Checked
import NandHdl.Proofs.Numbering
import NandHdl.Proofs.Usable

/-!
# No access of elaboration is out of range

When a body ends, the chains of its slots are followed, and each slot in its nodes is looked up. All of them are there,
since the body named open slots only. What is left names slots of the bodies around it, so the instance can be used
there.

* `chase?_eq`, `resolve?_eq`: a chain of slots that are there, with every one looked up.
* `run_resolveForwards`: **the end of a body** in rows.
* `safe_enclosed`, `safe_instantiate`: **a body inside others** and **an instance**, by what its own body does.
* `Ledger.compile_stays_in_range`: **no access is out of range** in a design whose ports have bits.
-/

namespace NandHdl

/-! ## The end of a body -/

section Chasing

variable {base fuel : Nat} {direct : Array Bit} {ends : Array (Option Bit)} {b c : Bit}

/-- Every slot on a chain is there, if none of them dangles. -/
theorem chase?_eq (hd : ∀ b ∈ direct, b.slotBelow (base + direct.size)) (hb : b.slotBelow (base + direct.size)) :
    chase? base direct fuel b = some (chase base direct fuel b) := by
  induction fuel generalizing b with
  | zero =>
    unfold chase? chase
    cases b with
    | forward n =>
      dsimp only
      split <;> rfl
    | _ => rfl
  | succ fuel ih =>
    rcases slot_or_below base b with ⟨n, hn, rfl⟩ | hend
    · have hlt := sub_lt_of_slotBelow hn hb
      have hget : direct[n - base]? = some (direct.getD (n - base) (.const false)) := by
        rw [Array.getD_eq_getD_getElem?, Array.getElem?_eq_getElem hlt, Option.getD_some]
      rw [chase_succ hn, ← ih (slotBelow_getD hd _), chase?, if_neg (by omega), Elaboration.Guarded.minus?_of hn]
      simp only [Option.bind_eq_bind, Option.bind_some, hget]
    · rw [chase_end hend]
      cases b with
      | forward n => rw [chase?, if_pos (of_decide_eq_true hend)]
      | _ => rfl

theorem resolve?_eq (hb : b.slotBelow (base + ends.size)) : b.resolve? base ends = some (b.resolve base ends) := by
  rcases slot_or_below base b with ⟨n, hn, rfl⟩ | hend
  · have hlt := sub_lt_of_slotBelow hn hb
    rw [Bit.resolve?, Bit.resolve, if_neg (by omega), if_neg (by omega), Elaboration.Guarded.minus?_of hn,
      Array.getD_eq_getD_getElem?]
    simp only [Option.bind_eq_bind, Option.bind_some, Array.getElem?_eq_getElem hlt, Option.getD_some]
    rfl
  · cases b with
    | forward n => rw [Bit.resolve?, Bit.resolve, if_pos (of_decide_eq_true hend), if_pos (of_decide_eq_true hend)]
    | _ => rfl

theorem Wire.mapM?_eq {f : Bit → Option Bit} {g : Bit → Bit} {w : Wire} (h : w.All fun b => f b = some (g b)) :
    w.mapM? f = some (w.map g) := by
  rw [Wire.mapM?, mapM_eq fun b hb => h b (Array.mem_toList_iff.1 hb), ← Array.toList_map]
  rfl

theorem Cell.mapM?_eq {f : Bit → Option Bit} {g : Bit → Bit} {c : Cell} (h : c.All fun b => f b = some (g b)) :
    c.mapM? f = some (c.map g) := by
  cases c with
  | nand x y =>
    rw [Cell.mapM?, h x (by simp [Cell.inputs]), h y (by simp [Cell.inputs])]
    rfl
  | dff x y =>
    rw [Cell.mapM?, h x (by simp [Cell.inputs]), h y (by simp [Cell.inputs])]
    rfl

/-- A row from the end of its first part on is its second part. -/
theorem rowFrom?_append {α : Type} (row rest : Array α) : rowFrom? (row ++ rest) row.size = some rest := by
  rw [rowFrom?, if_pos (by rw [Array.size_append]; omega)]
  simp

end Chasing

namespace Elaboration

namespace Guarded

section Resolving

variable {F : Frame} {s : State} {b : Elaboration.Body} {scope : Scope Signal} {inst : Instance}

/-- The same reports in rows. -/
theorem run_noteSelfDefined (module : String) (F : Frame) (slots : List (ForwardSlot × Option Bit)) : ∀ s : State,
    ∃ log, Gives (Elaboration.noteSelfDefined module slots) s () { s with log := log } ∧
      ExceptT.run (noteSelfDefined module slots) (F.rows s) = some (.ok (), F.rows { s with log := log }) := by
  induction slots with
  | nil => exact fun s => ⟨s.log, rfl, rfl⟩
  | cons e slots ih =>
    obtain ⟨slot, _ | bit⟩ := e
    · intro s
      obtain ⟨log, hgives, hrun⟩ := ih { s with log := .selfDefined slot.name module :: s.log }
      refine ⟨log, gives_bind.2 ⟨(), _, gives_note.2 rfl, hgives⟩, ?_⟩
      rw [noteSelfDefined, run_step_bind]
      exact hrun
    · exact ih

theorem limit_eq (scope : Scope Signal) (s : State) :
    s.slotBase + (chaseAll s.slotBase (directBits scope s)).size = s.limit := by
  rw [chaseAll, Array.size_map, size_directBits]

/-- All slots of the body, followed to their ends. -/
theorem mapM_chase? (h : ∀ c ∈ directBits scope s, c.slotBelow s.limit) :
    (directBits scope s).toList.mapM (chase? s.slotBase (directBits scope s) ((directBits scope s).size + 1)) =
      some (chaseAll s.slotBase (directBits scope s)).toList := by
  rw [← size_directBits scope s] at h
  rw [mapM_eq fun c hc => chase?_eq h (h c (Array.mem_toList_iff.1 hc)), ← Array.toList_map]
  rfl

/-- All nodes of the body, with their slots looked up. -/
theorem mapM_settled (h : ∀ n ∈ s.nodes, n.cell.All (·.slotBelow s.limit)) : s.nodes.toList.mapM (fun n => do
      return (⟨n.id, ← n.cell.mapM? (Bit.resolve? s.slotBase (chaseAll s.slotBase (directBits scope s)))⟩ : Node)) =
    some (settledNodes scope s).toList := by
  have hnode : ∀ n ∈ s.nodes.toList, (do
      return (⟨n.id, ← n.cell.mapM? (Bit.resolve? s.slotBase (chaseAll s.slotBase (directBits scope s)))⟩ : Node)) =
      some ⟨n.id, n.cell.map (settled scope s)⟩ := by
    intro n hn
    have hcell := h n (Array.mem_toList_iff.1 hn)
    rw [← limit_eq scope s] at hcell
    rw [Cell.mapM?_eq (hcell.imp fun _ => resolve?_eq)]
    rfl
  rw [mapM_eq hnode, ← Array.toList_map]
  rfl

theorem resolveWires_eq {ws : List (String × Wire)} (h : UsableAll s.limit ws) :
    resolveWires s.slotBase (chaseAll s.slotBase (directBits scope s)) ws =
      some (ws.map fun w => (w.1, w.2.map (settled scope s))) := by
  refine mapM_eq fun w hw => ?_
  have hwire := (h w hw).slots
  rw [← limit_eq scope s] at hwire
  rw [Wire.mapM?_eq (hwire.imp fun _ => resolve?_eq)]
  rfl

/-- No slot dangles at the end of a body. -/
theorem noneDangling (hs : Tidy s) (hscope : scope.Usable s.limit) (houts : UsableAll s.limit inst.outputs)
    (hlocs : UsableAll s.limit inst.locals) : NoneDangling scope s inst where
  direct c hc := by
    obtain ⟨slot, -, rfl⟩ := Array.mem_map.1 hc
    have hname : (Signal.forward slot.name).Usable s.limit := List.forall_mem_nil _
    exact (hname.follow hscope).bitOrZero slot.bit
  nodes := hs
  outputs o ho := (houts o ho).slots
  locals o ho := (hlocs o ho).slots

/-- **The end of a body**: in rows, its own nodes are settled, and so is what it offers. -/
theorem run_resolveForwards (hF : F.slots.size = s.slotBase) (h : NoneDangling scope s inst)
    (houts : UsableAll s.limit inst.outputs) (hlocs : UsableAll s.limit inst.locals) :
    ∃ log, Gives (Elaboration.resolveForwards b scope inst) s (inst.settle scope s)
        { s with nodes := settledNodes scope s, log := log } ∧
      ExceptT.run (resolveForwards b.module scope F.nodes.size F.slots.size inst) (F.rows s) =
        some (.ok (inst.settle scope s), F.rows { s with nodes := settledNodes scope s, log := log }) := by
  obtain ⟨log, hgives, hrun⟩ := run_noteSelfDefined b.module.name F
    (s.slots.zip (chaseAll s.slotBase (directBits scope s))).toList s
  refine ⟨log, gives_resolveForwards_log h hgives, ?_⟩
  have hown : rowFrom? (F.rows s).slots F.slots.size = some s.slots := rowFrom?_append F.slots s.slots
  have hopened : rowFrom? (F.rows s).nodes F.nodes.size = some s.nodes := rowFrom?_append F.nodes s.nodes
  unfold resolveForwards
  rw [run_step_bind_of (run_get _)]
  dsimp only
  rw [hown, access_some, pure_bind, hF, ← directBits, mapM_chase? h.direct, access_some, pure_bind, ← Array.toList_zip,
    run_step_bind_of hrun, hopened, access_some, pure_bind, Array.toArray_toList, mapM_settled h.nodes, access_some, pure_bind,
    resolveWires_eq houts, access_some, pure_bind, resolveWires_eq hlocs, access_some, pure_bind,
    Array.toArray_toList]
  have hrows : ({ F.rows { s with log := log } with
      nodes := (F.nodes ++ s.nodes).extract 0 F.nodes.size ++ settledNodes scope s } : Rows) =
      F.rows { s with nodes := settledNodes scope s, log := log } := by
    rw [Array.extract_append_left, Array.extract_size]
    rfl
  exact congrArg (fun r => some (Except.ok (inst.settle scope s), r)) hrows

end Resolving

/-! ## Instances -/

section Instances

variable {F : Frame} {s : State} {b : Elaboration.Body} {b' : Body} {m : Module} {args : List Wire}

/-- The wires of a body that is settled can be used behind it. -/
theorem UsableAll.settled {limit : Nat} {ws : List (String × Wire)} (h : UsableAll limit ws) (scope : Scope Signal)
    (t : State) : UsableAll t.slotBase (ws.map fun w => (w.1, w.2.map (Elaboration.settled scope t))) := by
  refine List.forall_mem_map.2 fun w hw => ⟨?_, Wire.All.map fun c _ => slotBelow_resolve _ _ c⟩
  rw [Wire.width_map]
  exact (h w hw).wide

/-- What a body offers, and what is bound at its end. -/
structure Finished (limit : Nat) (r : Scope Signal × Instance) : Prop where
  scope : r.1.Usable limit
  outputs : UsableAll limit r.2.outputs
  locals : UsableAll limit r.2.locals

/-- What an instance offers. -/
structure Offered (limit : Nat) (inst : Instance) : Prop where
  outputs : UsableAll limit inst.outputs
  locals : UsableAll limit inst.locals

/-- **A body inside others** in rows: its part of either row starts where theirs end. -/
theorem safe_enclosed {x : Build (Scope Signal × Instance)} {y : Step (Scope Signal × Instance)}
    (h : Safe ⟨F.nodes ++ s.nodes, F.slots ++ s.slots⟩ s.inner x y Finished) :
    Safe F s (Elaboration.enclosed do let r ← x; Elaboration.resolveForwards b r.1 r.2) (enclosed b.module y)
      Offered := by
  intro hF hs
  have hsize : (F.slots ++ s.slots).size = s.limit := by rw [Array.size_append, hF, State.limit]
  have hrows : F.rows s = Frame.rows ⟨F.nodes ++ s.nodes, F.slots ++ s.slots⟩ s.inner := by
    simp only [Frame.rows, State.inner, Array.append_empty]
  unfold enclosed
  rw [run_step_bind_of (run_get _)]
  rcases h hsize (fun n hn => absurd hn (Array.not_mem_empty n)) with ⟨r, t, hx, hy, hlater, ht, hr⟩ | ⟨e, t, rows, hx, hy, hlog, he⟩
  · rw [← hrows] at hy
    have hbase : t.slotBase = s.limit := hlater.slotBase
    have hnone := noneDangling ht hr.scope hr.outputs hr.locals
    obtain ⟨log, hgives, hrun⟩ :=
      @run_resolveForwards ⟨F.nodes ++ s.nodes, F.slots ++ s.slots⟩ t b _ _ (hsize.trans hbase.symm) hnone
        hr.outputs hr.locals
    refine .inl ⟨r.2.settle r.1 t, _, gives_enclosed.2 ⟨_, gives_bind.2 ⟨r, t, hx, hgives⟩, rfl⟩, ?_,
      ⟨rfl, Nat.le_refl _⟩, fun n hn => ?_, ?_⟩
    · -- the slots of the body are dropped, and its nodes stay behind the others
      have hleave : (⟨t.nextId, F.nodes ++ s.nodes ++ settledNodes r.1 t,
            (F.slots ++ s.slots ++ t.slots).extract 0 (F.slots ++ s.slots).size, log⟩ : Rows) =
          F.rows (s.leave { t with nodes := settledNodes r.1 t, log := log }) := by
        rw [Array.extract_append_left, Array.extract_size, Array.append_assoc]
        rfl
      refine (run_step_bind_of hy).trans ((run_step_bind_of hrun).trans ?_)
      exact congrArg (fun rows => some (Except.ok (r.2.settle r.1 t), rows)) hleave
    · rcases Array.mem_append.1 hn with hn | hn
      · exact hs n hn
      · obtain ⟨n, -, rfl⟩ := Array.mem_map.1 hn
        refine Cell.All.map fun c _ => ?_
        have hbelow : (Elaboration.settled r.1 t c).slotBelow t.slotBase := slotBelow_resolve _ _ c
        rwa [hbase] at hbelow
    · have houts := hr.outputs.settled r.1 t
      have hlocs := hr.locals.settled r.1 t
      rw [hbase] at houts hlocs
      exact ⟨houts, hlocs⟩
  · rw [← hrows] at hy
    refine .inr ⟨e, t, rows, fails_enclosed.2 (fails_bind.2 (.inl hx)), ?_, hlog, he⟩
    rw [run_step_bind, hy]

/-- A body up to where its forward reads are resolved. -/
def opened (b : Elaboration.Body) (outermost : Bool) (args : List Wire) : Build (Scope Signal × Instance) := do
  let scope ← Elaboration.assignAll b (argumentScope .empty b.module.inputs args) b.module.statements
  let outs ← Elaboration.outputs b scope b.module.outputs
  let locs ← if outermost then Elaboration.locals b scope scope.latest else Pure.pure []
  return (scope, ⟨outs, locs⟩)

theorem instantiate_eq (callees : List Elaboration.Callee) (m : Module) (outer : List String) (args : List Wire) :
    Elaboration.instantiate callees m outer args = (do
      Elaboration.note (.instantiating outer.length m.name)
      Elaboration.enclosed do
        let r ← opened ⟨m, m.name :: outer, callees⟩ outer.isEmpty args
        Elaboration.resolveForwards ⟨m, m.name :: outer, callees⟩ r.1 r.2) := by
  cases outer <;> simp [Elaboration.instantiate, opened]

/-- The arguments are bound with the widths of the ports. -/
theorem usable_argumentScope {limit : Nat} (ps : List Port) : ∀ {scope : Scope Signal} {ws : List Wire},
    Wide ps → scope.Usable limit → (∀ w ∈ ws, w.Usable limit) → (argumentScope scope ps ws).Usable limit := by
  induction ps with
  | nil => exact fun _ hscope _ => hscope
  | cons p ps ih =>
    intro scope ws hps hscope hws
    cases ws with
    | nil => exact hscope
    | cons w ws =>
      obtain ⟨hp, hps⟩ := List.forall_mem_cons.1 hps
      obtain ⟨hw, hws⟩ := List.forall_mem_cons.1 hws
      exact ih hps (hscope.bind (Signal.usable_wire (hw.fit hp)) p.name) hws

theorem safe_opened (hb : Body.Safe b b') (hinputs : Wide b.module.inputs) (outermost : Bool)
    (hargs : ∀ w ∈ args, w.Usable s.limit) :
    Safe F s (opened b outermost args) (openBody b' outermost args) Finished := by
  have hstart : (argumentScope .empty b.module.inputs args).Usable s.limit :=
    usable_argumentScope _ hinputs (List.forall_mem_nil _) hargs
  unfold opened openBody
  dsimp only
  rw [hb.module, require_of fun e he => (hstart e he).wide, pure_bind]
  refine (safe_assignAll hb _ hstart).bind fun scope s₁ _ hscope => ?_
  refine (safe_outputs _ hscope hb.wide).bind fun outs s₂ h₂ houts => ?_
  have hscope₂ := hscope.mono h₂
  cases outermost with
  | true =>
    refine (safe_locals _ hscope₂ hscope₂.latest).bind fun locs s₃ h₃ hlocs => ?_
    exact .pure ⟨hscope₂.mono h₃, fun w hw => (houts w hw).mono h₃, hlocs⟩
  | false => exact .pure ⟨hscope₂, houts, List.forall_mem_nil _⟩

/-- **An instance in rows.** -/
theorem safe_instantiate {callees : List Elaboration.Callee} {callees' : List Callee}
    (hcallees : List.Forall₂ Callee.Safe callees callees') (hm : Wide m.ports) (outer : List String)
    (hargs : ∀ w ∈ args, w.Usable s.limit) :
    Safe F s (Elaboration.instantiate callees m outer args) (instantiate callees' m outer args) Offered := by
  obtain ⟨hinputs, houtputs⟩ := List.forall_mem_append.1 hm
  have hb : Body.Safe ⟨m, m.name :: outer, callees⟩ ⟨m, m.name :: outer, callees'⟩ :=
    ⟨rfl, rfl, houtputs, hcallees⟩
  rw [instantiate_eq, instantiate, minus?_of (by rw [List.length_cons]; omega), access_some, pure_bind]
  refine (safe_note _).bind fun _ s₁ h₁ _ => safe_enclosed (b := ⟨m, m.name :: outer, callees⟩) ?_
  exact safe_opened hb hinputs _ fun w hw => (hargs w hw).mono h₁

end Instances

/-! ## Designs -/

section Designs

variable {es : List Module}

theorem safe_recursive {m : Module} (hm : Wide m.ports) :
    Callee.Safe (Elaboration.Callee.recursive m) (Callee.recursive m) where
  name := rfl
  inputs := rfl
  wide := (List.forall_mem_append.1 hm).1
  instantiate _ _ _ _ _ := .throw fun _ => by simp

theorem safe_ofModule {callees : List Elaboration.Callee} {callees' : List Callee}
    (hcallees : List.Forall₂ Callee.Safe callees callees') {m : Module} (hm : Wide m.ports) :
    Callee.Safe (Elaboration.Callee.ofModule callees m) (Callee.ofModule callees' m) where
  name := rfl
  inputs := rfl
  wide := (List.forall_mem_append.1 hm).1
  instantiate _ _ chain _ hargs :=
    (safe_instantiate (.cons (safe_recursive hm) hcallees) hm chain hargs).bind fun _ _ _ hinst =>
      .pure hinst.outputs

theorem usable_inputWires {limit : Nat} (ps : List Port) : ∀ offset, Wide ps →
    ∀ w ∈ inputWires offset ps, w.Usable limit := by
  induction ps with
  | nil => exact fun _ _ => List.forall_mem_nil _
  | cons p ps ih =>
    intro offset hps
    obtain ⟨hp, hps⟩ := List.forall_mem_cons.1 hps
    exact List.forall_mem_cons.2 ⟨Wire.usable_ofFn hp fun _ _ => rfl, ih _ hps⟩

/-- Nothing lies around the body of a module on its own. -/
def Frame.empty : Frame := ⟨#[], #[]⟩

theorem rows_empty (s : State) : Frame.empty.rows s = ⟨s.nextId, s.nodes, s.slots, s.log⟩ := by
  rw [Frame.rows, Frame.empty, Array.empty_append, Array.empty_append]

theorem safe_netlist {callees : List Elaboration.Callee} {callees' : List Callee}
    (hcallees : List.Forall₂ Callee.Safe callees callees') {m : Module} (hm : Wide m.ports) (first : Nat) :
    Safe .empty (State.initial first) (Elaboration.netlist callees m) (netlist callees' m) fun _ _ => True := by
  refine (safe_instantiate (.cons (safe_recursive hm) hcallees) hm [] ?_).bind fun inst s' _ _ _ hs' => ?_
  · exact usable_inputWires m.inputs 0 (List.forall_mem_append.1 hm).1
  · refine .inl ⟨_, s', gives_bind.2 ⟨s', s', gives_get.2 ⟨rfl, rfl⟩, gives_pure.2 ⟨rfl, rfl⟩⟩, ?_, .refl s', hs',
      trivial⟩
    rw [run_step_bind_of (run_get _), rows_empty]
    rfl

theorem compileFrom_eq (ms : List Module) : ∀ {callees : List Elaboration.Callee} {callees' : List Callee}
    {nextId : Nat}, List.Forall₂ Callee.Safe callees callees' → (∀ m ∈ ms, Wide m.ports) →
      compileFrom callees' nextId ms = some (Elaboration.compileFrom callees nextId ms) ∧
        ∀ e, (Elaboration.compileFrom callees nextId ms).result = .error e → Declared e := by
  induction ms with
  | nil => exact fun _ _ => ⟨rfl, fun e he => by cases he⟩
  | cons m ms ih =>
    intro callees callees' nextId hcallees hms
    obtain ⟨hm, hms⟩ := List.forall_mem_cons.1 hms
    rw [compileFrom, Elaboration.compileFrom]
    rcases safe_netlist hcallees hm nextId rfl (fun n hn => absurd hn (Array.not_mem_empty n)) with
      ⟨n, s, hx, hy, -, -, -⟩ | ⟨e, s, rows, hx, hy, hlog, he⟩
    · obtain ⟨hrest, hdeclared⟩ := @ih _ _ s.nextId (.cons (safe_ofModule hcallees hm) hcallees) hms
      rw [rows_empty, rows_empty] at hy
      have hrun : (netlist callees' m).run ⟨nextId, #[], #[], []⟩ =
          some (.ok n, ⟨s.nextId, s.nodes, s.slots, s.log⟩) := hy
      rw [hrun, show (Elaboration.netlist callees m).run (State.initial nextId) = (.ok n, s) from hx]
      simp only [Option.bind_eq_bind, Option.bind_some, hrest, Option.pure_def, true_and]
      intro e he
      generalize (Elaboration.compileFrom _ _ ms).result = result at he hdeclared
      cases result with
      | error e' => exact hdeclared e (Except.error.inj he ▸ rfl)
      | ok ns => cases he
    · rw [rows_empty] at hy
      have hrun : (netlist callees' m).run ⟨nextId, #[], #[], []⟩ = some (.error e, rows) := hy
      rw [hrun, show (Elaboration.netlist callees m).run (State.initial nextId) = (.error e, s) from hx]
      simp only [Option.bind_eq_bind, Option.bind_some, hlog, Option.pure_def, true_and, Except.error.injEq]
      rintro _ rfl
      exact he

end Designs

end Guarded

end Elaboration

open Elaboration

namespace Ledger

/-- **No access of elaboration is out of range** in a design whose ports have bits: with all places, all differences
and all widths checked, it comes to the same outcome. So it gives netlists, or one of the errors that a design can
have. -/
theorem compile_stays_in_range (l : Ledger) {ms : List Module} (h : ∀ m ∈ ms, ∀ p ∈ m.ports, 1 ≤ p.width) :
    Guarded.compile l ms = some (l.compile ms) ∧
      ((∃ lib, (l.compile ms).result = .ok lib) ∨
        ∃ e, (l.compile ms).result = .error e ∧ ∀ fault, e ≠ .fault fault) := by
  cases hcheck : checkDesign ms with
  | error e =>
    rw [Guarded.compile, hcheck, compile_of_error hcheck]
    refine ⟨rfl, .inr ⟨e, rfl, ?_⟩⟩
    rintro fault rfl
    exact checkDesign_error hcheck
  | ok u =>
    obtain ⟨hfrom, hdeclared⟩ := @Guarded.compileFrom_eq ms _ _ l.nextId .nil h
    rw [Guarded.compile, hcheck, compile_of_ok hcheck]
    refine ⟨by rw [hfrom]; rfl, ?_⟩
    cases hresult : (Elaboration.compileFrom [] l.nextId ms).result with
    | ok ns => exact .inl ⟨⟨ns⟩, rfl⟩
    | error e => exact .inr ⟨e, rfl, hdeclared e hresult⟩

/-- A module with two outputs. -/
def halves : Module :=
  ⟨"Halves", [⟨"a", 2⟩], [⟨"lo", 1⟩, ⟨"hi", 1⟩],
    [⟨⟨"lo", none⟩, .select (.identifier "a") (.bit 0)⟩, ⟨⟨"hi", none⟩, .select (.identifier "a") (.bit 1)⟩]⟩

/-- A module that reads names early, as they are and in part, shares a clock, assigns bits one by one and in a
range, and has a name that is defined in terms of itself. -/
def busy : Module :=
  ⟨"Busy", [⟨"a", 2⟩, ⟨"clk", 1⟩], [⟨"out", 4⟩],
    [⟨⟨"x", none⟩, .call "nand" [.identifier "early", .identifier "a"]⟩,
      ⟨⟨"q", none⟩, .call "dff" [.identifier "x", .identifier "clk"]⟩,
      ⟨⟨"h", none⟩, .call "Halves" [.identifier "late"]⟩,
      ⟨⟨"out", some (.bit 0)⟩, .call "nand" [.member (.identifier "h") "lo", .number 1]⟩,
      ⟨⟨"out", some (.slice 3 2)⟩, .select (.identifier "late") (.slice 0 1)⟩,
      ⟨⟨"early", none⟩, .identifier "q"⟩,
      ⟨⟨"late", none⟩, .identifier "early"⟩,
      ⟨⟨"loop", none⟩, .select (.identifier "loop") (.bit 0)⟩]⟩

theorem busy_sizes : ((({} : Ledger).compile [halves, busy]).result.toOption.map fun lib =>
    lib.netlists.map (·.nodes.size)) = some [0, 5] := by decide +kernel

theorem busy_in_range : (∀ m ∈ [halves, busy], ∀ p ∈ m.ports, 1 ≤ p.width) ∧
    Guarded.compile {} [halves, busy] = some (({} : Ledger).compile [halves, busy]) ∧
      ∃ lib, (({} : Ledger).compile [halves, busy]).result = .ok lib ∧
        lib.netlists.map (·.nodes.size) = [0, 5] := by
  have hports : ∀ m ∈ [halves, busy], ∀ p ∈ m.ports, 1 ≤ p.width := by decide
  obtain ⟨hcompile, -⟩ := compile_stays_in_range {} hports
  have hsizes := busy_sizes
  cases h : (({} : Ledger).compile [halves, busy]).result with
  | error e =>
    rw [h] at hsizes
    cases hsizes
  | ok lib =>
    rw [h] at hsizes
    exact ⟨hports, hcompile, lib, rfl, Option.some.inj hsizes⟩

/-- The ports have to have bits: a name that is read early for an output without bits is out of range. -/
example : (Guarded.compile {} [⟨"Hollow", [⟨"a", 1⟩], [⟨"y", 0⟩],
    [⟨⟨"y", none⟩, .identifier "x"⟩, ⟨⟨"x", none⟩, .identifier "a"⟩]⟩]).isNone := by decide +kernel

end Ledger

end NandHdl
