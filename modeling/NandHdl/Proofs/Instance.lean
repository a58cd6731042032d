import NandHdl.Proofs.Chase
import NandHdl.Proofs.Copy

/-!
# Instances

* `Elaboration.settled`: what the end of a body makes of a bit.
* `sim_instantiate`: an instance is elaborated alike in the copy.
-/

namespace NandHdl

namespace Elaboration

/-! ## The end of a body -/

/-- What the open slots stand for directly. -/
def directBits (scope : Scope Signal) (s : State) : Array Bit := s.slots.map (finalBit scope)

theorem size_directBits (scope : Scope Signal) (s : State) :
    s.slotBase + (directBits scope s).size = s.limit := by
  rw [directBits, Array.size_map, State.limit]

/-- The bit that takes the place of a bit at the end of a body. -/
def settled (scope : Scope Signal) (s : State) : Bit → Bit :=
  Bit.resolve s.slotBase (chaseAll s.slotBase (directBits scope s))

/-- The instance with all its bits settled. -/
def Instance.settle (scope : Scope Signal) (s : State) (inst : Instance) : Instance :=
  ⟨inst.outputs.map fun w => (w.1, w.2.map (settled scope s)),
    inst.locals.map fun w => (w.1, w.2.map (settled scope s))⟩

/-- The nodes with all their bits settled. -/
def settledNodes (scope : Scope Signal) (s : State) : Array Node :=
  s.nodes.map fun n => ⟨n.id, n.cell.map (settled scope s)⟩

/-- No bit that is about to be settled names a slot that is not open. -/
structure NoneDangling (scope : Scope Signal) (s : State) (inst : Instance) : Prop where
  direct : ∀ b ∈ directBits scope s, b.slotBelow s.limit
  nodes : ∀ n ∈ s.nodes, n.cell.All (·.slotBelow s.limit)
  outputs : ∀ o ∈ inst.outputs, o.2.All (·.slotBelow s.limit)
  locals : ∀ o ∈ inst.locals, o.2.All (·.slotBelow s.limit)

variable {scope : Scope Signal} {s s' t : State} {inst r : Instance} {b : Body}

/-- Reporting slots that end nowhere changes nothing but the reports. -/
theorem gives_noteSelfDefined (module : String) (slots : List (ForwardSlot × Option Bit)) (s : State) :
    ∃ log, Gives (noteSelfDefined module slots) s () { s with log := log } := by
  induction slots generalizing s with
  | nil => exact ⟨s.log, rfl⟩
  | cons p rest ih =>
    obtain ⟨slot, b?⟩ := p
    cases b? with
    | none =>
      obtain ⟨log, h⟩ := ih { s with log := .selfDefined slot.name module :: s.log }
      exact ⟨log, gives_bind.2 ⟨(), _, gives_note.2 rfl, h⟩⟩
    | some b => exact ih s

/-- The check of `resolveForwards`. -/
theorem noneDangling_iff : ((directBits scope s).all (·.slotBelow s.limit) &&
      s.nodes.all (·.cell.slotsBelow s.limit) && inst.outputs.all (·.2.slotsBelow s.limit) &&
      inst.locals.all (·.2.slotsBelow s.limit)) = true ↔ NoneDangling scope s inst := by
  simp only [Bool.and_eq_true, Array.all_eq_true', List.all_eq_true, Cell.slotsBelow, Wire.slotsBelow]
  exact ⟨fun h => ⟨h.1.1.1, h.1.1.2, h.1.2, h.2⟩, fun h => ⟨⟨⟨h.1, h.2⟩, h.3⟩, h.4⟩⟩

/-- The end of a body with its reports. -/
theorem gives_resolveForwards_log (h : NoneDangling scope s inst) {log : List Event}
    (hlog : Gives (noteSelfDefined b.module.name (s.slots.zip (chaseAll s.slotBase (directBits scope s))).toList) s ()
      { s with log := log }) :
    Gives (resolveForwards b scope inst) s (inst.settle scope s)
      { s with nodes := settledNodes scope s, log := log } := by
  refine gives_bind.2 ⟨s, s, gives_get.2 ⟨rfl, rfl⟩, ?_⟩
  -- the check that nothing dangles passes, so all that is left is to report and to settle
  have hcheck := noneDangling_iff.2 h
  simp only [directBits, State.limit] at hcheck
  simp only [hcheck]
  refine gives_bind.2 ⟨(), _, hlog, gives_bind.2 ⟨(), _, gives_modify.2 rfl, ?_⟩⟩
  exact gives_pure.2 ⟨rfl, rfl⟩

/-- **The end of a body** settles its nodes and outputs if nothing dangles. -/
theorem gives_resolveForwards (h : NoneDangling scope s inst) :
    ∃ log, Gives (resolveForwards b scope inst) s (inst.settle scope s)
      { s with nodes := settledNodes scope s, log := log } := by
  obtain ⟨log, hlog⟩ := gives_noteSelfDefined b.module.name
    (s.slots.zip (chaseAll s.slotBase (directBits scope s))).toList s
  exact ⟨log, gives_resolveForwards_log h hlog⟩

theorem noneDangling_of_gives (h : Gives (resolveForwards b scope inst) s r s') :
    NoneDangling scope s inst := by
  obtain ⟨s₁, s₂, hget, hrest⟩ := gives_bind.1 h
  obtain ⟨rfl, rfl⟩ := gives_get.1 hget
  rw [← noneDangling_iff]
  simp only [directBits, State.limit]
  dsimp only at hrest
  split at hrest
  · next hcheck => exact hcheck
  · obtain ⟨_, _, hthrow, -⟩ := gives_bind.1 hrest
    exact absurd hthrow not_gives_throw

/-! ## Bodies inside bodies -/

/-- The state in which the body of an instance starts. -/
def State.inner (s : State) : State := { s with nodes := #[], slotBase := s.limit, slots := #[] }

/-- The state behind an instance whose body ends in state `t`. -/
def State.leave (s t : State) : State :=
  { t with nodes := s.nodes ++ t.nodes, slotBase := s.slotBase, slots := s.slots }

theorem gives_enclosed {α : Type} {x : Build α} {a : α} :
    Gives (enclosed x) s a s' ↔ ∃ t, Gives x s.inner a t ∧ s' = s.leave t := by
  constructor
  · intro h
    obtain ⟨_, s₁, h₁, h⟩ := gives_bind.1 h
    rw [gives_modifyGet, Prod.mk.injEq] at h₁
    obtain ⟨rfl, rfl⟩ := h₁
    obtain ⟨a', t, hx, h⟩ := gives_bind.1 h
    obtain ⟨_, s₂, h₂, h⟩ := gives_bind.1 h
    rw [gives_modify] at h₂
    obtain ⟨rfl, rfl⟩ := gives_pure.1 h
    exact ⟨t, hx, h₂⟩
  · rintro ⟨t, hx, rfl⟩
    refine gives_bind.2 ⟨_, _, gives_modifyGet.2 rfl, gives_bind.2 ⟨a, t, hx, ?_⟩⟩
    exact gives_bind.2 ⟨(), _, gives_modify.2 rfl, gives_pure.2 ⟨rfl, rfl⟩⟩

theorem fails_enclosed {α : Type} {x : Build α} {e : CompileError} : Fails (enclosed x) s e s' ↔ Fails x s.inner e s' := by
  unfold enclosed
  rw [fails_bind]
  constructor
  · rintro (h | ⟨_, s₁, hget, h⟩)
    · cases h
    · rw [gives_modifyGet, Prod.mk.injEq] at hget
      obtain ⟨rfl, rfl⟩ := hget
      rcases fails_bind.1 h with h | ⟨a, t, -, h⟩
      · exact h
      · rcases fails_bind.1 h with h | ⟨_, _, -, h⟩
        · cases h
        · exact absurd h not_fails_pure
  · exact fun h => .inr ⟨_, _, gives_modifyGet.2 rfl, fails_bind.2 (.inl h)⟩

namespace Renaming

variable {ρ : Renaming} {scope : Scope Signal} {s s' t : State} {b b' : Body}

/-! ## The end of the copied body -/

/-- Slots that are open in the copy are those of the body and those around it. -/
theorem Beside.limit (ht : ρ.Beside s t) : t.limit = s.limit + ρ.base := by
  rw [State.limit, State.limit, ht.slotBase, ht.slots]
  omega

theorem Known.slotBelow {n l : Nat} {b : Bit} (h : ρ.Known n l b) : b.slotBelow l := by
  cases b with
  | forward k => exact decide_eq_true h
  | _ => rfl

theorem Known.of_below {n l l' : Nat} {b : Bit} (h : ρ.Known n l b) (hb : b.slotBelow l') :
    ρ.Known n l' b := by
  cases b with
  | forward k =>
    have hk : k < l' := of_decide_eq_true hb
    exact hk
  | _ => exact h

theorem finalBit_copy (scope : Scope Signal) (slot : ForwardSlot) :
    finalBit (ρ.scope scope) slot = ρ.bit (finalBit scope slot) := by
  have hname : Signal.forward slot.name = ρ.signal (.forward slot.name) := rfl
  rw [finalBit, finalBit, hname, follow_copy]
  exact Signal.bitOrZero_map bit_const _ _

theorem known_directBits (hscope : scope.All (ρ.KnownAt s)) : ∀ b ∈ directBits scope s, ρ.KnownAt s b := by
  intro b hb
  obtain ⟨slot, -, rfl⟩ := Array.mem_map.1 hb
  have hname : (Signal.forward slot.name).All (ρ.KnownAt s) := trivial
  exact (hname.follow hscope).bitOrZero (known_const s) slot.bit

theorem directBits_copy (ht : ρ.Beside s t) :
    directBits (ρ.scope scope) t = (directBits scope s).map ρ.bit := by
  rw [directBits, directBits, ht.slots, Array.map_map]
  congr 1
  funext slot
  exact finalBit_copy scope slot

theorem getD_map_bit (direct : Array Bit) (i : Nat) :
    (direct.map ρ.bit).getD i (.const false) = ρ.bit (direct.getD i (.const false)) :=
  Wire.bitOrZero_map (f := ρ.bit) rfl ⟨direct⟩ i

/-- A chain in the copy ends in the copy of its end. -/
theorem chase_copy (base fuel : Nat) (direct : Array Bit) (b : Bit) :
    chase (base + ρ.base) (direct.map ρ.bit) fuel (ρ.bit b) = (chase base direct fuel b).map ρ.bit := by
  induction fuel generalizing b with
  | zero =>
    rcases slot_or_below base b with ⟨n, hn, rfl⟩ | hend
    · rw [bit, chase_zero hn, chase_zero (by omega)]
      rfl
    · rw [chase_end hend, chase_end (below_bit hend)]
      rfl
  | succ fuel ih =>
    rcases slot_or_below base b with ⟨n, hn, rfl⟩ | hend
    · rw [bit, chase_succ hn, chase_succ (by omega), Nat.add_sub_add_right, getD_map_bit]
      exact ih _
    · rw [chase_end hend, chase_end (below_bit hend)]
      rfl

/-- A chain of known bits ends in a bit that is known outside. -/
theorem Known.chase {n base fuel : Nat} {direct : Array Bit} {b c : Bit}
    (hd : ∀ b ∈ direct, ρ.Known n (base + direct.size) b) (hb : ρ.Known n (base + direct.size) b)
    (h : chase base direct fuel b = some c) : ρ.Known n base c := by
  induction fuel generalizing b with
  | zero =>
    rcases slot_or_below base b with ⟨m, hm, rfl⟩ | hend
    · rw [chase_zero hm] at h
      cases h
    · rw [chase_end hend] at h
      cases h
      exact hb.of_below hend
  | succ fuel ih =>
    rcases slot_or_below base b with ⟨m, hm, rfl⟩ | hend
    · rw [chase_succ hm] at h
      -- a slot stands for a known bit, and beyond the last slot for 0
      refine ih ?_ h
      exact Wire.All.bitOrZero (w := ⟨direct⟩) trivial hd _
    · rw [chase_end hend] at h
      cases h
      exact hb.of_below hend

theorem settled_copy (ht : ρ.Beside s t) (b : Bit) :
    settled (ρ.scope scope) t (ρ.bit b) = ρ.bit (settled scope s b) := by
  rw [settled, settled, directBits_copy ht, ht.slotBase, resolve_eq_chase, resolve_eq_chase, Array.size_map,
    chase_copy]
  cases chase s.slotBase (directBits scope s) _ b <;> rfl

/-- **Behind a body its slots are not known any more.** -/
theorem Known.settled (hscope : scope.All (ρ.KnownAt s)) {b : Bit} (hb : ρ.KnownAt s b) :
    ρ.Known s.nextId s.slotBase (settled scope s b) := by
  rw [Elaboration.settled, resolve_eq_chase]
  have hsize := size_directBits scope s
  cases hc : NandHdl.chase s.slotBase (directBits scope s) _ b with
  | none => trivial
  | some c =>
    refine Known.chase ?_ ?_ hc
    · rw [hsize]
      exact known_directBits hscope
    · rw [hsize]
      exact hb

/-- The instance of the copy. -/
def ofInstance (ρ : Renaming) (i : Instance) : Instance := ⟨ρ.wires i.outputs, ρ.wires i.locals⟩

/-- What is known of a finished body, seen from outside. -/
structure Finished (ρ : Renaming) (s : State) (i : Instance) : Prop where
  outputs : ∀ o ∈ i.outputs, o.2.All (ρ.Known s.nextId s.slotBase)
  reads : ∀ n ∈ s.nodes, n.cell.All (ρ.Known s.nextId s.slotBase)

theorem noneDangling_copy {i : Instance} (hs : ρ.Sound s) (hscope : scope.All (ρ.KnownAt s))
    (houts : ∀ o ∈ i.outputs, o.2.All (ρ.KnownAt s)) (hlocs : ∀ o ∈ i.locals, o.2.All (ρ.KnownAt s))
    (ht : ρ.Beside s t) : NoneDangling (ρ.scope scope) t (ρ.ofInstance i) := by
  -- what is known is open, and so is its copy
  have hbelow : ∀ b, ρ.KnownAt s b → (ρ.bit b).slotBelow t.limit := fun b hb => by
    rw [ht.limit]
    exact below_bit hb.slotBelow
  have hwires : ∀ {ws : List (String × Wire)}, (∀ o ∈ ws, o.2.All (ρ.KnownAt s)) →
      ∀ o ∈ ρ.wires ws, o.2.All (·.slotBelow t.limit) := by
    intro ws hws o ho
    obtain ⟨p, hp, rfl⟩ := List.mem_map.1 ho
    exact ((hws p hp).imp hbelow).map
  refine ⟨?_, ?_, hwires houts, hwires hlocs⟩
  · rw [directBits_copy ht]
    exact Wire.All.map (w := ⟨directBits scope s⟩) fun b hb => hbelow b (known_directBits hscope b hb)
  · intro n hn
    rw [ht.nodes] at hn
    obtain ⟨m, hm, rfl⟩ := Array.mem_map.1 hn
    exact ((hs.reads m hm).imp hbelow).map

theorem settle_copy (i : Instance) (ht : ρ.Beside s t) :
    (ρ.ofInstance i).settle (ρ.scope scope) t = ρ.ofInstance (i.settle scope s) := by
  have hwires : ∀ ws : List (String × Wire),
      (ρ.wires ws).map (fun w => (w.1, w.2.map (settled (ρ.scope scope) t))) =
        ρ.wires (ws.map fun w => (w.1, w.2.map (settled scope s))) := by
    intro ws
    simp only [wires, wire, List.map_map]
    congr 1
    funext o
    simp only [Function.comp_apply, Wire.map_map, settled_copy ht]
  rw [Instance.settle, ofInstance, hwires, hwires]
  rfl

/-- Behind a body its nodes read what is known outside. -/
theorem reads_settledNodes (hs : ρ.Sound s) (hscope : scope.All (ρ.KnownAt s)) :
    ∀ n ∈ settledNodes scope s, n.cell.All (ρ.Known s.nextId s.slotBase) := by
  intro n hn
  obtain ⟨m, hm, rfl⟩ := Array.mem_map.1 hn
  exact ((hs.reads m hm).imp fun _ h => Known.settled hscope h).map

theorem Sound.settle (hs : ρ.Sound s) (hscope : scope.All (ρ.KnownAt s)) (log : List Event) :
    ρ.Sound { s with nodes := settledNodes scope s, log := log } := by
  have hsize : (settledNodes scope s).size = s.nodes.size := Array.size_map
  refine ⟨fun n hn => ?_, fun j n hn => ?_, ?_⟩
  · have hmono : ∀ b, ρ.Known s.nextId s.slotBase b → ρ.KnownAt s b :=
      Known.mono (Nat.le_refl _) (Nat.le_add_right _ _)
    exact (reads_settledNodes hs hscope n hn).imp hmono
  · simp only [settledNodes, Array.getElem?_map] at hn
    obtain ⟨m, hm, rfl⟩ := Option.map_eq_some_iff.1 hn
    rw [hsize]
    exact hs.ids j m hm
  · rw [hsize]
    exact hs.first_le

theorem Beside.settle (ht : ρ.Beside s t) (log log' : List Event) :
    ρ.Beside { s with nodes := settledNodes scope s, log := log }
      { t with nodes := settledNodes (ρ.scope scope) t, log := log' } := by
  refine ⟨ht.nextId, ht.slotBase, ht.slots, ?_⟩
  simp only [settledNodes, ht.nodes, Array.map_map]
  congr 1
  funext n
  simp only [Function.comp_apply, node, Cell.map_map, settled_copy ht]

/-- **The end of a body is the same in the copy.** -/
theorem sim_resolveForwards {i : Instance} (hscope : scope.All (ρ.KnownAt s))
    (houts : ∀ o ∈ i.outputs, o.2.All (ρ.KnownAt s)) (hlocs : ∀ o ∈ i.locals, o.2.All (ρ.KnownAt s)) :
    ρ.Sim s (resolveForwards b scope i) (resolveForwards b' (ρ.scope scope) (ρ.ofInstance i))
      ρ.ofInstance ρ.Finished := by
  intro hs r s' hr
  obtain ⟨log, hlog⟩ := gives_resolveForwards (b := b) (noneDangling_of_gives hr)
  -- the run has one outcome, the settled one
  obtain ⟨rfl, rfl⟩ := hr.unique hlog
  have hgrow : Grows s { s with nodes := settledNodes scope s, log := log } :=
    ⟨Nat.le_refl _, by simp only [settledNodes, Array.size_map], rfl, Nat.le_refl _⟩
  refine ⟨hgrow, hs.settle hscope log, ⟨fun o ho => ?_, reads_settledNodes hs hscope⟩, fun t ht => ?_⟩
  · obtain ⟨p, hp, rfl⟩ := List.mem_map.1 ho
    exact ((houts p hp).imp fun _ h => Known.settled hscope h).map
  · obtain ⟨log', hlog'⟩ := gives_resolveForwards (b := b') (noneDangling_copy hs hscope houts hlocs ht)
    rw [settle_copy i ht] at hlog'
    exact ⟨_, hlog', ht.settle log log'⟩

/-! ## Whole instances -/

theorem scope_argumentScope (ps : List Port) : ∀ (scope : Scope Signal) (ws : List Wire),
    ρ.scope (argumentScope scope ps ws) = argumentScope (ρ.scope scope) ps (ws.map ρ.wire) := by
  induction ps with
  | nil => exact fun _ _ => rfl
  | cons p ps ih =>
    intro scope ws
    cases ws with
    | nil => rfl
    | cons w ws =>
      rw [argumentScope, ih, List.map_cons, argumentScope]
      congr 1
      rw [Renaming.scope, Scope.map_bind, signal, Signal.map, Wire.map_fit rfl]
      rfl

theorem all_argumentScope {P : Bit → Prop} (h0 : P (.const false)) (ps : List Port) :
    ∀ {scope : Scope Signal} {ws : List Wire}, scope.All P → (∀ w ∈ ws, w.All P) →
      (argumentScope scope ps ws).All P := by
  induction ps with
  | nil => exact fun h _ => h
  | cons p ps ih =>
    intro scope ws h hws
    cases ws with
    | nil => exact h
    | cons w ws =>
      rw [argumentScope]
      have hfit : Signal.All P (.wire (w.fit p.width)) := (hws w (by simp)).fit h0 p.width
      exact ih (h.bind hfit p.name) fun v hv => hws v (by simp [hv])

/-- The scope in which a body starts, in the copy. -/
theorem start_copy (hb : ρ.Bodies b b') (args : List Wire) :
    argumentScope .empty b'.module.inputs (args.map ρ.wire) =
      ρ.scope (argumentScope .empty b.module.inputs args) := by
  rw [scope_argumentScope, hb.module]
  rfl

theorem all_start {args : List Wire} (hargs : ∀ w ∈ args, w.All (ρ.KnownAt s)) (ps : List Port) :
    (argumentScope .empty ps args).All (ρ.KnownAt s) := all_argumentScope trivial ps Scope.all_empty hargs

end Renaming

/-- The body of an instance that is not outermost. -/
def innerBody (b : Body) (args : List Wire) : Build Instance := do
  let scope ← assignAll b (argumentScope .empty b.module.inputs args) b.module.statements
  let outs ← outputs b scope b.module.outputs
  resolveForwards b scope ⟨outs, []⟩

theorem instantiate_cons (callees : List Callee) (m : Module) (c : String) (outer : List String)
    (args : List Wire) : instantiate callees m (c :: outer) args = (do
      note (.instantiating (c :: outer).length m.name)
      enclosed (innerBody ⟨m, m.name :: c :: outer, callees⟩ args)) := by
  simp [instantiate, innerBody]

/-- The outermost body, which also names its wires. -/
def outerBody (b : Body) (args : List Wire) : Build Instance := do
  let scope ← assignAll b (argumentScope .empty b.module.inputs args) b.module.statements
  let outs ← outputs b scope b.module.outputs
  let locs ← locals b scope scope.latest
  resolveForwards b scope ⟨outs, locs⟩

theorem instantiate_nil (callees : List Callee) (m : Module) (args : List Wire) :
    instantiate callees m [] args = (do
      note (.instantiating 0 m.name)
      enclosed (outerBody ⟨m, [m.name], callees⟩ args)) := by
  simp [instantiate, outerBody]

/-- The outermost body up to where its forward reads are resolved: the scope at its end, and what it offers. -/
def openBody (b : Body) (args : List Wire) : Build (Scope Signal × Instance) := do
  let scope ← assignAll b (argumentScope .empty b.module.inputs args) b.module.statements
  let outs ← outputs b scope b.module.outputs
  let locs ← locals b scope scope.latest
  return (scope, ⟨outs, locs⟩)

theorem outerBody_eq (b : Body) (args : List Wire) : outerBody b args = (do
    let r ← openBody b args
    resolveForwards b r.1 r.2) := by
  simp [outerBody, openBody]

namespace Renaming

variable {ρ : Renaming} {scope : Scope Signal} {s s' t : State} {b b' : Body}

theorem sim_innerBody (hb : ρ.Bodies b b') {args : List Wire} (hargs : ∀ w ∈ args, w.All (ρ.KnownAt s)) :
    ρ.Sim s (innerBody b args) (innerBody b' (args.map ρ.wire)) ρ.ofInstance ρ.Finished := by
  unfold innerBody
  rw [start_copy hb, ← hb.module]
  refine (sim_assignAll hb _ (all_start hargs _)).bind fun scope s₁ h₁ hscope => ?_
  refine (sim_outputs _ hscope).bind fun outs s₂ h₂ houts => ?_
  exact sim_resolveForwards (hscope.imp h₂.known) houts nofun

theorem sim_wiresOf (hscope : scope.All (ρ.KnownAt s)) {x : Signal} (hx : x.All (ρ.KnownAt s))
    (name : String) :
    ρ.Sim s (wiresOf b scope name x) (wiresOf b' (ρ.scope scope) name (ρ.signal x)) ρ.wires
      fun s' ws => ∀ w ∈ ws, w.2.All (ρ.KnownAt s') := by
  have hall := hx.follow hscope
  have hwire : ∀ y : Signal, y.All (ρ.KnownAt s) → ρ.Sim s
      (do pure [(name, ← materialize b scope y none)])
      (do pure [(name, ← materialize b' (ρ.scope scope) (ρ.signal y) none)]) ρ.wires
      fun s' ws => ∀ w ∈ ws, w.2.All (ρ.KnownAt s') := fun y hy =>
    (sim_materialize hscope hy none).bind fun w _ _ hw => Sim.pure rfl (List.forall_mem_singleton.2 hw)
  unfold wiresOf
  rw [follow_copy]
  cases hf : follow scope x with
  | bundle fields =>
    rw [hf] at hall
    match fields with
    | [] => exact Sim.pure rfl (List.forall_mem_nil _)
    | [(n, w)] => exact Sim.pure rfl (List.forall_mem_singleton.2 (hall (n, w) (List.mem_singleton.2 rfl)))
    | f :: g :: fields =>
      refine Sim.pure ?_ fun w hw => ?_
      · simp only [wires, List.map_map, List.map_cons]
        rfl
      · obtain ⟨e, he, rfl⟩ := List.mem_map.1 hw
        exact hall e he
  | wire w =>
    rw [hf] at hall
    exact hwire _ hall
  | literal value => exact hwire _ trivial
  | blackBox => exact hwire _ trivial
  | forward n => exact hwire _ trivial

theorem sim_locals (xs : List (String × Signal)) :
    ∀ {s : State}, scope.All (ρ.KnownAt s) → (∀ x ∈ xs, x.2.All (ρ.KnownAt s)) →
      ρ.Sim s (locals b scope xs) (locals b' (ρ.scope scope) (xs.map fun e => (e.1, ρ.signal e.2)))
        ρ.wires fun s' ws => ∀ w ∈ ws, w.2.All (ρ.KnownAt s') := by
  induction xs with
  | nil => exact fun _ _ => Sim.pure rfl (List.forall_mem_nil _)
  | cons x xs ih =>
    intro s hscope hxs
    obtain ⟨name, x⟩ := x
    rw [List.map_cons, locals_cons, locals_cons]
    refine (sim_wiresOf hscope (hxs (name, x) List.mem_cons_self) name).bind fun here s₁ h₁ hhere => ?_
    have hxs₁ : ∀ x ∈ xs, x.2.All (ρ.KnownAt s₁) := fun y hy =>
      (hxs y (List.mem_cons_of_mem _ hy)).imp h₁.known
    refine (ih (hscope.imp h₁.known) hxs₁).bind fun rest s₂ h₂ hrest => ?_
    refine Sim.pure List.map_append fun w hw => ?_
    rcases List.mem_append.1 hw with hw | hw
    · exact (hhere w hw).imp h₂.known
    · exact hrest w hw

theorem sim_outerBody (hb : ρ.Bodies b b') {args : List Wire} (hargs : ∀ w ∈ args, w.All (ρ.KnownAt s)) :
    ρ.Sim s (outerBody b args) (outerBody b' (args.map ρ.wire)) ρ.ofInstance ρ.Finished := by
  unfold outerBody
  rw [start_copy hb, ← hb.module]
  refine (sim_assignAll hb _ (all_start hargs _)).bind fun scope s₁ h₁ hscope => ?_
  refine (sim_outputs _ hscope).bind fun outs s₂ h₂ houts => ?_
  have hscope₂ := hscope.imp h₂.known
  rw [show (ρ.scope scope).latest = _ from Scope.latest_map ρ.signal scope]
  refine (sim_locals _ hscope₂ hscope₂.latest).bind fun locs s₃ h₃ hlocs => ?_
  exact sim_resolveForwards (i := ⟨outs, locs⟩) (hscope₂.imp h₃.known)
    (fun o ho => (houts o ho).imp h₃.known) hlocs

theorem Sound.inner (hs : ρ.Sound s) : ρ.Sound s.inner := by
  have hfirst := hs.first_le
  refine ⟨nofun, nofun, ?_⟩
  simp only [State.inner, Array.size_empty]
  omega

theorem Beside.inner (ht : ρ.Beside s t) : ρ.Beside s.inner t.inner :=
  ⟨ht.nextId, ht.limit, rfl, by simp [State.inner]⟩

theorem Beside.leave {u u' : State} (ht : ρ.Beside s t) (hu : ρ.Beside u u') :
    ρ.Beside (s.leave u) (t.leave u') := by
  refine ⟨hu.nextId, ht.slotBase, ht.slots, ?_⟩
  simp only [State.leave, ht.nodes, hu.nodes, Array.map_append]

theorem Grows.leave {u : State} (h : Grows s.inner u) : Grows s (s.leave u) := by
  have hcount : u.nextId = s.nextId + u.nodes.size := h.nodes
  refine ⟨h.nextId, ?_, rfl, Nat.le_refl _⟩
  simp only [State.leave, Array.size_append]
  omega

/-- Behind an instance, its nodes read what can be named behind it. -/
theorem Sound.leave {u : State} (hs : ρ.Sound s) (hgrow : Grows s.inner u) (hu : ρ.Sound u)
    (hreads : ∀ n ∈ u.nodes, n.cell.All (ρ.KnownAt (s.leave u))) : ρ.Sound (s.leave u) := by
  have hfirst := hs.first_le
  have hcount : u.nextId = s.nextId + u.nodes.size := hgrow.nodes
  refine ⟨fun n hn => ?_, fun j n hn => ?_, ?_⟩
  · rcases Array.mem_append.1 hn with hn | hn
    · exact (hs.reads n hn).imp (Known.mono hgrow.nextId (Nat.le_refl _))
    · exact hreads n hn
  · -- the nodes of the body are numbered on from those around it
    simp only [State.leave, Array.getElem?_append, Array.size_append] at hn ⊢
    split at hn
    · have := hs.ids j n hn
      omega
    · have := hu.ids _ n hn
      omega
  · simp only [State.leave, Array.size_append]
    omega

theorem sim_enclosed {x y : Build Instance} (h : ρ.Sim s.inner x y ρ.ofInstance ρ.Finished) :
    ρ.Sim s (enclosed x) (enclosed y) ρ.ofInstance
      fun s' i => ∀ o ∈ i.outputs, o.2.All (ρ.KnownAt s') := by
  intro hs i s' hi
  obtain ⟨u, hx, rfl⟩ := gives_enclosed.1 hi
  obtain ⟨hgrow, hu, hfinished, hcopy⟩ := h hs.inner i u hx
  -- the slots of the body start where those around it end
  have hbase : u.slotBase = s.limit := hgrow.slotBase
  have hout : ρ.Known u.nextId u.slotBase = ρ.KnownAt (s.leave u) := by
    rw [hbase]
    rfl
  have hreads := hfinished.reads
  have houtputs := hfinished.outputs
  rw [hout] at hreads houtputs
  refine ⟨hgrow.leave, hs.leave hgrow hu hreads, houtputs, fun t ht => ?_⟩
  obtain ⟨u', hy, hu'⟩ := hcopy t.inner ht.inner
  exact ⟨t.leave u', gives_enclosed.2 ⟨u', hy, rfl⟩, ht.leave hu'⟩

/-- **An instance is elaborated alike in the copy.** -/
theorem sim_instantiate {callees callees' : List Callee} (hc : List.Forall₂ ρ.Follows callees callees')
    (m : Module) {outer outer' : List String} (ho : outer ≠ []) (ho' : outer' ≠ []) {args : List Wire}
    (hargs : ∀ w ∈ args, w.All (ρ.KnownAt s)) :
    ρ.Sim s (instantiate callees m outer args) (instantiate callees' m outer' (args.map ρ.wire))
      ρ.ofInstance fun s' i => ∀ o ∈ i.outputs, o.2.All (ρ.KnownAt s') := by
  obtain ⟨c, outer, rfl⟩ := List.exists_cons_of_ne_nil ho
  obtain ⟨c', outer', rfl⟩ := List.exists_cons_of_ne_nil ho'
  rw [instantiate_cons, instantiate_cons]
  refine (sim_note _ _).bind fun _ s₁ h₁ _ => ?_
  have hb : ρ.Bodies ⟨m, m.name :: c :: outer, callees⟩ ⟨m, m.name :: c' :: outer', callees'⟩ :=
    ⟨rfl, List.cons_ne_nil _ _, List.cons_ne_nil _ _, hc⟩
  exact sim_enclosed (sim_innerBody hb fun w hw => (hargs w hw).imp h₁.known)

theorem follows_recursive (m : Module) : ρ.Follows (Callee.recursive m) (Callee.recursive m) :=
  ⟨rfl, rfl, fun _ _ _ _ _ _ _ _ => Sim.throw⟩

theorem follows_ofModule {earlier earlier' : List Callee} (h : List.Forall₂ ρ.Follows earlier earlier')
    (m : Module) : ρ.Follows (Callee.ofModule earlier m) (Callee.ofModule earlier' m) := by
  refine ⟨rfl, rfl, fun s chain chain' args hchain hchain' _ hargs => ?_⟩
  refine (sim_instantiate (.cons (follows_recursive m) h) m hchain hchain' hargs).bind fun i _ _ hi => ?_
  exact Sim.pure rfl hi

end Renaming

/-! ## Naming the wires of a body -/

/-- Only slots and reports are new. -/
def OnlySlots (s s' : State) : Prop := ∃ extra log, s' = { s with slots := s.slots ++ extra, log := log }

section Locals

variable {scope : Scope Signal} {s s' t : State} {b : Body}

theorem OnlySlots.refl (s : State) : OnlySlots s s := ⟨#[], s.log, by rw [Array.append_empty]⟩

theorem OnlySlots.trans (h : OnlySlots s s') (h' : OnlySlots s' t) : OnlySlots s t := by
  obtain ⟨extra, log, rfl⟩ := h
  obtain ⟨extra', log', rfl⟩ := h'
  exact ⟨extra ++ extra', log', by rw [Array.append_assoc]⟩

theorem onlySlots_note {e : Event} {u : Unit} (h : Gives (note e) s u s') : OnlySlots s s' :=
  ⟨#[], e :: s.log, by rw [gives_note.1 h, Array.append_empty]⟩

theorem onlySlots_materialize {x : Signal} {want : Option Nat} {w : Wire}
    (h : Gives (materialize b scope x want) s w s') : OnlySlots s s' := by
  unfold materialize at h
  split at h
  · rw [(gives_pure.1 h).2]; exact OnlySlots.refl s
  · rw [(gives_pure.1 h).2]; exact OnlySlots.refl s
  · obtain ⟨_, s₁, hnote, h⟩ := gives_bind.1 h
    rw [(gives_pure.1 h).2]
    exact onlySlots_note hnote
  · rw [(gives_pure.1 h).2]; exact OnlySlots.refl s
  · rw [(gives_pure.1 h).2]; exact OnlySlots.refl s
  · exact ⟨_, s.log, (Renaming.gives_readForward.1 h).2.2⟩

theorem onlySlots_wiresOf {name : String} {x : Signal} {r : List (String × Wire)}
    (h : Gives (wiresOf b scope name x) s r s') : OnlySlots s s' := by
  unfold wiresOf at h
  split at h
  · rw [(gives_pure.1 h).2]; exact OnlySlots.refl s
  · rw [(gives_pure.1 h).2]; exact OnlySlots.refl s
  · obtain ⟨w, s₁, hwire, h⟩ := gives_bind.1 h
    rw [(gives_pure.1 h).2]
    exact onlySlots_materialize hwire

theorem onlySlots_locals {xs : List (String × Signal)} {r : List (String × Wire)}
    (h : Gives (locals b scope xs) s r s') : OnlySlots s s' := by
  induction xs generalizing s r with
  | nil => rw [(gives_pure.1 h).2]; exact OnlySlots.refl s
  | cons x xs ih =>
    rw [locals_cons] at h
    obtain ⟨here, s₁, hhere, h⟩ := gives_bind.1 h
    obtain ⟨rest, s₂, hrest, h⟩ := gives_bind.1 h
    obtain ⟨-, rfl⟩ := gives_pure.1 h
    exact (onlySlots_wiresOf hhere).trans (ih hrest)

end Locals

/-- Slots that are opened behind a body do not change what becomes of it. -/
theorem settled_append {ρ : Renaming} {scope : Scope Signal} {s : State} (hscope : scope.All (ρ.KnownAt s))
    {b : Bit} (hb : ρ.KnownAt s b) (extra : Array ForwardSlot) (log : List Event) :
    settled scope { s with slots := s.slots ++ extra, log := log } b = settled scope s b := by
  have hsize := size_directBits scope s
  have hdirect : directBits scope { s with slots := s.slots ++ extra, log := log } =
      directBits scope s ++ extra.map (finalBit scope) := Array.map_append
  rw [settled, settled, hdirect]
  refine resolve_append ?_ ?_
  · rw [hsize]
    exact fun c hc => (Renaming.known_directBits hscope c hc).slotBelow
  · rw [hsize]
    exact hb.slotBelow

/-- **Naming the wires of a body** makes no difference to its nodes and outputs. -/
theorem innerBody_of_outerBody {ρ : Renaming} {b b' : Body} (hb : ρ.Bodies b b') {s s' : State}
    (hs : ρ.Sound s) {args : List Wire} (hargs : ∀ w ∈ args, w.All (ρ.KnownAt s)) {r : Instance}
    (h : Gives (outerBody b args) s r s') :
    ∃ t, Gives (innerBody b args) s ⟨r.outputs, []⟩ t ∧ t.nodes = s'.nodes ∧ t.nextId = s'.nextId := by
  obtain ⟨scope, s₁, hassign, h⟩ := gives_bind.1 h
  obtain ⟨outs, s₂, houtputs, h⟩ := gives_bind.1 h
  obtain ⟨locs, s₃, hlocals, h⟩ := gives_bind.1 h
  obtain ⟨-, hs₁, hscope, -⟩ := Renaming.sim_assignAll hb _ (Renaming.all_start hargs _) hs scope s₁ hassign
  have hsim : ρ.Sim s₁ (outputs b scope b.module.outputs)
      (outputs b' (ρ.scope scope) b.module.outputs) ρ.wires
      fun s' outs => ∀ o ∈ outs, o.2.All (ρ.KnownAt s') := Renaming.sim_outputs _ hscope
  obtain ⟨hgrow, hs₂, houts, -⟩ := hsim hs₁ outs s₂ houtputs
  have hscope₂ := hscope.imp hgrow.known
  obtain ⟨extra, log, rfl⟩ := onlySlots_locals hlocals
  obtain ⟨log', h'⟩ := gives_resolveForwards (b := b) (noneDangling_of_gives h)
  obtain ⟨rfl, rfl⟩ := h.unique h'
  -- without the names of its wires even less can dangle
  have hnone : NoneDangling scope s₂ ⟨outs, []⟩ :=
    ⟨fun b hb => (Renaming.known_directBits hscope₂ b hb).slotBelow,
      fun n hn => (hs₂.reads n hn).imp fun _ h => h.slotBelow,
      fun o ho => (houts o ho).imp fun _ h => h.slotBelow, nofun⟩
  obtain ⟨log'', hresolve⟩ := gives_resolveForwards (b := b) hnone
  refine ⟨{ s₂ with nodes := settledNodes scope s₂, log := log'' },
    gives_bind.2 ⟨scope, s₁, hassign, gives_bind.2 ⟨outs, s₂, houtputs, ?_⟩⟩, ?_, rfl⟩
  · have houtputs : (Instance.settle scope { s₂ with slots := s₂.slots ++ extra, log := log }
        ⟨outs, locs⟩).outputs = (Instance.settle scope s₂ ⟨outs, []⟩).outputs := by
      simp only [Instance.settle]
      refine List.map_congr_left fun o ho => ?_
      rw [Wire.map_congr ((houts o ho).imp fun _ h => settled_append hscope₂ h extra log)]
    rw [houtputs]
    exact hresolve
  · simp only [settledNodes]
    refine Array.map_congr_left fun n hn => ?_
    rw [Cell.map_congr ((hs₂.reads n hn).imp fun _ h => settled_append hscope₂ h extra log)]

end Elaboration

end NandHdl
