import NandHdl.Proofs.Foretelling

/-!
# Names that are read early

A name that is read before it is assigned stands for what it is at the end of the
body.

* `Prophecy.ofEnd`: the end of an outermost body, known beforehand.
* `leads_of_final`, `final_of_leads`: a bit of a name in the end is the end of a chain of slots.
* `netlists_foreseen`: **every netlist of a compiled design is the one that foresight gives.**
* `overtaken_reads`: where it is used under another name between two assignments, it stands for the first.
-/

namespace NandHdl

open Relation

namespace Elaboration

/-! ## The end of a body -/

section End

variable {scope : Scope Signal} {s : State} {inst : Instance} {c : Bit}

/-- No slot is left at the end of an outermost body. -/
theorem settled_below (hbase : s.slotBase = 0) (c : Bit) : (settled scope s c).slotBelow 0 := by
  rw [settled, hbase]
  exact slotBelow_resolve 0 _ c

theorem settled_of_below (hbase : s.slotBase = 0) (h : c.slotBelow 0) : settled scope s c = c := by
  rw [settled, hbase, resolve_eq_chase, chase_end h]
  rfl

/-- A slot becomes what the bit becomes for which it stands. -/
theorem settled_slot (hbase : s.slotBase = 0) (h : ∀ c ∈ directBits scope s, c.slotBelow s.limit) {k : Nat}
    {x : ForwardSlot} (hk : s.slots[k]? = some x) :
    settled scope s (.forward k) = settled scope s (finalBit scope x) := by
  have hslot : (directBits scope s)[k]? = some (finalBit scope x) := directBits_of_slot hk
  rw [← size_directBits scope s, hbase] at h
  have hb := h _ (Array.mem_of_getElem? hslot)
  rw [settled, hbase, resolve_eq_chase, resolve_eq_chase, chase_succ (Nat.zero_le k), Nat.sub_zero,
    Array.getD_eq_getD_getElem?, hslot, Option.getD_some]
  -- one step less of fuel is enough, too
  have hless := chase_eq h hb (Nat.le_add_right _ 1)
  have hmore := chase_eq h hb (Nat.le_add_right _ 2)
  rw [hless, hmore]

/-- **The end of an outermost body, known beforehand.** -/
def Prophecy.ofEnd (scope : Scope Signal) (s : State) (hbase : s.slotBase = 0)
    (h : ∀ c ∈ directBits scope s, c.slotBelow s.limit) : Prophecy where
  last := scope
  slots := s.slots
  bit := settled scope s
  kept _ hc := settled_of_below hbase hc
  settles := settled_below hbase
  slot _ _ hk := settled_slot hbase h hk

/-- What a name is bound to in the end is so for every name that leads to it. -/
theorem Final.of_reaches {slots : Array ForwardSlot} {name next : String} {i : Nat}
    (h : ReflTransGen scope.Step (.forward name) (.forward next)) (hnext : Final scope slots next i c) :
    Final scope slots name i c := by
  generalize hx : Signal.forward name = x at h
  induction h using ReflTransGen.head_induction_on generalizing name with
  | refl =>
    cases hx
    exact hnext
  | @head x y hstep hrest ih =>
    obtain ⟨other, rfl, hy⟩ := hstep
    cases hx
    rcases ReflTransGen.cases_head hrest with rfl | ⟨_, ⟨other, rfl, -⟩, -⟩
    · exact .name hy hnext
    · exact .name hy (ih rfl)

/-- A name that is followed to no name leads to one that is bound to what is found. -/
theorem exists_bound {name : String} {y : Signal} (h : follow scope (.forward name) = y)
    (hy : ∀ next, y ≠ .forward next) :
    ∃ last, ReflTransGen scope.Step (.forward name) (.forward last) ∧ scope.lookup last = some y := by
  have hreaches := h ▸ follow_reaches scope (.forward name)
  rcases ReflTransGen.cases_tail hreaches with hname | ⟨z, hz, last, rfl, hlast⟩
  · exact absurd hname (hy name)
  · exact ⟨last, hz, hlast⟩

theorem finalBit_of_bound {name : String} {x : Signal} (hx : scope.lookup name = some x)
    (hne : ∀ next, x ≠ .forward next) (i : Nat) : finalBit scope ⟨name, i⟩ = x.bitOrZero i := by
  rw [finalBit, follow_of_reaches (.single ⟨name, rfl, hx⟩) hne]

/-- What a bit of a name is in the end is the end of its chain. -/
theorem leads_of_final {name : String} {i : Nat} (h : Final scope s.slots name i c) :
    Leads (directBits scope s) (finalBit scope ⟨name, i⟩) c := by
  induction h with
  | bit hx hne hc hend =>
    rw [finalBit_of_bound hx hne, hc]
    exact .here hend
  | slot hx hne hc hk _ ih =>
    rw [finalBit_of_bound hx hne, hc]
    exact .next (directBits_of_slot hk) ih
  | @name name next i c hx _ ih =>
    rw [finalBit, bitOrZero_follow (.single ⟨name, rfl, hx⟩) i]
    exact ih

/-- The end of the chain of a bit is what it is in the end, or else it is 0. -/
theorem final_of_leads {name : String} {i : Nat}
    (h : Leads (directBits scope s) (finalBit scope ⟨name, i⟩) c) :
    Final scope s.slots name i c ∨ c = .const false := by
  generalize hb : finalBit scope ⟨name, i⟩ = b at h
  induction h generalizing name i with
  | @here b hend =>
    rw [finalBit] at hb
    rcases (follow scope (.forward name)).forward_or_ne with ⟨other, hother⟩ | hne
    · rw [hother] at hb
      exact .inr hb.symm
    · obtain ⟨last, hlast, hbound⟩ := exists_bound rfl hne
      exact .inl (.of_reaches hlast (.bit hbound hne hb hend))
  | @next k b c hk _ ih =>
    rw [directBits, Array.getElem?_map] at hk
    obtain ⟨slot, hslot, rfl⟩ := Option.map_eq_some_iff.1 hk
    rw [finalBit] at hb
    rcases (follow scope (.forward name)).forward_or_ne with ⟨other, hother⟩ | hne
    · rw [hother] at hb
      cases hb
    · obtain ⟨last, hlast, hbound⟩ := exists_bound rfl hne
      exact (ih rfl).imp_left fun hfinal => .of_reaches hlast (.slot hbound hne hb hslot hfinal)

/-- What becomes of the bits of names is what they are in the end. -/
theorem finals_ofEnd {ρ : Renaming} (hbase : s.slotBase = 0)
    (h : ∀ c ∈ directBits scope s, c.slotBelow s.limit) (hscope : scope.All (ρ.KnownAt s)) :
    Finals scope s.slots (Prophecy.ofEnd scope s hbase h).final := by
  have hsize := size_directBits scope s
  rw [hbase, Nat.zero_add] at hsize
  have hbit : ∀ name i, (finalBit scope ⟨name, i⟩).slotBelow (directBits scope s).size := fun name i => by
    have hall : (Signal.forward name).All (ρ.KnownAt s) := trivial
    rw [hsize]
    exact ((hall.follow hscope).bitOrZero (Renaming.known_const s) i).slotBelow
  have hsettled : ∀ c, settled scope s c = endOf (directBits scope s) c := fun c => by
    rw [settled, endOf, hbase]
  rw [← hsize] at h
  refine ⟨fun name i d hd => ?_, fun name i hd => (hsettled _).trans ?_⟩
  · exact (hsettled _).trans (endOf_of_leads h (hbit name i) (leads_of_final hd))
  · by_cases hleads : ∃ d, Leads (directBits scope s) (finalBit scope ⟨name, i⟩) d
    · obtain ⟨d, hd'⟩ := hleads
      exact (endOf_of_leads h (hbit name i) hd').trans ((final_of_leads hd').resolve_left (hd d))
    · exact endOf_of_not_leads h (hbit name i) fun d hd' => hleads ⟨d, hd'⟩

end End

/-! ## Designs -/

section Designs

variable {earlier : List Callee} {m : Module} {first : Nat} {n : Netlist} {s s' : State}

theorem Prophecy.wire_eq_self {p : Prophecy} {w : Wire} (h : w.All fun c => p.bit c = c) : p.wire w = w := by
  rw [wire, Wire.map_congr (g := fun c => c) h, Wire.map, Array.map_id']

theorem Prophecy.signal_eq_self {p : Prophecy} {x : Signal} (h : x.All fun c => p.bit c = c) :
    p.signal x = x := by
  cases x with
  | wire w => exact congrArg Signal.wire (wire_eq_self h)
  | bundle fields =>
    have hfields : p.wires fields = fields := by
      refine Eq.trans (List.map_congr_left fun e he => ?_) (List.map_id' fields)
      exact Prod.ext rfl (wire_eq_self (h e he))
    exact congrArg Signal.bundle hfields
  | _ => rfl

/-- What is made of bits that nothing becomes of stays as it is. -/
theorem Prophecy.scope_eq_self {p : Prophecy} {scope : Scope Signal} (h : scope.All fun c => p.bit c = c) :
    p.scope scope = scope := by
  obtain ⟨bs⟩ := scope
  refine congrArg Scope.mk (Eq.trans (List.map_congr_left fun e he => ?_) (List.map_id' bs))
  exact Prod.ext rfl (signal_eq_self (h e he))

/-- What a body may call copies netlists or refuses. -/
theorem copying_visible (hcalls : ∀ c ∈ earlier, c.Copying) (m : Module) :
    ∀ c ∈ visibleFrom earlier m, c.Copying :=
  List.forall_mem_cons.2 ⟨.refuses fun _ _ _ _ _ => not_gives_throw, hcalls⟩

/-- **The netlist of a run whose end is foretold** is given with foresight. -/
theorem gives_foretold {p : Prophecy} {ρ : Renaming} {s₁ s₂ : State} {outs locs : List (String × Wire)}
    (hb : ρ.Bodies ⟨m, [m.name], visibleFrom earlier m⟩ ⟨m, [m.name], visibleFrom earlier m⟩)
    (hcalls : ∀ c ∈ earlier, c.Copying)
    (hs : ρ.SoundWith (argumentScope .empty m.inputs (inputWires 0 m.inputs)) (State.outermost first m).inner)
    (hassign : Gives (assignAll ⟨m, [m.name], visibleFrom earlier m⟩
      (argumentScope .empty m.inputs (inputWires 0 m.inputs)) m.statements)
      (State.outermost first m).inner p.last s₁)
    (houts : Gives (outputs ⟨m, [m.name], visibleFrom earlier m⟩ p.last m.outputs) s₁ outs s₂)
    (hlocs : Gives (locals ⟨m, [m.name], visibleFrom earlier m⟩ p.last p.last.latest) s₂ locs s)
    (hslots : p.slots = s.slots) :
    ∃ t, Gives (Foresight.netlist p.final earlier m) (State.initial first)
      ⟨m.name, m.inputs, m.outputs.zip ((p.wires outs).map Prod.snd), s.nodes.map p.node,
        ((NameTable.empty.insertAll ((m.inputs.map Port.name).zip (inputWires 0 m.inputs))).insertAll
          (p.wires locs)).insertAll (p.wires outs)⟩ t := by
  have hknows : p.Knows ⟨p.final, []⟩ p.last := ⟨rfl, fun _ _ hx _ => hx⟩
  obtain ⟨-, hfore⟩ := Prophecy.foretold_assignAll hb (copying_visible hcalls m) m.statements hs hassign
  obtain ⟨honly₂, houts⟩ := Prophecy.shows_outputs hknows m.outputs outs s₂ houts
  obtain ⟨honly₃, hlocs⟩ := Prophecy.shows_locals hknows p.last.latest locs s hlocs
  have hend : StayOpen s.slots p.slots := hslots ▸ StayOpen.refl _
  have hkept : StayOpen s₁.slots p.slots := honly₂.kept.trans (honly₃.kept.trans hend)
  obtain ⟨t, hrun, ht⟩ := hfore hkept (State.initial first) ⟨rfl, rfl, Array.map_empty.symm⟩
  have houts := houts ht.base (honly₃.kept.trans hend)
  have hlocs := hlocs (honly₂.slotBase.trans ht.base) hend
  -- the inputs are no slots, so the body starts alike
  have hstart : p.scope (argumentScope .empty m.inputs (inputWires 0 m.inputs)) =
      argumentScope .empty m.inputs (inputWires 0 m.inputs) := by
    have hinputs : ∀ w ∈ inputWires 0 m.inputs, w.All fun c => p.bit c = c := fun w hw => by
      refine (mem_inputWires hw).imp ?_
      rintro _ ⟨i, -, rfl⟩
      exact p.kept _ rfl
    exact Prophecy.scope_eq_self (Renaming.all_argumentScope (P := fun c => p.bit c = c) (p.kept _ rfl) _
      Scope.all_empty hinputs)
  rw [hstart] at hrun
  refine ⟨t, gives_bind.2 ⟨_, t, hrun, gives_bind.2 ⟨t, t, gives_get.2 ⟨rfl, rfl⟩, gives_pure.2 ⟨?_, rfl⟩⟩⟩⟩
  have hlatest : (p.scope p.last).latest = p.last.latest.map fun e => (e.1, p.signal e.2) :=
    Scope.latest_map p.signal p.last
  rw [houts, hlocs, hlatest, ((ht.onlySlots honly₂).onlySlots honly₃).nodes]

/-- **The netlist of a module is the one that foresight gives**, if all that it calls copies netlists. -/
theorem foreseen_of_netlist (hc : ∀ ρ : Renaming, List.Forall₂ ρ.Follows earlier earlier)
    (hcalls : ∀ c ∈ earlier, c.Copying) (h : Gives (netlist earlier m) (State.initial first) n s') :
    Foreseen earlier m first n := by
  obtain ⟨i, t, hbody, rfl, -⟩ := outerBody_of_netlist h
  obtain ⟨ρ, hfirst, hwidth⟩ := exists_renaming first (m.inputs.map Port.width).sum
  have hb := bodies_visible (hc ρ) m (List.cons_ne_nil m.name []) (List.cons_ne_nil m.name [])
  have hs : ρ.Sound (State.outermost first m).inner := sound_outermost hfirst
  have hstart := Renaming.all_start (known_inputWires (s := (State.outermost first m).inner) hwidth) m.inputs
  rw [outerBody_eq] at hbody
  obtain ⟨⟨scope, inst⟩, s₃, hopen, hresolve⟩ := gives_bind.1 hbody
  obtain ⟨_, s₁, hassign, hrest⟩ := gives_bind.1 hopen
  obtain ⟨outs, s₂, houts, hrest⟩ := gives_bind.1 hrest
  obtain ⟨locs, _, hlocs, hrest⟩ := gives_bind.1 hrest
  obtain ⟨heq, rfl⟩ := gives_pure.1 hrest
  cases heq
  -- the end of the body is sound, and it is that of an outermost one
  obtain ⟨hgrow₁, hs₁, hknown₁, -⟩ := Renaming.sim_assignAll hb m.statements hstart hs scope s₁ hassign
  have hsimOuts : ρ.Sim s₁ (outputs ⟨m, [m.name], visibleFrom earlier m⟩ scope m.outputs)
      (outputs ⟨m, [m.name], visibleFrom earlier m⟩ (ρ.scope scope) m.outputs) ρ.wires _ :=
    Renaming.sim_outputs m.outputs hknown₁
  obtain ⟨hgrow₂, -⟩ := hsimOuts hs₁ outs s₂ houts
  have hgrow₃ := (onlySlots_locals hlocs).grows
  have hbase : s₃.slotBase = 0 := hgrow₃.slotBase.trans (hgrow₂.slotBase.trans hgrow₁.slotBase)
  have hknown₃ := (hknown₁.imp hgrow₂.known).imp hgrow₃.known
  have hnone := noneDangling_of_gives hresolve
  obtain ⟨log, hlog⟩ := gives_resolveForwards (b := ⟨m, [m.name], visibleFrom earlier m⟩) hnone
  obtain ⟨rfl, rfl⟩ := hresolve.unique hlog
  obtain ⟨t, ht⟩ := gives_foretold (p := Prophecy.ofEnd scope s₃ hbase hnone.direct) hb hcalls ⟨hs, hstart⟩
    hassign houts hlocs rfl
  exact ⟨scope, ⟨outs, locs⟩, s₃, _, t, hopen, finals_ofEnd hbase hnone.direct hknown₃, ht⟩

variable {l : Ledger} {ms : List Module} {lib : Library}

theorem exists_netlist (h : (l.compile ms).result = .ok lib) {k : Nat} (hm : ms[k]? = some m) :
    ∃ n, lib.netlists[k]? = some n := by
  have hlt := (List.getElem?_eq_some_iff.1 hm).1
  rw [(Ledger.netlists_wellFormed h).2.length_eq] at hlt
  exact ⟨_, List.getElem?_eq_getElem hlt⟩

/-- The instances of the modules before the `k`-th are copies of their netlists. -/
theorem copying_calleesOf (h : (l.compile ms).result = .ok lib) (k : Nat) :
    ∀ c ∈ calleesOf (ms.take k).reverse, c.Copying := by
  induction k with
  | zero => exact List.forall_mem_nil _
  | succ k ih =>
    rw [List.take_add_one]
    cases hd : ms[k]? with
    | none => rwa [Option.toList_none, List.append_nil]
    | some d =>
      rw [Option.toList_some, List.reverse_append]
      obtain ⟨n, hn⟩ := exists_netlist h hd
      have hfaithful := instances_are_copies h hd hn
      obtain ⟨s, hs⟩ := hfaithful.own
      obtain ⟨hclosed, -⟩ := closed_of_netlist (fun ρ => follows_calleesOf ρ _) hs
      obtain ⟨-, -, -, hinputs, -⟩ := gives_netlist hs
      exact List.forall_mem_cons.2 ⟨.copies hinputs hclosed hfaithful.pastes, ih⟩

/-- **Names that are read early stand for what they are in the end.** The netlist of every module of a
compiled design is the one that elaboration gives which takes the final bits of such a name wherever it is read:
as it is or in part, under its own name or another one, and whatever is assigned before, between and after. The
one exception are reads under another name while a name behind it is bound already and not for the last time. -/
theorem netlists_foreseen (h : (l.compile ms).result = .ok lib) {k : Nat} (hm : ms[k]? = some m) :
    ∃ n, lib.netlists[k]? = some n ∧ Foreseen (calleesOf (ms.take k).reverse) m
      (l.nextId + nodeCount (lib.netlists.take k).reverse) n := by
  obtain ⟨n, hn⟩ := exists_netlist h hm
  obtain ⟨s, hs⟩ := (instances_are_copies h hm hn).own
  exact ⟨n, hn, foreseen_of_netlist (fun ρ => follows_calleesOf ρ _) (copying_calleesOf h k) hs⟩

/-- A module that reads a name early, as it is, in part and under another name, and only then assigns it, as a
whole and in part. Its last name is defined in terms of itself. -/
def hasty : Module :=
  ⟨"Hasty", [⟨"a", 2⟩, ⟨"b", 1⟩], [⟨"out", 2⟩],
    [⟨⟨"y", none⟩, .identifier "x"⟩,
      ⟨⟨"p", none⟩, .call "nand" [.identifier "x", .identifier "a"]⟩,
      ⟨⟨"q", none⟩, .call "Not" [.select (.identifier "x") (.bit 0)]⟩,
      ⟨⟨"x", none⟩, .identifier "a"⟩,
      ⟨⟨"x", some (.bit 0)⟩, .identifier "b"⟩,
      ⟨⟨"out", none⟩, .call "nand" [.identifier "y", .identifier "p"]⟩,
      ⟨⟨"z", none⟩, .call "nand" [.select (.identifier "loop") (.bit 0), .identifier "b"]⟩,
      ⟨⟨"loop", none⟩, .select (.identifier "loop") (.bit 0)⟩]⟩

theorem hasty_cells : ((Ledger.compile {} [inverter, hasty]).result.toOption.map fun lib =>
    lib.netlists.map fun n => n.nodes.map Node.cell) =
    some [#[.nand (.input 0) (.input 0)],
      #[.nand (.input 2) (.input 0), .nand (.input 1) (.input 1), .nand (.input 2) (.input 2),
        .nand (.input 2) (.node 1), .nand (.input 1) (.node 2), .nand (.const false) (.input 2)]] := by
  decide +kernel

theorem hasty_foreseen : ∃ lib n, (Ledger.compile {} [inverter, hasty]).result = .ok lib ∧
    [inverter, hasty][1]? = some hasty ∧ lib.netlists[1]? = some n ∧
    Foreseen (calleesOf ([inverter, hasty].take 1).reverse) hasty
      (0 + nodeCount (lib.netlists.take 1).reverse) n := by
  have hcells := hasty_cells
  cases h : (Ledger.compile {} [inverter, hasty]).result with
  | error e =>
    rw [h] at hcells
    cases hcells
  | ok lib =>
    obtain ⟨n, hn, hforeseen⟩ := netlists_foreseen h (k := 1) rfl
    exact ⟨lib, n, rfl, rfl, hn, hforeseen⟩

/-- A module that uses another name of `x` between two assignments of it. -/
def overtaken : Module :=
  ⟨"Overtaken", [⟨"a", 1⟩, ⟨"b", 1⟩], [⟨"out", 1⟩],
    [⟨⟨"y", none⟩, .identifier "x"⟩,
      ⟨⟨"x", none⟩, .identifier "a"⟩,
      ⟨⟨"out", none⟩, .call "nand" [.identifier "y", .identifier "y"]⟩,
      ⟨⟨"x", none⟩, .identifier "b"⟩]⟩

/-- **The exception is real.** In the end `x` and `y` are the input `b`, but the gate reads `a`. -/
theorem overtaken_reads : ((Ledger.compile {} [overtaken]).result.toOption.map fun lib =>
    lib.netlists.map fun n => (n.nodes.map Node.cell, n.signal? "x", n.signal? "y")) =
    some [(#[.nand (.input 0) (.input 0)], some ⟨#[.input 1]⟩, some ⟨#[.input 1]⟩)] := by
  decide +kernel

end Designs

end Elaboration

end NandHdl
