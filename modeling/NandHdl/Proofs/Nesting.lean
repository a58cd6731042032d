import NandHdl.Proofs.Extending

/-!
# How deep instances nest

Another way to elaborate a design looks every callee up in the whole design, the calling module and all later ones
included, and relies on two checks to come to an end: a module sees none behind itself, and no module is opened
inside itself. It is bounded in its depth, and what happens past the bound, or where an instance would not stand
before the one around it in the design, is left open.

* `Nesting.Descending`: the open instances stand before each other in the design.
* `Nesting.openAt`: an instance, with its callees looked up in the whole design.
* `Nesting.compile`: the outcome for a design.
* `Alike`: two bodies that call the same. `expr_congr`, `instantiate_congr`: they are elaborated alike.
* `Nesting.openAt_eq`: instances of either kind are the same.
* `Nesting.compile_eq`: **nothing is left open in any design.**
-/

namespace NandHdl

namespace Elaboration

/-- The netlist of a module, given all that its body may call. -/
def netlistOf (callees : List Callee) (m : Module) : Build Netlist := do
  let wires := inputWires 0 m.inputs
  let inst ← instantiate callees m [] wires
  let inputs := (m.inputs.map Port.name).zip wires
  return {
    name := m.name
    inputs := m.inputs
    outputs := m.outputs.zip (inst.outputs.map Prod.snd)
    nodes := (← get).nodes
    signals := ((NameTable.empty.insertAll inputs).insertAll inst.locals).insertAll inst.outputs }

namespace Nesting

/-- An instance of a module, given the open instances, innermost first, and the arguments. -/
abbrev Opening := Module → List String → List Wire → Build (List (String × Wire))

/-- The place in the design of the module of a name. -/
def placeOf (ms : List Module) (name : String) : Nat := ms.findIdx (·.name = name)

/-- Each open instance stands in the design before the one around it, and there are no more of them than modules. -/
structure Descending (ms : List Module) (chain : List String) : Prop where
  places : (chain.map (placeOf ms)).Pairwise (· < ·)
  length : chain.length ≤ ms.length

instance (ms : List Module) (chain : List String) : Decidable (Descending ms chain) :=
  decidable_of_iff ((chain.map (placeOf ms)).Pairwise (· < ·) ∧ chain.length ≤ ms.length)
    ⟨fun h => ⟨h.1, h.2⟩, fun h => ⟨h.1, h.2⟩⟩

variable (ms : List Module) (beyond : Opening)

/-- What a body at a place may call: the modules of the design up to that place. -/
def visibleAt (opens : Nat → Opening) (place : Nat) : List Callee :=
  (ms.take (place + 1)).mapIdx fun i d => ⟨d.name, d.inputs, opens i d⟩

/-- An instance of the module at a place, at most `depth` deep. A module is not opened inside itself. What happens if
the instances around it are not as they should be, if a module is open that is not innermost, or if the depth is used
up, is anyone's guess. -/
def openAt : Nat → Nat → Opening
  | 0, _, d, chain, args => beyond d chain args
  | depth + 1, place, d, chain, args =>
    if d.name ∈ chain then
      if chain.head? = some d.name then throw (.recursiveInstantiation (d.name :: chain).reverse)
      else beyond d chain args
    else if Descending ms (d.name :: chain) then do
      return (← instantiate (visibleAt ms (openAt depth) place) d chain args).outputs
    else beyond d chain args

/-- Elaborates modules in order, the first of which is at a place. -/
def compileFrom : Nat → Nat → List Module → Outcome (List Netlist)
  | _, nextId, [] => ⟨.ok [], nextId, []⟩
  | place, nextId, d :: ds =>
    match (netlistOf (visibleAt ms (openAt ms beyond ms.length) place) d).run (State.initial nextId) with
    | (.error e, s) => ⟨.error e, nextId, s.log.reverse⟩
    | (.ok n, s) =>
      let report := Event.compiled d.name n.nodes.size nextId s.nextId
      let rest := compileFrom (place + 1) s.nextId ds
      ⟨rest.result.map (n :: ·), rest.nextId, s.log.reverse ++ report :: rest.log⟩

/-- Compiles a design. -/
def compile (l : Ledger) : Ledger.Outcome :=
  match checkDesign ms with
  | .error e => ⟨.error e, l, []⟩
  | .ok () =>
    let r := compileFrom ms beyond 0 l.nextId ms
    ⟨r.result.map Library.mk, ⟨r.nextId⟩, r.log⟩

end Nesting

/-! ## Bodies that call the same -/

/-- What a body does with a call of a name: the ports, and the instance for given arguments. -/
def Body.calls (b : Body) (name : String) : Option (List Port × (List Wire → Build (List (String × Wire)))) :=
  (b.callee? name).map fun c => (c.inputs, c.instantiate b.chain)

/-- Two bodies of one module inside the same instances that do the same with every call. -/
structure Alike (b b' : Body) : Prop where
  module : b'.module = b.module
  chain : b'.chain = b.chain
  calls : ∀ name, b'.calls name = b.calls name

section Congruence

variable {b b' : Body}

/-- Expressions and argument lists. -/
theorem expr_arguments_congr (h : Alike b b') (scope : Scope Signal) :
    (∀ want e, expr b' scope want e = expr b scope want e) ∧
      ∀ ps as, arguments b' scope ps as = arguments b scope ps as := by
  obtain ⟨m, chain, cs⟩ := b
  obtain ⟨m', chain', cs'⟩ := b'
  obtain ⟨rfl, rfl, hcalls⟩ := h
  -- the induction is on expressions and argument lists at once, one case for each equation
  apply expr.mutual_induct ⟨m', chain', cs⟩
  case case1 =>
    intro want name
    rw [expr, expr]
    rfl
  case case2 =>
    intro want value
    rw [expr, expr]
  case case3 =>
    intro want x y hx hy
    rw [expr, expr, hx, hy]
    rfl
  case case4 =>
    intro want args hargs
    rw [expr.eq_4 _ scope want args hargs, expr.eq_4 _ scope want args hargs]
  case case5 =>
    intro want d clk hd hclk
    rw [expr, expr, hd, hclk]
    rfl
  case case6 =>
    intro want args hargs
    rw [expr.eq_6 _ scope want args hargs, expr.eq_6 _ scope want args hargs]
  case case7 =>
    intro want name args hnand hdff hnone
    have hcall := hcalls name
    rw [Body.calls, Body.calls, hnone, Option.map_none, Option.map_eq_none_iff] at hcall
    rw [expr.eq_7 _ scope want name args hnand hdff, expr.eq_7 _ scope want name args hnand hdff, hnone, hcall]
  case case8 =>
    intro want name args hnand hdff c hc ih
    have hcall := hcalls name
    rw [Body.calls, Body.calls, hc, Option.map_some, Option.map_eq_some_iff] at hcall
    obtain ⟨c', hc', heq⟩ := hcall
    obtain ⟨hinputs, hinstantiate⟩ := Prod.mk.inj heq
    rw [expr.eq_7 _ scope want name args hnand hdff, expr.eq_7 _ scope want name args hnand hdff, hc, hc']
    dsimp only at hinstantiate ⊢
    rw [hinputs, hinstantiate, ih]
  case case9 =>
    intro want object name ih
    rw [expr, expr, ih]
  case case10 =>
    intro want object r ih
    rw [expr, expr, ih]
    rfl
  case case11 =>
    intro p ps a as ha has
    rw [arguments, arguments, ha, has]
    rfl
  case case12 =>
    intro as ps hne
    rw [arguments.eq_2 _ scope ps as hne, arguments.eq_2 _ scope ps as hne]

theorem assign_congr (h : Alike b b') (scope : Scope Signal) (st : Statement) :
    assign b' scope st = assign b scope st := by
  have hexpr := (expr_arguments_congr h scope).1
  obtain ⟨m, chain, cs⟩ := b
  obtain ⟨m', chain', cs'⟩ := b'
  obtain ⟨rfl, rfl, -⟩ := h
  simp only [assign, hexpr]
  rfl

theorem assignAll_congr (h : Alike b b') (sts : List Statement) : ∀ scope,
    assignAll b' scope sts = assignAll b scope sts := by
  induction sts with
  | nil => exact fun _ => rfl
  | cons st sts ih =>
    intro scope
    rw [assignAll, assignAll, assign_congr h]
    exact bind_congr ih

section Ends

variable {m : Module} {chain : List String} (cs cs' : List Callee) (scope : Scope Signal)

theorem outputs_congr (ps : List Port) : outputs ⟨m, chain, cs'⟩ scope ps = outputs ⟨m, chain, cs⟩ scope ps := by
  induction ps with
  | nil => rfl
  | cons p ps ih =>
    rw [outputs_cons, outputs_cons, ih]
    rfl

theorem locals_congr (xs : List (String × Signal)) :
    locals ⟨m, chain, cs'⟩ scope xs = locals ⟨m, chain, cs⟩ scope xs := by
  induction xs with
  | nil => rfl
  | cons x xs ih =>
    rw [locals_cons, locals_cons, ih]
    rfl

end Ends

/-- **An instance depends on what is called** and not on how it is found. -/
theorem instantiate_congr {cs cs' : List Callee} {m : Module} {outer : List String}
    (h : Alike ⟨m, m.name :: outer, cs⟩ ⟨m, m.name :: outer, cs'⟩) (args : List Wire) :
    instantiate cs' m outer args = instantiate cs m outer args := by
  unfold instantiate
  simp only [assignAll_congr h, outputs_congr cs cs', locals_congr cs cs']
  rfl

theorem netlistOf_congr {cs cs' : List Callee} {m : Module}
    (h : Alike ⟨m, [m.name], cs⟩ ⟨m, [m.name], cs'⟩) : netlistOf cs' m = netlistOf cs m := by
  simp only [netlistOf, instantiate_congr h]

end Congruence

/-! ## Looking callees up -/

/-- Of callees with different names, each is found under its name. -/
theorem find?_callee {cs : List Callee} (hnodup : (cs.map Callee.name).Nodup) {c : Callee} (hc : c ∈ cs) :
    cs.find? (·.name = c.name) = some c := by
  cases hfind : cs.find? (·.name = c.name) with
  | none => exact absurd (decide_eq_true rfl) (List.find?_eq_none.1 hfind c hc)
  | some d =>
    have hname : d.name = c.name := by simpa using List.find?_some hfind
    rw [List.inj_on_of_nodup_map hnodup (List.mem_of_find?_eq_some hfind) hc hname]

theorem map_name_calleesOf (es : List Module) : (calleesOf es).map Callee.name = es.map Module.name := by
  induction es with
  | nil => rfl
  | cons m es ih => rw [calleesOf, tableOf, List.map_cons, List.map_cons, ← calleesOf, ih]; rfl

/-- The modules before a place as a later one sees them. -/
theorem mem_calleesOf_take {ms : List Module} {i : Nat} {d : Module} (hd : ms[i]? = some d) :
    ∀ {place : Nat}, i < place → Callee.ofModule (calleesOf (ms.take i).reverse) d ∈ calleesOf (ms.take place).reverse := by
  intro place hi
  induction place with
  | zero => exact absurd hi (Nat.not_lt_zero i)
  | succ place ih =>
    rw [List.take_add_one]
    rcases Nat.lt_succ_iff_lt_or_eq.1 hi with hlt | rfl
    · cases hm : ms[place]? with
      | none => rw [Option.toList_none, List.append_nil]; exact ih hlt
      | some m =>
        rw [Option.toList_some, List.reverse_append]
        exact List.mem_cons_of_mem _ (ih hlt)
    · rw [hd, Option.toList_some, List.reverse_append]
      exact List.mem_cons_self

namespace Nesting

variable {ms : List Module} {beyond : Opening} {place i : Nat} {m d : Module} {chain : List String}

theorem placeOf_eq (hnodup : (ms.map Module.name).Nodup) (hd : ms[i]? = some d) : placeOf ms d.name = i := by
  obtain ⟨hi, rfl⟩ := List.getElem?_eq_some_iff.1 hd
  rw [placeOf, List.findIdx_eq hi]
  refine ⟨decide_eq_true rfl, fun j hj => decide_eq_false fun heq => ?_⟩
  have hne := List.pairwise_iff_getElem.1 hnodup j i (by rw [List.length_map]; omega) (by rwa [List.length_map]) hj
  rw [List.getElem_map, List.getElem_map] at hne
  exact hne heq

theorem getElem?_visibleAt (opens : Nat → Opening) (hi : i < place + 1) (hd : ms[i]? = some d) :
    (visibleAt ms opens place)[i]? = some ⟨d.name, d.inputs, opens i d⟩ := by
  rw [visibleAt, List.getElem?_mapIdx, List.getElem?_take_of_lt hi, hd]
  rfl

theorem map_name_visibleAt (opens : Nat → Opening) :
    (visibleAt ms opens place).map Callee.name = (ms.take (place + 1)).map Module.name := by
  refine List.ext_getElem? fun i => ?_
  rw [visibleAt, List.getElem?_map, List.getElem?_mapIdx, List.getElem?_map, Option.map_map]
  rfl

/-- A name stands for one of the modules up to a place, or for none that can be called from there. -/
theorem lookup_cases (hm : ms[place]? = some m) (name : String) :
    name = m.name ∨ (∃ i d, i < place ∧ ms[i]? = some d ∧ name = d.name) ∨
      name ∉ (ms.take (place + 1)).map Module.name := by
  by_cases hname : name ∈ (ms.take (place + 1)).map Module.name
  · obtain ⟨d, hd, rfl⟩ := List.mem_map.1 hname
    obtain ⟨i, hi⟩ := List.mem_iff_getElem?.1 hd
    rw [List.getElem?_take] at hi
    split at hi
    · next hlt =>
      rcases Nat.lt_succ_iff_lt_or_eq.1 hlt with hlt | rfl
      · exact .inr (.inl ⟨i, d, hlt, hi, rfl⟩)
      · rw [hm] at hi
        cases hi
        exact .inl rfl
    · cases hi
  · exact .inr (.inr hname)

/-- **Bodies of either kind are alike** if the instances that they may open are, and a call of the module itself is
refused in both. -/
theorem alike_visibleAt (hnodup : (ms.map Module.name).Nodup) (hm : ms[place]? = some m) {opens : Nat → Opening}
    (hself : ∀ args, opens place m chain args = throw (.recursiveInstantiation (m.name :: chain).reverse))
    (hearlier : ∀ i d, i < place → ms[i]? = some d → ∀ args,
      opens i d chain args = (Callee.ofModule (calleesOf (ms.take i).reverse) d).instantiate chain args) :
    Alike ⟨m, chain, visibleFrom (calleesOf (ms.take place).reverse) m⟩ ⟨m, chain, visibleAt ms opens place⟩ := by
  have htake : ms.take (place + 1) = ms.take place ++ [m] := by rw [List.take_add_one, hm]; rfl
  have hnames : ((ms.take (place + 1)).map Module.name).Nodup :=
    hnodup.sublist ((List.take_sublist _ _).map _)
  have hvisible : ((visibleAt ms opens place).map Callee.name).Nodup := by rwa [map_name_visibleAt]
  have hbefore : ((visibleFrom (calleesOf (ms.take place).reverse) m).map Callee.name).Perm
      ((ms.take (place + 1)).map Module.name) := by
    rw [visibleFrom, List.map_cons, map_name_calleesOf, htake, List.map_append, List.map_reverse]
    exact ((List.perm_append_singleton m.name _).trans ((List.reverse_perm _).symm.cons m.name)).symm
  have hcalls : ∀ c c', c ∈ visibleFrom (calleesOf (ms.take place).reverse) m → c' ∈ visibleAt ms opens place →
      c'.name = c.name → (c'.inputs, c'.instantiate chain) = (c.inputs, c.instantiate chain) →
      Body.calls ⟨m, chain, visibleAt ms opens place⟩ c.name =
        Body.calls ⟨m, chain, visibleFrom (calleesOf (ms.take place).reverse) m⟩ c.name := by
    intro c c' hc hc' hname hsame
    have hfind := find?_callee (hbefore.nodup_iff.2 hnames) hc
    have hfind' := find?_callee hvisible hc'
    rw [hname] at hfind'
    simp only [Body.calls, Body.callee?, hfind, hfind', Option.map_some, hsame]
  refine ⟨rfl, rfl, fun name => ?_⟩
  rcases lookup_cases hm name with rfl | ⟨i, d, hi, hd, rfl⟩ | hname
  · refine hcalls (.recursive m) _ List.mem_cons_self
      (List.mem_of_getElem? (getElem?_visibleAt opens (Nat.lt_succ_self place) hm)) rfl ?_
    exact congrArg (Prod.mk m.inputs) (funext hself)
  · refine hcalls (.ofModule (calleesOf (ms.take i).reverse) d) _
      (List.mem_cons_of_mem _ (mem_calleesOf_take hd hi))
      (List.mem_of_getElem? (getElem?_visibleAt opens (Nat.lt_succ_of_lt hi) hd)) rfl ?_
    exact congrArg (Prod.mk d.inputs) (funext (hearlier i d hi hd))
  · have hnone : ∀ cs : List Callee, name ∉ cs.map Callee.name → cs.find? (·.name = name) = none :=
      fun cs hcs => List.find?_eq_none.2 fun c hc heq => hcs (List.mem_map.2 ⟨c, hc, of_decide_eq_true heq⟩)
    have hleft := hnone _ (by rwa [map_name_visibleAt] : name ∉ (visibleAt ms opens place).map Callee.name)
    have hright := hnone _ (fun hmem => hname (hbefore.mem_iff.1 hmem))
    simp only [Body.calls, Body.callee?, hleft, hright]

/-! ## Instances of either kind -/

/-- Places that increase along the open instances are at least as many as there are instances. -/
theorem length_le_of_places {ps : List Nat} {bound : Nat} (h : ps.Pairwise (· < ·)) (hlt : ∀ p ∈ ps, p < bound) :
    ps.length ≤ bound := by
  have hsub : ps ⊆ List.range bound := fun p hp => List.mem_range.2 (hlt p hp)
  have hle := (List.subperm_of_subset (h.imp Nat.ne_of_lt) hsub).length_le
  rwa [List.length_range] at hle

/-- One more instance of a module that stands before all that are open. -/
theorem Descending.cons (hnodup : (ms.map Module.name).Nodup) (hd : ms[i]? = some d)
    (h : Descending ms chain) (hmem : ∀ name ∈ chain, name ∈ ms.map Module.name)
    (hlt : ∀ name ∈ chain, i < placeOf ms name) : Descending ms (d.name :: chain) := by
  have hplaces : ((d.name :: chain).map (placeOf ms)).Pairwise (· < ·) := by
    rw [List.map_cons, placeOf_eq hnodup hd]
    exact List.pairwise_cons.2 ⟨List.forall_mem_map.2 hlt, h.places⟩
  refine ⟨hplaces, ?_⟩
  rw [← List.length_map (placeOf ms)]
  refine length_le_of_places hplaces (List.forall_mem_map.2 fun name hname => ?_)
  have hin : name ∈ ms.map Module.name := by
    rcases List.mem_cons.1 hname with rfl | hname
    · exact List.mem_map_of_mem (List.mem_of_getElem? hd)
    · exact hmem name hname
  obtain ⟨m, hm, rfl⟩ := List.mem_map.1 hin
  exact List.findIdx_lt_length.2 ⟨m, hm, decide_eq_true rfl⟩

/-- The open instances around a body: that of the module at a place is innermost, and the others stand behind it. -/
structure Around (ms : List Module) (place : Nat) (chain : List String) : Prop where
  descending : Descending ms chain
  known : ∀ name ∈ chain, name ∈ ms.map Module.name
  behind : ∀ name ∈ chain, place ≤ placeOf ms name

/-- A module before the innermost one is not open, and can be opened. -/
theorem Around.opens (hnodup : (ms.map Module.name).Nodup) (h : Around ms place chain) (hd : ms[i]? = some d)
    (hi : i < place) : d.name ∉ chain ∧ Around ms i (d.name :: chain) := by
  have hlt : ∀ name ∈ chain, i < placeOf ms name := fun name hname => Nat.lt_of_lt_of_le hi (h.behind name hname)
  refine ⟨fun hmem => ?_, h.descending.cons hnodup hd h.known hlt, ?_, ?_⟩
  · have hself := hlt d.name hmem
    rw [placeOf_eq hnodup hd] at hself
    exact Nat.lt_irrefl i hself
  · exact List.forall_mem_cons.2 ⟨List.mem_map_of_mem (List.mem_of_getElem? hd), h.known⟩
  · exact List.forall_mem_cons.2 ⟨(placeOf_eq hnodup hd).ge, fun name hname => Nat.le_of_lt (hlt name hname)⟩

/-- A module that is innermost is refused. -/
theorem openAt_self (ms : List Module) (beyond : Opening) {depth : Nat} (hdepth : 0 < depth) (place : Nat)
    (d : Module) (chain : List String) (args : List Wire) :
    openAt ms beyond depth place d (d.name :: chain) args =
      throw (.recursiveInstantiation (d.name :: d.name :: chain).reverse) := by
  cases depth with
  | zero => exact absurd hdepth (Nat.lt_irrefl 0)
  | succ depth => rw [openAt, if_pos List.mem_cons_self, if_pos List.head?_cons]

/-- **Instances of either kind are the same**, wherever they stand and whatever is left open. -/
theorem openAt_eq (hnodup : (ms.map Module.name).Nodup) (beyond : Opening) (depth : Nat) :
    ∀ {i : Nat} {d : Module} {chain : List String}, i + 1 < depth → ms[i]? = some d → d.name ∉ chain →
      Around ms i (d.name :: chain) → ∀ args, openAt ms beyond depth i d chain args =
        (Callee.ofModule (calleesOf (ms.take i).reverse) d).instantiate chain args := by
  induction depth with
  | zero => exact fun hi => absurd hi (Nat.not_lt_zero _)
  | succ depth ih =>
    intro i d chain hi hd hnew haround args
    rw [openAt, if_neg hnew, if_pos haround.descending]
    have halike : Alike ⟨d, d.name :: chain, visibleFrom (calleesOf (ms.take i).reverse) d⟩
        ⟨d, d.name :: chain, visibleAt ms (openAt ms beyond depth) i⟩ := by
      refine alike_visibleAt hnodup hd (fun args => ?_) fun j e hj he args => ?_
      · exact openAt_self ms beyond (by omega) i d chain args
      · obtain ⟨hnew, haround⟩ := haround.opens hnodup he hj
        exact ih (by omega) he hnew haround args
    rw [instantiate_congr halike]
    rfl

/-- An outermost instance is one of a single module. -/
theorem around_outermost (hnodup : (ms.map Module.name).Nodup) (hd : ms[i]? = some d) : Around ms i [d.name] where
  descending := ⟨List.pairwise_singleton _ _, Nat.lt_of_le_of_lt (Nat.zero_le i) (List.getElem?_eq_some_iff.1 hd).1⟩
  known := List.forall_mem_singleton.2 (List.mem_map_of_mem (List.mem_of_getElem? hd))
  behind := List.forall_mem_singleton.2 (placeOf_eq hnodup hd).ge

/-- The netlist of a module is the same with its callees looked up in the whole design. -/
theorem netlist_eq (hnodup : (ms.map Module.name).Nodup) (beyond : Opening) (hd : ms[i]? = some d) :
    netlistOf (visibleAt ms (openAt ms beyond ms.length) i) d = netlist (calleesOf (ms.take i).reverse) d := by
  have hi : i < ms.length := (List.getElem?_eq_some_iff.1 hd).1
  refine netlistOf_congr (alike_visibleAt hnodup hd (fun args => ?_) fun j e hj he args => ?_)
  · exact openAt_self ms beyond (by omega) i d [] args
  · obtain ⟨hnew, haround⟩ := (around_outermost hnodup hd).opens hnodup he hj
    exact openAt_eq hnodup beyond ms.length (by omega) he hnew haround args

theorem compileFrom_eq (hnodup : (ms.map Module.name).Nodup) (beyond : Opening) (ds : List Module) :
    ∀ {before : List Module} {nextId : Nat}, ms = before ++ ds →
      compileFrom ms beyond before.length nextId ds = Elaboration.compileFrom (calleesOf before.reverse) nextId ds := by
  induction ds with
  | nil => exact fun _ => rfl
  | cons d ds ih =>
    intro before nextId hms
    have hd : ms[before.length]? = some d := by
      rw [hms, List.getElem?_append_right (Nat.le_refl _), Nat.sub_self, List.getElem?_cons_zero]
    have hnetlist := netlist_eq hnodup beyond hd
    rw [hms, List.take_left, ← hms] at hnetlist
    have hrest : ∀ next, compileFrom ms beyond (before.length + 1) next ds =
        Elaboration.compileFrom (Callee.ofModule (calleesOf before.reverse) d :: calleesOf before.reverse) next ds := by
      intro next
      have hih := @ih (before ++ [d]) next (by rw [hms, List.append_assoc, List.singleton_append])
      rwa [List.length_append, List.length_singleton, List.reverse_append, List.reverse_singleton] at hih
    rw [compileFrom, Elaboration.compileFrom, hnetlist]
    rcases (netlist (calleesOf before.reverse) d).run (State.initial nextId) with ⟨e | n, s⟩
    · rfl
    · simp only [hrest]

/-- **Nothing is left open in any design**: elaboration comes to its end with all callees looked up in the whole
design, to the same outcome whatever would be done past its bounds. -/
theorem compile_eq (ms : List Module) (beyond : Opening) (l : Ledger) : compile ms beyond l = l.compile ms := by
  rw [compile, Ledger.compile]
  cases hcheck : checkDesign ms with
  | error e => rfl
  | ok u =>
    have hfrom := @compileFrom_eq _ (checkDesign_ok hcheck).1 beyond ms [] l.nextId rfl
    simp only [List.length_nil] at hfrom
    simp only [hfrom]
    rfl

end Nesting

end Elaboration

end NandHdl
