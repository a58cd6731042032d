import NandHdl.Proofs.Numbering
import NandHdl.Proofs.Renumbering
import NandHdl.Proofs.Wiring
import NandHdl.Simulation.Operation

/-!
# Numbers are only names

A circuit knows its nodes by their places. The numbers in a netlist are looked up once, and all that counts is
which of them are equal, so nothing that happens to a simulation depends on them.

* `Netlist.rename`, `Event.rename`: other numbers for the nodes.
* `Wiring.getElem?_placesFrom_rename`: a number has the same place under its other name.
* `Wiring.SameSource`: a bit stands for the same under other numbers, with other reports.
* `ofNetlist_rename`: the circuit of a netlist under other numbers.
* `ofNetlist_raise`: a compiled netlist is simulated alike wherever its numbers start.
* `simulation_ignores_numbers`: **simulations under other numbers, and of designs compiled elsewhere.**
-/

namespace NandHdl

/-- The netlist with other numbers for its nodes. -/
def Netlist.rename (g : Nat → Nat) (n : Netlist) : Netlist where
  name := n.name
  inputs := n.inputs
  outputs := n.outputs.map fun o => (o.1, o.2.map (Bit.rename g))
  nodes := n.nodes.map (Node.rename g)
  signals := n.signals.map (Wire.map (Bit.rename g))

@[simp] theorem Netlist.name_rename (g : Nat → Nat) (n : Netlist) : (n.rename g).name = n.name := rfl

@[simp] theorem Netlist.inputs_rename (g : Nat → Nat) (n : Netlist) : (n.rename g).inputs = n.inputs := rfl

@[simp] theorem Netlist.inputWidth_rename (g : Nat → Nat) (n : Netlist) :
    (n.rename g).inputWidth = n.inputWidth := rfl

@[simp] theorem Netlist.size_rename (g : Nat → Nat) (n : Netlist) :
    (n.rename g).nodes.size = n.nodes.size := Array.size_map

@[simp] theorem Netlist.toList_rename (g : Nat → Nat) (n : Netlist) :
    (n.rename g).nodes.toList = n.nodes.toList.map (Node.rename g) := Array.toList_map

/-- The report with another number for the node that it names. -/
def Event.rename (g : Nat → Nat) : Event → Event
  | .unknownNode m id => .unknownNode m (g id)
  | e => e

/-- The number is that of a node, or of a bit that stands for a node. -/
inductive Netlist.Mentions (n : Netlist) (id : Nat) : Prop
  | node {node : Node} (h : node ∈ n.nodes) (hid : node.id = id)
  | bit (h : n.Occurs (.node id))

namespace Wiring

variable {module : String} {places places' : Places} {g : Nat → Nat} {f : Event → Event}

/-- **A number has the same place under its other name**, if no other number goes by that name. -/
theorem getElem?_placesFrom_rename {id : Nat} {ns : List Node} (hg : ∀ n ∈ ns, g n.id = g id → n.id = id)
    (i : Nat) (h : places'[g id]? = places[id]?) :
    (placesFrom i (ns.map (Node.rename g)) places')[g id]? = (placesFrom i ns places)[id]? := by
  induction ns generalizing i places places' with
  | nil => exact h
  | cons n ns ih =>
    obtain ⟨hn, hns⟩ := List.forall_mem_cons.1 hg
    rw [List.map_cons, placesFrom, placesFrom]
    refine ih hns (i + 1) ?_
    by_cases hid : n.id = id
    · subst hid
      rw [Node.rename, Std.TreeMap.getElem?_insert_self, Std.TreeMap.getElem?_insert_self]
    · have hne : g n.id ≠ g id := fun heq => hid (hn heq)
      simp only [Node.rename, Std.TreeMap.getElem?_insert, Nat.compare_eq_eq, if_neg hid, if_neg hne]
      exact h

/-- The bit stands for the same under other numbers, where reports of unknown ones are rewritten. -/
def SameSource (module : String) (places places' : Places) (g : Nat → Nat) (f : Event → Event) (b : Bit) : Prop :=
  ∀ id, b = .node id → places'[g id]? = places[id]? ∧
    (places[id]? = none → f (.unknownNode module id) = .unknownNode module (g id))

theorem source_rename {b : Bit} (h : SameSource module places places' g f b) :
    source module places' (b.rename g) = (source module places b).mapLog f := by
  cases b with
  | node id =>
    obtain ⟨hplace, hreport⟩ := h id rfl
    rw [Bit.rename, source, source, hplace]
    cases hid : places[id]? with
    | none => simp only [Logged.mapLog_bind, Logged.mapLog_note, Logged.mapLog_pure, hreport hid]
    | some i => simp only [Logged.mapLog_pure]
  | _ => exact (Logged.mapLog_pure f _).symm

theorem sources_rename {bs : List Bit} (h : ∀ b ∈ bs, SameSource module places places' g f b) :
    sources module places' (bs.map (Bit.rename g)) = (sources module places bs).mapLog f := by
  induction bs with
  | nil => exact (Logged.mapLog_pure f _).symm
  | cons b bs ih =>
    obtain ⟨hb, hbs⟩ := List.forall_mem_cons.1 h
    simp only [List.map_cons, sources, source_rename hb, ih hbs, Logged.mapLog_bind, Logged.mapLog_pure]

theorem namedSources_rename (ws : List (String × Wire))
    (h : ∀ w ∈ ws, ∀ b ∈ w.2.bits, SameSource module places places' g f b) :
    namedSources module places' (ws.map fun w => (w.1, w.2.map (Bit.rename g))) =
      (namedSources module places ws).mapLog f := by
  induction ws with
  | nil => exact (Logged.mapLog_pure f _).symm
  | cons w ws ih =>
    obtain ⟨hw, hws⟩ := List.forall_mem_cons.1 h
    have hbits : sources module places' (w.2.map (Bit.rename g)).bits.toList =
        (sources module places w.2.bits.toList).mapLog f := by
      rw [Wire.map, Array.toList_map]
      exact sources_rename fun b hb => hw b (Array.mem_toList_iff.1 hb)
    simp only [List.map_cons, namedSources, hbits, ih hws, Logged.mapLog_bind, Logged.mapLog_pure]

theorem cells_rename (ns : List Node) (i : Nat)
    (h : ∀ n ∈ ns, ∀ b ∈ n.cell.inputs, SameSource module places places' g f b) :
    cells module places' i (ns.map (Node.rename g)) = (cells module places i ns).mapLog f := by
  induction ns generalizing i with
  | nil => exact (Logged.mapLog_pure f _).symm
  | cons n ns ih =>
    obtain ⟨hn, hns⟩ := List.forall_mem_cons.1 h
    obtain ⟨id, ⟨a, b⟩ | ⟨d, clk⟩⟩ := n
    · have ha := source_rename (hn a (by simp [Cell.inputs]))
      have hb := source_rename (hn b (by simp [Cell.inputs]))
      simp only [List.map_cons, Node.rename, Cell.map, cells, ha, hb, ih (i + 1) hns, Logged.mapLog_bind,
        Logged.mapLog_pure]
    · have hd := source_rename (hn d (by simp [Cell.inputs]))
      have hclk := source_rename (hn clk (by simp [Cell.inputs]))
      simp only [List.map_cons, Node.rename, Cell.map, cells, hd, hclk, ih (i + 1) hns, Logged.mapLog_bind,
        Logged.mapLog_pure]

end Wiring

namespace Netlist

variable {n : Netlist} {g : Nat → Nat} {f : Event → Event}

variable (n g f) in
/-- All bits of the netlist stand for the same under other numbers. -/
def SameSources : Prop := ∀ b, n.Occurs b → Wiring.SameSource n.name (Wiring.places n.nodes.toList)
  (Wiring.places (n.rename g).nodes.toList) g f b

/-- **The circuit of a netlist under other numbers** is that of the netlist. -/
theorem circuit_rename (h : n.SameSources g f)
    (hf : ∀ m nands dffs bits, f (.simulating m nands dffs bits) = .simulating m nands dffs bits) :
    Circuit.ofNetlist (n.rename g) = (Circuit.ofNetlist n).mapLog f := by
  have hcells := Wiring.cells_rename n.nodes.toList 0
    fun _ hnode b hb => h b (.read (Array.mem_toList_iff.1 hnode) hb)
  have houtputs := Wiring.namedSources_rename (n.outputs.map fun o => (o.1.name, o.2))
    fun w hw b hb => by
      obtain ⟨o, ho, rfl⟩ := List.mem_map.1 hw
      exact h b (.output ho hb)
  have hsignals := Wiring.namedSources_rename n.signals.entries
    fun _ he b hb => h b (.signal he hb)
  have hports : (n.rename g).outputs.map (fun o => (o.1.name, o.2)) =
      (n.outputs.map fun o => (o.1.name, o.2)).map fun w => (w.1, w.2.map (Bit.rename g)) := by
    rw [rename, List.map_map, List.map_map]
    rfl
  have hentries : (n.rename g).signals.entries =
      n.signals.entries.map fun w => (w.1, w.2.map (Bit.rename g)) := rfl
  rw [toList_rename] at hcells houtputs hsignals
  simp only [Circuit.ofNetlist, toList_rename, hports, hentries, name_rename, inputs_rename, inputWidth_rename,
    size_rename, hcells, houtputs, hsignals, Logged.mapLog_bind, Logged.mapLog_note, Logged.mapLog_pure, hf]

/-- **A netlist under other numbers** is simulated alike. -/
theorem ofNetlist_rename (h : n.SameSources g f)
    (hf : ∀ m nands dffs bits, f (.simulating m nands dffs bits) = .simulating m nands dffs bits) (ram : Ram) :
    Simulator.ofNetlist (n.rename g) ram = (Simulator.ofNetlist n ram).mapLog f := by
  simp only [Simulator.ofNetlist, circuit_rename h hf, Logged.mapLog_bind, Logged.mapLog_pure]

/-! ## The same reports, and rewritten ones -/

/-- Numbers that stay apart stand for the same nodes under other names. -/
theorem place_rename {id : Nat} (hg : Set.InjOn g {id | n.Mentions id}) (hid : n.Mentions id) :
    (Wiring.places (n.rename g).nodes.toList)[g id]? = (Wiring.places n.nodes.toList)[id]? := by
  rw [toList_rename]
  refine Wiring.getElem?_placesFrom_rename (fun node hnode heq => ?_) 0 rfl
  exact hg (.node (Array.mem_toList_iff.1 hnode) rfl) hid heq

/-- Numbers that stay apart lead to the same reports, with the other numbers in them. -/
theorem sameSources_of_injOn (hg : Set.InjOn g {id | n.Mentions id}) : n.SameSources g (Event.rename g) := by
  rintro b hb id rfl
  exact ⟨place_rename hg (.bit hb), fun _ => rfl⟩

/-- A well-formed netlist has a node for every number, so there is nothing to report. -/
theorem WellFormed.sameSources (h : n.WellFormed) (hg : Function.Injective g) : n.SameSources g id := by
  rintro b hb id rfl
  refine ⟨place_rename hg.injOn (.bit hb), fun hnone => ?_⟩
  have hcount := h.one_node id hb
  obtain ⟨node, hnode, hid⟩ := Array.countP_pos_iff.1 (hcount ▸ Nat.one_pos)
  obtain ⟨i, hi⟩ := Array.mem_iff_getElem?.1 hnode
  rw [decide_eq_true_eq] at hid
  obtain ⟨j, hj⟩ := exists_place? (n := n) (hid ▸ hi : n.nodes[i]? = some ⟨id, node.cell⟩)
  cases hnone.symm.trans hj

/-- Raising all numbers gives them other names. -/
theorem raise_eq_rename (c : Nat) (n : Netlist) : n.raise c = n.rename (· + c) := by
  have hbit : Bit.raise c = Bit.rename (· + c) := by
    funext b
    cases b <;> rfl
  have hnode : Node.raise c = Node.rename (· + c) := by
    funext node
    rw [Node.raise, Node.rename, hbit]
  rw [raise, rename, hbit, hnode]

/-- **A compiled netlist is simulated alike wherever its numbers start**, reports included. -/
theorem WellFormed.ofNetlist_raise (h : n.WellFormed) (c : Nat) (ram : Ram) :
    Simulator.ofNetlist (n.raise c) ram = Simulator.ofNetlist n ram := by
  rw [raise_eq_rename, ofNetlist_rename (h.sameSources (add_left_injective c)) (fun _ _ _ _ => rfl),
    Logged.mapLog_id]

end Netlist

namespace Library

variable {lib : Library}

theorem get?_raise (c : Nat) (name : String) : (lib.raise c).get? name = (lib.get? name).map (Netlist.raise c) := by
  rw [get?, get?, raise, List.find?_map]
  rfl

theorem main?_raise (c : Nat) : (lib.raise c).main? = lib.main?.map (Netlist.raise c) := List.getLast?_map

/-- Every module of a compiled design is simulated alike wherever the numbers start. -/
theorem ofLibrary_raise (h : ∀ n ∈ lib.netlists, n.WellFormed) (c : Nat) :
    Simulator.ofLibrary (lib.raise c) = Simulator.ofLibrary lib := by
  funext top ram
  cases top with
  | some name =>
    simp only [Simulator.ofLibrary, get?_raise]
    cases hn : lib.get? name with
    | none => rfl
    | some n => exact congrArg Except.ok ((h n (List.mem_of_find?_eq_some hn)).ofNetlist_raise c ram)
  | none =>
    simp only [Simulator.ofLibrary, main?_raise]
    cases hn : lib.main? with
    | none => rfl
    | some n => exact congrArg Except.ok ((h n (List.mem_of_getLast? hn)).ofNetlist_raise c ram)

end Library

open Elaboration in
/-- What can be simulated of a design does not depend on the ledger at which it is compiled. -/
theorem Ledger.simulations_eq (l : Ledger) (ms : List Module) :
    (l.compile ms).result.map Simulator.ofLibrary = (({} : Ledger).compile ms).result.map Simulator.ofLibrary := by
  rw [l.compile_raise, Outcome.raise]
  cases h : (({} : Ledger).compile ms).result with
  | error e => rfl
  | ok lib => exact congrArg Except.ok (Library.ofLibrary_raise (fun n => wellFormed_of_mem h) l.nextId)

/-- **Numbers are only names.** Take any netlist, whether or not its numbers repeat, stand for no node or lead
round in a loop, and give the numbers other names that keep them apart. Then every sequence of operations has
the same answers and reports and leaves the same state; what differs are the numbers in the reports of unknown
nodes. And a design is simulated alike, or refused alike, at whichever ledger it is compiled. -/
theorem simulation_ignores_numbers :
    (∀ (n : Netlist) (g : Nat → Nat), Set.InjOn g {id | n.Mentions id} → ∀ (ram : Ram) (ops : List Operation),
      let x := Simulator.ofNetlist n ram
      let y := Simulator.ofNetlist (n.rename g) ram
      y.log = x.log.map (Event.rename g) ∧ y.value.performAll ops = x.value.performAll ops) ∧
    ∀ (l l' : Ledger) (ms : List Module),
      (l.compile ms).result.map Simulator.ofLibrary = (l'.compile ms).result.map Simulator.ofLibrary := by
  refine ⟨fun n g hg ram ops => ?_, fun l l' ms => (l.simulations_eq ms).trans (l'.simulations_eq ms).symm⟩
  have hrename := Netlist.ofNetlist_rename (Netlist.sameSources_of_injOn hg) (fun _ _ _ _ => rfl) ram
  exact ⟨congrArg Logged.log hrename, congrArg (fun x => x.value.performAll ops) hrename⟩

/-- A gate that feeds itself, a gate and a flip-flop of one number, and a gate that reads a number of no node. -/
def scrambled : Netlist where
  name := "scrambled"
  inputs := [⟨"d", 1⟩, ⟨"clk", 1⟩]
  outputs := [(⟨"q", 2⟩, ⟨#[.node 7, .node 3]⟩)]
  nodes := #[⟨7, .nand (.node 3) (.node 5)⟩, ⟨3, .nand (.node 3) (.node 3)⟩, ⟨5, .nand (.node 7) (.node 9)⟩,
    ⟨7, .dff (.node 5) (.input 1)⟩]
  signals := .empty

theorem scrambled_numbers {id : Nat} (h : scrambled.Mentions id) : id < 10 := by
  cases h with
  | node hnode hid =>
    subst hid
    exact (by decide : ∀ node ∈ scrambled.nodes, node.id < 10) _ hnode
  | bit h =>
    refine h.of_all (P := fun b => ∀ id, b = .node id → id < 10) ?_ ?_ ?_ id rfl
    all_goals simp [scrambled, Cell.All, Wire.All, Cell.inputs, NameTable.empty]

/-- Counting the numbers of `scrambled` downwards swaps those of two nodes and changes one report. -/
theorem scrambled_renamed :
    let x := Simulator.ofNetlist scrambled (.zeros 1)
    let y := Simulator.ofNetlist (scrambled.rename (10 - ·)) (.zeros 1)
    let ops : List Operation := [.setInput "clk" 1, .run 3, .output "q"]
    (x.log = #[.unknownNode "scrambled" 9, .simulating "scrambled" 3 1 2] ∧
      y.log = #[.unknownNode "scrambled" 1, .simulating "scrambled" 3 1 2]) ∧
    y.value.performAll ops = x.value.performAll ops := by
  intro x y ops
  have hinj : Set.InjOn (10 - ·) {id | scrambled.Mentions id} := fun i hi j hj hij => by
    have hi := scrambled_numbers hi
    have hj := scrambled_numbers hj
    simp only at hij
    omega
  obtain ⟨hlog, hops⟩ := simulation_ignores_numbers.1 scrambled (10 - ·) hinj (.zeros 1) ops
  have hx : x.log = #[.unknownNode "scrambled" 9, .simulating "scrambled" 3 1 2] := by rfl
  exact ⟨⟨hx, hlog.trans (by rw [hx]; simp [Event.rename])⟩, hops⟩

end NandHdl
