import NandHdl.Proofs.Settling

/-!
# Circuits and their netlists

The gates and flip-flops of a circuit are the cells of its netlist, each at the
place of its node, and read what the numbers in the cells stand for.

* `Netlist.place?`, `Netlist.cell?`: what a node number stands for.
* `Netlist.mem_gates`, `Netlist.mem_flops`: the gates and flip-flops of a netlist.
* `Netlist.FeedbackFree`: no gate feeds itself through gates.
* `FeedbackFree.inOrder`: the gates of such a netlist are evaluated in order.
-/

namespace NandHdl

open Relation

namespace Wiring

variable (module : String) (places : Places)

theorem value_sources (xs : List Bit) :
    (sources module places xs).value = xs.map fun x => (source module places x).value := by
  induction xs with
  | nil => rfl
  | cons x xs ih => exact congrArg (_ :: ·) ih

theorem value_namedSources (ws : List (String × Wire)) :
    (namedSources module places ws).value =
      ws.map fun w => (w.1, w.2.bits.toList.map fun x => (source module places x).value) := by
  induction ws with
  | nil => rfl
  | cons w ws ih =>
    rw [List.map_cons, ← ih, ← value_sources]
    rfl

/-- The gate that a node at a place is, if it is one. -/
def gateAt (x : Node × Nat) : Option Gate :=
  match x.1.cell with
  | .nand a b => some ⟨x.2, (source module places a).value, (source module places b).value⟩
  | .dff _ _ => none

/-- The flip-flop that a node at a place is, if it is one. -/
def flopAt (x : Node × Nat) : Option Flop :=
  match x.1.cell with
  | .nand _ _ => none
  | .dff d clk => some ⟨x.2, (source module places d).value, (source module places clk).value⟩

theorem value_cells (ns : List Node) (i : Nat) :
    (cells module places i ns).value =
      ((ns.zipIdx i).filterMap (gateAt module places), (ns.zipIdx i).filterMap (flopAt module places)) := by
  induction ns generalizing i with
  | nil => rfl
  | cons n ns ih =>
    obtain ⟨id, ⟨a, b⟩ | ⟨d, clk⟩⟩ := n
    · have hcons : (cells module places i (⟨id, .nand a b⟩ :: ns)).value =
          (⟨i, (source module places a).value, (source module places b).value⟩ ::
            (cells module places (i + 1) ns).value.1, (cells module places (i + 1) ns).value.2) := rfl
      rw [hcons, ih]
      rfl
    · have hcons : (cells module places i (⟨id, .dff d clk⟩ :: ns)).value =
          ((cells module places (i + 1) ns).value.1,
            ⟨i, (source module places d).value, (source module places clk).value⟩ ::
              (cells module places (i + 1) ns).value.2) := rfl
      rw [hcons, ih]
      rfl

/-- The places of numbered elements differ. -/
theorem nodup_filterMap_zipIdx {α β : Type} {f : α × Nat → Option β} {out : β → Nat}
    (hf : ∀ x b, f x = some b → out b = x.2) (xs : List α) (i : Nat) :
    (((xs.zipIdx i).filterMap f).map out).Nodup := by
  have hpair : (xs.zipIdx i).Pairwise fun x y => x.2 ≠ y.2 :=
    List.pairwise_map.1 (by rw [List.zipIdx_map_snd]; exact List.nodup_range')
  refine List.pairwise_map.2 (List.pairwise_filterMap.2 (hpair.imp fun {x y} hne b hb b' hb' => ?_))
  rw [hf x b hb, hf y b' hb']
  exact hne

/-- A number stands for the last node that has it. -/
theorem getElem?_placesFrom (ns : List Node) (i : Nat) (p : Places) (id : Nat) :
    (placesFrom i ns p)[id]? =
      ((ns.zipIdx i).reverse.find? (·.1.id = id)).elim p[id]? fun x => some x.2 := by
  induction ns generalizing i p with
  | nil => rfl
  | cons n ns ih =>
    rw [placesFrom, ih, List.zipIdx_cons, List.reverse_cons, List.find?_append]
    -- a later node with the number hides this one
    cases (ns.zipIdx (i + 1)).reverse.find? (·.1.id = id) with
    | some x => rfl
    | none =>
      by_cases h : n.id = id
      · simp [h]
      · simp [h, Std.TreeMap.getElem?_insert]

end Wiring

namespace Netlist

variable (n : Netlist)

/-- The place of the node that a number stands for. -/
def place? (id : Nat) : Option Nat := (Wiring.places n.nodes.toList)[id]?

/-- The cell that a number stands for. -/
def cell? (id : Nat) : Option Cell := ((n.place? id).bind (n.nodes[·]?)).map Node.cell

/-- What a bit of a cell stands for. -/
def source (b : Bit) : Source := (Wiring.source n.name (Wiring.places n.nodes.toList) b).value

def gates : List Gate := (Wiring.cells n.name (Wiring.places n.nodes.toList) 0 n.nodes.toList).value.1

def flops : List Flop := (Wiring.cells n.name (Wiring.places n.nodes.toList) 0 n.nodes.toList).value.2

variable {n}

theorem source_node (id : Nat) :
    n.source (.node id) = ((n.place? id).map Source.node).getD (.const false) := by
  simp only [source, place?, Wiring.source]
  cases (Wiring.places n.nodes.toList)[id]? <;> rfl

theorem mem_gates {g : Gate} :
    g ∈ n.gates ↔ ∃ i id a b, n.nodes[i]? = some ⟨id, .nand a b⟩ ∧ g = ⟨i, n.source a, n.source b⟩ := by
  rw [gates, Wiring.value_cells, List.mem_filterMap]
  constructor
  · rintro ⟨⟨⟨id, ⟨a, b⟩ | ⟨d, clk⟩⟩, i⟩, hmem, hg⟩
    · have hi := List.mk_mem_zipIdx_iff_getElem?.1 hmem
      exact ⟨i, id, a, b, by simpa using hi, (Option.some.inj hg).symm⟩
    · cases hg
  · rintro ⟨i, id, a, b, hi, rfl⟩
    exact ⟨(⟨id, .nand a b⟩, i), List.mk_mem_zipIdx_iff_getElem?.2 (by simpa using hi), rfl⟩

theorem mem_flops {f : Flop} :
    f ∈ n.flops ↔ ∃ i id d clk, n.nodes[i]? = some ⟨id, .dff d clk⟩ ∧
      f = ⟨i, n.source d, n.source clk⟩ := by
  rw [flops, Wiring.value_cells, List.mem_filterMap]
  constructor
  · rintro ⟨⟨⟨id, ⟨a, b⟩ | ⟨d, clk⟩⟩, i⟩, hmem, hg⟩
    · cases hg
    · have hi := List.mk_mem_zipIdx_iff_getElem?.1 hmem
      exact ⟨i, id, d, clk, by simpa using hi, (Option.some.inj hg).symm⟩
  · rintro ⟨i, id, d, clk, hi, rfl⟩
    exact ⟨(⟨id, .dff d clk⟩, i), List.mk_mem_zipIdx_iff_getElem?.2 (by simpa using hi), rfl⟩

theorem nodup_gates (n : Netlist) : (n.gates.map Gate.out).Nodup := by
  rw [gates, Wiring.value_cells]
  refine Wiring.nodup_filterMap_zipIdx (fun x g hg => ?_) _ _
  obtain ⟨⟨id, ⟨a, b⟩ | ⟨d, clk⟩⟩, i⟩ := x
  · exact (congrArg Gate.out (Option.some.inj hg)).symm
  · cases hg

theorem nodup_flops (n : Netlist) : (n.flops.map Flop.out).Nodup := by
  rw [flops, Wiring.value_cells]
  refine Wiring.nodup_filterMap_zipIdx (fun x f hf => ?_) _ _
  obtain ⟨⟨id, ⟨a, b⟩ | ⟨d, clk⟩⟩, i⟩ := x
  · cases hf
  · exact (congrArg Flop.out (Option.some.inj hf)).symm

/-- The node that a number stands for has that number. -/
theorem place?_spec {id i : Nat} (h : n.place? id = some i) : ∃ c, n.nodes[i]? = some ⟨id, c⟩ := by
  rw [place?, Wiring.places, Wiring.getElem?_placesFrom] at h
  cases hf : (n.nodes.toList.zipIdx 0).reverse.find? (·.1.id = id) with
  | none => simp [hf] at h
  | some x =>
    obtain ⟨⟨id', c⟩, j⟩ := x
    have hmem := List.mem_zipIdx_iff_getElem?.1 (List.mem_reverse.1 (List.mem_of_find?_eq_some hf))
    have hid := List.find?_some hf
    simp only [decide_eq_true_eq] at hid
    subst hid
    rw [hf] at h
    simp only [Option.elim_some, Option.some.injEq] at h
    subst h
    exact ⟨c, by simpa using hmem⟩

/-- A number that some node has stands for a place. -/
theorem exists_place? {id i : Nat} {c : Cell} (h : n.nodes[i]? = some ⟨id, c⟩) :
    ∃ j, n.place? id = some j := by
  rw [place?, Wiring.places, Wiring.getElem?_placesFrom]
  cases hf : (n.nodes.toList.zipIdx 0).reverse.find? (·.1.id = id) with
  | some x => exact ⟨x.2, rfl⟩
  | none =>
    have hmem : ((⟨id, c⟩ : Node), i) ∈ (n.nodes.toList.zipIdx 0).reverse := by
      rw [List.mem_reverse, List.mem_zipIdx_iff_getElem?]
      simpa using h
    simpa using List.find?_eq_none.1 hf _ hmem

theorem cell?_eq_some {id : Nat} {c : Cell} :
    n.cell? id = some c ↔ ∃ i, n.place? id = some i ∧ n.nodes[i]? = some ⟨id, c⟩ := by
  simp only [cell?, Option.map_eq_some_iff, Option.bind_eq_some_iff]
  constructor
  · rintro ⟨nd, ⟨i, hi, hnd⟩, rfl⟩
    obtain ⟨c, hc⟩ := place?_spec hi
    rw [hnd, Option.some.injEq] at hc
    exact ⟨i, hi, by rw [hnd, hc]⟩
  · rintro ⟨i, hi, hnd⟩
    exact ⟨_, ⟨i, hi, hnd⟩, rfl⟩

variable (n) in
/-- The gate of one number feeds the gate of another. -/
def Feeds (k j : Nat) : Prop :=
  (∃ a b, n.cell? k = some (.nand a b)) ∧
    ∃ a b, n.cell? j = some (.nand a b) ∧ (a = .node k ∨ b = .node k)

variable (n) in
/-- No gate feeds itself, directly or through other gates. Flip-flops break paths. -/
def FeedbackFree : Prop := ∀ k, ¬ TransGen n.Feeds k k

/-- A rank that grows along gates rules out feedback. -/
theorem feedbackFree_of_rank (rank : Nat → Nat) (h : ∀ k j, n.Feeds k j → rank k < rank j) :
    n.FeedbackFree := fun k hk => by
  have hlt : ∀ {i j}, TransGen n.Feeds i j → rank i < rank j := fun hp => by
    induction hp with
    | single hf => exact h _ _ hf
    | tail _ hf ih => exact lt_trans ih (h _ _ hf)
  exact lt_irrefl _ (hlt hk)

/-- Feedback is a matter of the numbered cells alone. -/
theorem FeedbackFree.congr {n' : Netlist} (h : n.FeedbackFree) (hcell : ∀ id, n'.cell? id = n.cell? id) :
    n'.FeedbackFree := by
  have hfeeds : n'.Feeds = n.Feeds := by
    funext k j
    rw [Feeds, Feeds, hcell, hcell]
  intro k
  rw [hfeeds]
  exact h k

/-- With distinct numbers a number stands for the node that has it. -/
theorem cell?_eq_some_iff_mem (hids : (n.nodes.toList.map Node.id).Nodup) {id : Nat} {c : Cell} :
    n.cell? id = some c ↔ (⟨id, c⟩ : Node) ∈ n.nodes.toList := by
  rw [cell?_eq_some]
  constructor
  · rintro ⟨i, -, hi⟩
    exact List.mem_of_getElem? (by simpa using hi)
  · intro hmem
    obtain ⟨i, hi⟩ := List.mem_iff_getElem?.1 hmem
    obtain ⟨j, hj⟩ := exists_place? (n := n) (by simpa using hi : n.nodes[i]? = some ⟨id, c⟩)
    obtain ⟨c', hc'⟩ := place?_spec hj
    have hmem' : (⟨id, c'⟩ : Node) ∈ n.nodes.toList := List.mem_of_getElem? (by simpa using hc')
    cases List.inj_on_of_nodup_map hids hmem hmem' rfl
    exact ⟨j, hj, hc'⟩

/-- The order of nodes with distinct numbers does not matter to what the numbers stand for. -/
theorem cell?_perm {n' : Netlist} (hperm : n'.nodes.toList.Perm n.nodes.toList)
    (hids : (n.nodes.toList.map Node.id).Nodup) (id : Nat) : n'.cell? id = n.cell? id := by
  have hids' : (n'.nodes.toList.map Node.id).Nodup := (hperm.map Node.id).nodup_iff.2 hids
  refine Option.ext fun c => ?_
  rw [cell?_eq_some_iff_mem hids', cell?_eq_some_iff_mem hids, hperm.mem_iff]

/-- A bit that stands for a place is the number of the node there. -/
theorem place?_of_source {x : Bit} {i : Nat} (h : n.source x = .node i) :
    ∃ k, x = .node k ∧ n.place? k = some i := by
  cases x with
  | node k =>
    refine ⟨k, rfl, ?_⟩
    rw [source_node] at h
    cases hk : n.place? k with
    | none => simp [hk] at h
    | some p => simpa [hk] using h
  | input _ => cases h
  | const _ => cases h
  | forward _ => cases h

/-- A gate that drives another has a number, which the other reads. -/
theorem feeds_of_drives {u v : Nat} (h : GateOrder.Drives n.gates u v) :
    ∃ k, n.place? k = some u ∧ ∀ j, n.place? j = some v → n.Feeds k j := by
  obtain ⟨hu, g, hg, rfl, hreads⟩ := h
  obtain ⟨f, hf, rfl⟩ := List.mem_map.1 hu
  obtain ⟨i, id, a, b, hi, rfl⟩ := mem_gates.1 hg
  obtain ⟨i', id', a', b', hi', rfl⟩ := mem_gates.1 hf
  -- the input that reads place `u` names a node there
  obtain ⟨k, hk, hplace⟩ : ∃ k, (a = .node k ∨ b = .node k) ∧ n.place? k = some i' := by
    rcases hreads with h | h
    · obtain ⟨k, hx, hk⟩ := place?_of_source h
      exact ⟨k, .inl hx, hk⟩
    · obtain ⟨k, hx, hk⟩ := place?_of_source h
      exact ⟨k, .inr hx, hk⟩
  refine ⟨k, hplace, fun j hj => ⟨⟨a', b', ?_⟩, a, b, ?_, hk⟩⟩
  · obtain ⟨c, hc⟩ := place?_spec hplace
    rw [hi', Option.some.injEq, Node.mk.injEq] at hc
    exact cell?_eq_some.2 ⟨i', hplace, by rw [hi', hc.1]⟩
  · obtain ⟨c, hc⟩ := place?_spec hj
    rw [hi, Option.some.injEq, Node.mk.injEq] at hc
    exact cell?_eq_some.2 ⟨i, hj, by rw [hi, hc.1]⟩

/-- The gates of a netlist without feedback drive no cycle. -/
theorem FeedbackFree.acyclic (h : n.FeedbackFree) (u : Nat) :
    ¬ TransGen (GateOrder.Drives n.gates) u u := by
  -- numbers may repeat, so the path is lifted from its end to its start
  have hpath : ∀ {u v}, TransGen (GateOrder.Drives n.gates) u v → ∀ j, n.place? j = some v →
      ∃ k, n.place? k = some u ∧ TransGen n.Feeds k j := by
    intro u v huv
    induction huv using TransGen.head_induction_on with
    | single hdr =>
      intro j hj
      obtain ⟨k, hk, hfeeds⟩ := feeds_of_drives hdr
      exact ⟨k, hk, .single (hfeeds j hj)⟩
    | head hdr _ ih =>
      intro j hj
      obtain ⟨k', hk', hpath⟩ := ih j hj
      obtain ⟨k, hk, hfeeds⟩ := feeds_of_drives hdr
      exact ⟨k, hk, .head (hfeeds k' hk') hpath⟩
  intro hu
  -- the gate at `u` drives another, so it has a number
  obtain ⟨k, hk⟩ : ∃ k, n.place? k = some u := by
    cases hu using TransGen.head_induction_on with
    | single hdr => exact (feeds_of_drives hdr).imp fun _ h => h.1
    | head hdr _ => exact (feeds_of_drives hdr).imp fun _ h => h.1
  -- the number at a place is unique, so the lifted path is a cycle as well
  obtain ⟨k', hk', hcycle⟩ := hpath hu k hk
  obtain ⟨c, hc⟩ := place?_spec hk
  obtain ⟨c', hc'⟩ := place?_spec hk'
  rw [hc, Option.some.injEq, Node.mk.injEq] at hc'
  exact h k (hc'.1 ▸ hcycle)

/-- **The gates of a netlist without feedback are evaluated in order.** -/
theorem FeedbackFree.inOrder (h : n.FeedbackFree) : InOrder (GateOrder.orderGates n.gates) := by
  have hleads : ∀ {u v}, GateOrder.Leads (GateOrder.fedBy n.gates) u v →
      ReflTransGen (GateOrder.Drives n.gates) u v := fun hp =>
    ReflTransGen.mono (fun u v huv => (GateOrder.mem_fedBy n.gates u v).1 huv) _ _ hp
  have hmem : ∀ g, g ∈ GateOrder.orderGates n.gates ↔ g ∈ n.gates :=
    fun g => (GateOrder.orderGates_perm n.gates).mem_iff
  refine ⟨?_, fun g hg hself => ?_⟩
  · refine (GateOrder.orderGates_drives n.nodup_gates).imp_of_mem fun {g k} hg hk hdr hreads => ?_
    have hd : GateOrder.Drives n.gates k.out g.out :=
      ⟨List.mem_map_of_mem ((hmem k).1 hk), g, (hmem g).1 hg, rfl, hreads⟩
    exact h.acyclic k.out (.head' hd (hleads (hdr hd)))
  · exact h.acyclic g.out
      (.single ⟨List.mem_map_of_mem ((hmem g).1 hg), g, (hmem g).1 hg, rfl, hself⟩)

end Netlist

end NandHdl
