import NandHdl.Proofs.Meaning
import NandHdl.Proofs.Renumbering
import NandHdl.Proofs.WellFormed

/-!
# The layout of one-bit bodies

Where every wire has one bit, a body can be laid out without slots. What a statement adds depends on its
own expression and on the number at which it starts. A name of the body stands for itself until all
statements are there.

* `Part`, `Frame`: the netlists that a body may copy, and the names that it knows.
* `Frame.layout`: the nodes that an expression adds, and its bit.
* `layout_rename`: an expression is laid out alike wherever it starts.
* `exists_perm_entries`: **in another order, the statements of a body are laid out alike up to a permutation
  of the node numbers.**
* `Frame.Table`: what the names of a body stand for. `endOf_rename`: the ends of its chains under other numbers.
-/

namespace NandHdl

/-- The wire of one bit. -/
def Wire.single (b : Bit) : Wire := ⟨#[b]⟩

@[simp] theorem Wire.map_single (f : Bit → Bit) (b : Bit) : (Wire.single b).map f = .single (f b) := by
  simp [Wire.single, Wire.map]

@[simp] theorem Wire.width_single (b : Bit) : (Wire.single b).width = 1 := rfl

@[simp] theorem Wire.bitOrZero_single (b : Bit) : (Wire.single b).bitOrZero 0 = b := rfl

/-- A wire of one bit is that bit. -/
theorem Wire.eq_single {w : Wire} (hw : w.width = 1) : w = .single (w.bitOrZero 0) := by
  obtain ⟨⟨bits⟩⟩ := w
  match bits, hw with
  | [b], _ => rfl

namespace Elaboration

/-! ## Parts -/

/-- The netlist of a module that may be called. Its nodes are numbered from `first` on. -/
structure Part where
  first : Nat
  netlist : Netlist
  closed : Closed first netlist

/-- What the elaboration of one expression comes to: the bit that it stands for, and the nodes that it adds. -/
structure Layout where
  bit : Bit
  nodes : List Node

/-- The layout with other numbers. -/
def Layout.rename (g : Nat → Nat) (l : Layout) : Layout := ⟨l.bit.rename g, l.nodes.map (Node.rename g)⟩

/-- A primitive with the number `start`. -/
def gate (cell : Bit → Bit → Cell) (start : Nat) (bits : List Bit) : Layout :=
  ⟨.node start, [⟨start, cell (bits.getD 0 (.const false)) (bits.getD 1 (.const false))⟩]⟩

/-- The first bit that a netlist outputs. -/
def firstOutput (n : Netlist) : Bit :=
  match n.outputs with
  | [] => .const false
  | o :: _ => o.2.bitOrZero 0

/-- A copy of a netlist whose nodes are numbered from `start` on. -/
def Part.copy (p : Part) (start : Nat) (bits : List Bit) : Layout :=
  ⟨(firstOutput p.netlist).copy p.first start (bits.map .single),
    p.netlist.nodes.toList.map (Node.copy p.first start (bits.map .single))⟩

/-- What a body knows: its inputs, of one bit each, the names that its statements assign, in any order, and
the netlists of the modules that it may call. -/
structure Frame where
  inputs : List String
  names : List String
  parts : List Part

namespace Frame

variable (f : Frame)

/-- The netlist under a name. -/
def part? (name : String) : Option Part := f.parts.find? (·.netlist.name = name)

/-- What a name stands for in a body: a bit of the inputs, itself, or nothing. Slot `j` stands for the name
with the number `j` here. -/
def read (name : String) : Bit :=
  match f.inputs.idxOf? name with
  | some i => .input i
  | none =>
    match f.names.idxOf? name with
    | some j => .forward j
    | none => .const false

/-- What a call of a name adds behind its arguments, if there is such a module. -/
def connector? (name : String) : Option (Nat → List Bit → Layout) :=
  if name = "nand" then some (gate .nand)
  else if name = "dff" then some (gate .dff)
  else (f.part? name).map Part.copy

mutual

/-- What an expression of one bit comes to where the next number is `next`. -/
def layout (next : Nat) : Expr → Layout
  | .identifier name => ⟨f.read name, []⟩
  | .number value => ⟨.const (value.testBit 0), []⟩
  | .call name args =>
    match f.connector? name with
    | none => ⟨.const false, []⟩
    | some connect =>
      let operands := layoutAll next args
      let added := connect (next + operands.2.length) operands.1
      ⟨added.bit, operands.2 ++ added.nodes⟩
  | .member _ _ => ⟨.const false, []⟩
  | .select _ _ => ⟨.const false, []⟩

/-- The bits of several expressions one after another, and the nodes that they add. -/
def layoutAll (next : Nat) : List Expr → List Bit × List Node
  | [] => ([], [])
  | e :: es =>
    let head := layout next e
    let tail := layoutAll (next + head.nodes.length) es
    (head.bit :: tail.1, head.nodes ++ tail.2)

end

end Frame

/-! ## Names -/

theorem idxOf?_of_nodup {names : List String} (h : names.Nodup) {i : Nat} {name : String}
    (hi : names[i]? = some name) : names.idxOf? name = some i := by
  obtain ⟨hlt, hget⟩ := List.getElem?_eq_some_iff.1 hi
  refine List.idxOf?_eq_some_iff.2 ⟨hlt, hget, fun j hj hother => ?_⟩
  have hsame : j = i := h.getElem_inj_iff.1 (hother.trans hget.symm)
  omega

theorem read_input {f : Frame} (hnodup : f.inputs.Nodup) {i : Nat} {name : String}
    (hi : f.inputs[i]? = some name) :
    f.read name = .input i := by
  rw [Frame.read, idxOf?_of_nodup hnodup hi]

theorem read_name {f : Frame} {name : String} (hinput : name ∉ f.inputs) (hname : name ∈ f.names) :
    ∃ j, f.read name = .forward j := by
  obtain ⟨j, hj⟩ := Option.isSome_iff_exists.1 (List.isSome_idxOf?.2 hname)
  exact ⟨j, by rw [Frame.read, List.idxOf?_eq_none_iff.2 hinput, hj]⟩

theorem read_unknown {f : Frame} {name : String} (hinput : name ∉ f.inputs) (hname : name ∉ f.names) :
    f.read name = .const false := by
  rw [Frame.read, List.idxOf?_eq_none_iff.2 hinput, List.idxOf?_eq_none_iff.2 hname]

/-- What stands for a name of the body is one. -/
theorem mem_of_read {f : Frame} {name : String} {j : Nat} (h : f.read name = .forward j) :
    name ∉ f.inputs ∧ f.names[j]? = some name := by
  unfold Frame.read at h
  split at h
  · cases h
  · next hinput =>
    split at h
    · next k hk =>
      cases h
      obtain ⟨hlt, hget, -⟩ := List.idxOf?_eq_some_iff.1 hk
      exact ⟨List.idxOf?_eq_none_iff.1 hinput, List.getElem?_eq_some_iff.2 ⟨hlt, hget⟩⟩
    · cases h

/-- What a name stands for is no name beyond those of the body. -/
theorem slotBelow_read (f : Frame) (name : String) : (f.read name).slotBelow f.names.length := by
  cases h : f.read name with
  | forward j => exact decide_eq_true (List.getElem?_eq_some_iff.1 (mem_of_read h).2).1
  | _ => rfl

/-! ## Layouts somewhere else -/

/-- The numbers from `next` to `next + size - 1` become those from `next'` on. -/
def Shifts (g : Nat → Nat) (next next' size : Nat) : Prop := ∀ r < size, g (next + r) = next' + r

variable {f : Frame} {g : Nat → Nat} {next next' : Nat}

theorem Shifts.left {size size' : Nat} (h : Shifts g next next' (size + size')) : Shifts g next next' size :=
  fun r hr => h r (by omega)

theorem Shifts.right {size size' : Nat} (h : Shifts g next next' (size + size')) :
    Shifts g (next + size) (next' + size) size' := by
  intro r hr
  have hshift := h (size + r) (by omega)
  rwa [← Nat.add_assoc, ← Nat.add_assoc] at hshift

theorem read_rename (f : Frame) (g : Nat → Nat) (name : String) : (f.read name).rename g = f.read name := by
  rw [Frame.read]
  cases f.inputs.idxOf? name with
  | some i => rfl
  | none => cases f.names.idxOf? name <;> rfl

theorem getD_rename (bits : List Bit) (i : Nat) :
    (bits.map (Bit.rename g)).getD i (.const false) = (bits.getD i (.const false)).rename g := by
  rw [List.getD_eq_getElem?_getD, List.getD_eq_getElem?_getD, List.getElem?_map]
  cases bits[i]? <;> rfl

theorem argumentBit_singles (bits : List Bit) (i : Nat) :
    argumentBit (bits.map .single) i = bits.getD i (.const false) := by
  have hbits : (bits.map Wire.single).flatMap (fun w => w.bits.toList) = bits := by
    induction bits with
    | nil => rfl
    | cons b bits ih => rw [List.map_cons, List.flatMap_cons, ih]; rfl
  rw [argumentBit, hbits]

theorem singles_rename (bits : List Bit) :
    (bits.map (Bit.rename g)).map Wire.single = (bits.map Wire.single).map (Wire.map (Bit.rename g)) := by
  simp only [List.map_map, Function.comp_def, Wire.map_single]

/-- What is inside a netlist is copied elsewhere. -/
theorem copy_rename {first size width : Nat} {b : Bit} (hb : Inside first (first + size) width b)
    (hg : Shifts g next next' size) (bits : List Bit) :
    (b.copy first next (bits.map .single)).rename g =
      b.copy first next' ((bits.map (Bit.rename g)).map .single) := by
  cases b with
  | node n =>
    obtain ⟨hle, hlt⟩ := hb
    have hn := hg (n - first) (by omega)
    simp only [Bit.copy, Bit.rename, Nat.add_comm _ next, hn, Nat.add_comm _ next']
  | input i =>
    rw [singles_rename]
    exact (argumentBit_map rfl _ i).symm
  | const v => rfl
  | forward k => exact hb.elim

theorem all_firstOutput {P : Bit → Prop} {n : Netlist} (h0 : P (.const false))
    (h : ∀ o ∈ n.outputs, o.2.All P) :
    P (firstOutput n) := by
  unfold firstOutput
  split
  · exact h0
  · next o _ ho => exact (h o (ho ▸ List.mem_cons_self)).bitOrZero h0 0

/-- A copy is the same elsewhere. -/
theorem Part.copy_rename (p : Part) (bits : List Bit) (hg : Shifts g next next' p.netlist.nodes.size) :
    (p.copy next bits).rename g = p.copy next' (bits.map (Bit.rename g)) := by
  have hbit := all_firstOutput trivial p.closed.outputs
  rw [Layout.rename, Part.copy, Part.copy, Elaboration.copy_rename hbit hg]
  refine congrArg (Layout.mk _) ?_
  rw [List.map_map]
  refine List.map_congr_left fun n hn => ?_
  obtain ⟨i, hi⟩ := List.mem_iff_getElem?.1 hn
  rw [Array.getElem?_toList] at hi
  have hid := p.closed.ids i n hi
  have hlt : i < p.netlist.nodes.size := (Array.getElem?_eq_some_iff.1 hi).1
  have hshift := hg i hlt
  have hread := p.closed.reads n (Array.mem_toList_iff.1 hn)
  rw [Function.comp_apply, Node.rename, Node.copy, Node.copy, Cell.map_map,
    Cell.map_congr (hread.imp fun b hb => Elaboration.copy_rename hb hg bits), hid, Nat.add_sub_cancel_left,
    Nat.add_comm i next, hshift, Nat.add_comm i next']

theorem gate_rename {cell : Bit → Bit → Cell}
    (hcell : ∀ a b, (cell a b).map (Bit.rename g) = cell (a.rename g) (b.rename g))
    (bits : List Bit) (hg : g next = next') :
    (gate cell next bits).rename g = gate cell next' (bits.map (Bit.rename g)) := by
  rw [gate, gate, Layout.rename, getD_rename, getD_rename, List.map_singleton, Node.rename, hcell,
    Bit.rename, hg]

/-- What a call adds is the same elsewhere. -/
theorem connect_rename {name : String} {connect : Nat → List Bit → Layout}
    (h : f.connector? name = some connect)
    (bits : List Bit) (hg : Shifts g next next' (connect next bits).nodes.length) :
    (connect next bits).rename g = connect next' (bits.map (Bit.rename g)) := by
  have hstart : 0 < (connect next bits).nodes.length → g next = next' := hg 0
  unfold Frame.connector? at h
  split at h
  · cases h
    exact gate_rename (fun _ _ => rfl) bits (hstart Nat.one_pos)
  split at h
  · cases h
    exact gate_rename (fun _ _ => rfl) bits (hstart Nat.one_pos)
  · obtain ⟨p, -, rfl⟩ := Option.map_eq_some_iff.1 h
    refine p.copy_rename bits ?_
    rwa [Part.copy, List.length_map, Array.length_toList] at hg

mutual

/-- **An expression is laid out alike wherever it starts.** -/
theorem layout_rename (f : Frame) : ∀ (e : Expr) {g : Nat → Nat} {next next' : Nat},
    Shifts g next next' (f.layout next e).nodes.length → (f.layout next e).rename g = f.layout next' e
  | .identifier name, g, next, next', _ => by
    rw [Frame.layout, Frame.layout, Layout.rename, read_rename]
    rfl
  | .number _, _, _, _, _ => by
    rw [Frame.layout, Frame.layout]
    rfl
  | .call name args, g, next, next', h => by
    rw [Frame.layout] at h
    rw [Frame.layout, Frame.layout]
    cases hc : f.connector? name with
    | none => rfl
    | some connect =>
      simp only [hc, List.length_append] at h ⊢
      have hargs := layoutAll_rename f args h.left
      have hlength : (f.layoutAll next' args).2.length = (f.layoutAll next args).2.length := by
        rw [← hargs, List.length_map]
      have hadded := connect_rename hc _ h.right
      rw [hlength, ← hargs, ← hadded, Layout.rename, List.map_append]
      rfl
  | .member _ _, _, _, _, _ => by
    rw [Frame.layout, Frame.layout]
    rfl
  | .select _ _, _, _, _, _ => by
    rw [Frame.layout, Frame.layout]
    rfl

theorem layoutAll_rename (f : Frame) : ∀ (es : List Expr) {g : Nat → Nat} {next next' : Nat},
    Shifts g next next' (f.layoutAll next es).2.length →
      ((f.layoutAll next es).1.map (Bit.rename g), (f.layoutAll next es).2.map (Node.rename g)) =
        f.layoutAll next' es
  | [], _, _, _, _ => by
    rw [Frame.layoutAll, Frame.layoutAll]
    rfl
  | e :: es, g, next, next', h => by
    rw [Frame.layoutAll] at h
    rw [Frame.layoutAll, Frame.layoutAll]
    simp only [List.length_append] at h ⊢
    have hhead := layout_rename f e h.left
    have hlength : (f.layout next' e).nodes.length = (f.layout next e).nodes.length := by
      rw [← hhead, Layout.rename, List.length_map]
    have htail := layoutAll_rename f es h.right
    rw [hlength, ← htail, ← hhead, List.map_cons, List.map_append]
    rfl

end

/-- An expression adds as many nodes wherever it starts. -/
theorem length_layout (f : Frame) (e : Expr) (next next' : Nat) :
    (f.layout next' e).nodes.length = (f.layout next e).nodes.length := by
  have hshift : Shifts (fun n => n - next + next') next next' (f.layout next e).nodes.length := by
    intro r _
    simp only
    omega
  rw [← layout_rename f e hshift, Layout.rename, List.length_map]

/-! ## Statements in another order -/

/-- What one statement comes to: the name that it assigns, and the layout of its expression. -/
structure Entry where
  name : String
  layout : Layout

/-- The entry with other numbers. -/
def Entry.rename (g : Nat → Nat) (e : Entry) : Entry := ⟨e.name, e.layout.rename g⟩

/-- What the statements of a body come to, one after another from the number `next` on. -/
def Frame.entries (f : Frame) : Nat → List Statement → List Entry
  | _, [] => []
  | next, st :: sts =>
    let l := f.layout next st.expr
    ⟨st.target.name, l⟩ :: f.entries (next + l.nodes.length) sts

theorem names_entries (f : Frame) (sts : List Statement) (next : Nat) :
    (f.entries next sts).map Entry.name = sts.map (·.target.name) := by
  induction sts generalizing next with
  | nil => rfl
  | cons st sts ih => rw [Frame.entries, List.map_cons, List.map_cons, ih]

theorem Layout.rename_rename {g h : Nat → Nat} (l : Layout) :
    (l.rename g).rename h = l.rename fun n => h (g n) := by
  rw [Layout.rename, Layout.rename, List.map_map, Bit.rename_rename]
  simp only [Function.comp_def, Node.rename_rename, Layout.rename]

theorem Entry.rename_rename {g h : Nat → Nat} (e : Entry) :
    (e.rename g).rename h = e.rename fun n => h (g n) := by
  rw [Entry.rename, Entry.rename, Layout.rename_rename]
  rfl

/-- Numbers that stay the same change no statement that starts there. -/
theorem entries_fixed (f : Frame) {g : Nat → Nat} (sts : List Statement) : ∀ {next : Nat},
    (∀ i, next ≤ i → g i = i) → (f.entries next sts).map (Entry.rename g) = f.entries next sts := by
  induction sts with
  | nil => exact fun _ => rfl
  | cons st sts ih =>
    intro next hg
    have hshift : Shifts g next next (f.layout next st.expr).nodes.length := fun r _ => hg (next + r) (by omega)
    have htail := @ih (next + (f.layout next st.expr).nodes.length) fun i hi => hg i (by omega)
    rw [Frame.entries, List.map_cons, htail, Entry.rename, layout_rename f st.expr hshift]

/-- The numbers from `next` on, with the first `m` of them behind the next `k`. -/
def swapBlocks (next m k : Nat) : Equiv.Perm Nat where
  toFun i := if i < next then i else if i < next + m then i + k else if i < next + m + k then i - m else i
  invFun i := if i < next then i else if i < next + k then i + m else if i < next + k + m then i - k else i
  left_inv i := by
    dsimp only
    split_ifs <;> omega
  right_inv i := by
    dsimp only
    split_ifs <;> omega

theorem swapBlocks_apply (next m k i : Nat) : swapBlocks next m k i =
    if i < next then i else if i < next + m then i + k else if i < next + m + k then i - m else i := rfl

/-- Two statements next to each other change places. -/
theorem entries_swap (f : Frame) (st st' : Statement) (sts : List Statement) (next : Nat) :
    ∃ π : Equiv.Perm Nat, (∀ i < next, π i = i) ∧
      (f.entries next (st' :: st :: sts)).Perm ((f.entries next (st :: st' :: sts)).map (Entry.rename π)) := by
  obtain ⟨m, hm⟩ : ∃ m, m = (f.layout next st.expr).nodes.length := ⟨_, rfl⟩
  obtain ⟨k, hk⟩ : ∃ k, k = (f.layout next st'.expr).nodes.length := ⟨_, rfl⟩
  have hk' : (f.layout (next + m) st'.expr).nodes.length = k := by rw [hk, length_layout f st'.expr next]
  have hm' : (f.layout (next + k) st.expr).nodes.length = m := by rw [hm, length_layout f st.expr next]
  refine ⟨swapBlocks next m k, fun i hi => ?_, ?_⟩
  · rw [swapBlocks_apply, if_pos hi]
  -- the first block goes behind the second, which comes to the front, and all else stays
  have hfirst : (f.layout next st.expr).rename (swapBlocks next m k) = f.layout (next + k) st.expr := by
    refine layout_rename f st.expr fun r hr => ?_
    rw [swapBlocks_apply]
    split_ifs <;> omega
  have hsecond : (f.layout (next + m) st'.expr).rename (swapBlocks next m k) = f.layout next st'.expr := by
    refine layout_rename f st'.expr fun r hr => ?_
    rw [swapBlocks_apply]
    split_ifs <;> omega
  have hrest : (f.entries (next + m + k) sts).map (Entry.rename (swapBlocks next m k)) =
      f.entries (next + m + k) sts := by
    refine entries_fixed f sts fun i hi => ?_
    rw [swapBlocks_apply]
    split_ifs <;> omega
  have hlength : next + k + m = next + m + k := by omega
  simp only [Frame.entries, ← hm, ← hk, hk', hm', List.map_cons, Entry.rename, hfirst, hsecond, hlength, hrest]
  exact List.Perm.swap ..

/-- **Statements in another order are laid out alike up to a permutation of the numbers**, and of the
statements. -/
theorem exists_perm_entries (f : Frame) {sts sts' : List Statement} (h : sts.Perm sts') : ∀ next,
    ∃ π : Equiv.Perm Nat, (∀ i < next, π i = i) ∧
      (f.entries next sts').Perm ((f.entries next sts).map (Entry.rename π)) := by
  induction h with
  | nil => exact fun _ => ⟨1, fun _ _ => rfl, .nil⟩
  | cons st _ ih =>
    intro next
    obtain ⟨π, hfixed, hperm⟩ := ih (next + (f.layout next st.expr).nodes.length)
    refine ⟨π, fun i hi => hfixed i (by omega), ?_⟩
    -- the numbers of the first statement lie before those that change
    have hhead : (f.layout next st.expr).rename π = f.layout next st.expr :=
      layout_rename f st.expr fun r hr => hfixed (next + r) (by omega)
    rw [Frame.entries, Frame.entries, List.map_cons, Entry.rename, hhead]
    exact hperm.cons _
  | swap st st' sts => exact entries_swap f st' st sts
  | trans _ _ ih ih' =>
    intro next
    obtain ⟨π, hfixed, hperm⟩ := ih next
    obtain ⟨π', hfixed', hperm'⟩ := ih' next
    refine ⟨π' * π, fun i hi => ?_, ?_⟩
    · rw [Equiv.Perm.mul_apply, hfixed i hi, hfixed' i hi]
    · have hrename : Entry.rename π' ∘ Entry.rename π = Entry.rename (π' * π : Equiv.Perm Nat) :=
        funext fun e => Entry.rename_rename e
      have hboth := hperm'.trans (hperm.map (Entry.rename π'))
      rwa [List.map_map, hrename] at hboth

/-! ## What the names stand for -/

theorem slotBelow_connect {f : Frame} {name : String} {connect : Nat → List Bit → Layout}
    (h : f.connector? name = some connect) {limit : Nat} (start : Nat) {bits : List Bit}
    (hbits : ∀ b ∈ bits, b.slotBelow limit) : (connect start bits).bit.slotBelow limit := by
  unfold Frame.connector? at h
  split at h
  · cases h
    rfl
  split at h
  · cases h
    rfl
  · obtain ⟨p, -, rfl⟩ := Option.map_eq_some_iff.1 h
    have hbit := all_firstOutput trivial p.closed.outputs
    rw [Part.copy]
    -- only arguments are names
    cases hfirst : firstOutput p.netlist with
    | input i =>
      rw [Bit.copy, argumentBit_singles, List.getD_eq_getElem?_getD]
      cases hi : bits[i]? with
      | none => rfl
      | some b => exact hbits b (List.mem_of_getElem? hi)
    | forward k =>
      rw [hfirst] at hbit
      exact hbit.elim
    | _ => rfl

mutual

/-- A bit of a layout is no name beyond those of the body. -/
theorem slotBelow_layout (f : Frame) : ∀ (e : Expr) (next : Nat),
    (f.layout next e).bit.slotBelow f.names.length
  | .identifier name, next => by
    rw [Frame.layout]
    exact slotBelow_read f name
  | .number _, next => by
    rw [Frame.layout]
    rfl
  | .call name args, next => by
    rw [Frame.layout]
    cases hc : f.connector? name with
    | none => rfl
    | some connect => exact slotBelow_connect hc _ (slotBelow_layoutAll f args next)
  | .member _ _, next => by
    rw [Frame.layout]
    rfl
  | .select _ _, next => by
    rw [Frame.layout]
    rfl

theorem slotBelow_layoutAll (f : Frame) : ∀ (es : List Expr) (next : Nat),
    ∀ b ∈ (f.layoutAll next es).1, b.slotBelow f.names.length
  | [], next => by
    rw [Frame.layoutAll]
    exact List.forall_mem_nil _
  | e :: es, next => by
    rw [Frame.layoutAll]
    exact List.forall_mem_cons.2 ⟨slotBelow_layout f e next, slotBelow_layoutAll f es _⟩

end

/-- The bits that the names of a body stand for directly, each under the number of its name. -/
structure Frame.Table (f : Frame) (entries : List Entry) (table : Array Bit) : Prop where
  size : table.size = f.names.length
  get : ∀ e ∈ entries, ∃ j : Nat, f.read e.name = .forward j ∧ table[j]? = some e.layout.bit
  below : ∀ b ∈ table, b.slotBelow f.names.length

theorem slotBelow_entry {f : Frame} {sts : List Statement} {next : Nat} {e : Entry}
    (h : e ∈ f.entries next sts) :
    e.layout.bit.slotBelow f.names.length := by
  induction sts generalizing next with
  | nil => cases h
  | cons st sts ih =>
    rcases List.mem_cons.1 h with rfl | h
    · exact slotBelow_layout f st.expr next
    · exact ih h

/-- The table of a body whose names are listed in the order of its statements. -/
theorem exists_table {f : Frame} {sts : List Statement} (hnames : f.names = sts.map (·.target.name))
    (hnodup : (f.inputs ++ f.names).Nodup) (next : Nat) : ∃ table, f.Table (f.entries next sts) table := by
  have hentries : (f.entries next sts).map Entry.name = f.names := by rw [names_entries, hnames]
  refine ⟨((f.entries next sts).map (·.layout.bit)).toArray, ?_, fun e he => ?_, fun b hb => ?_⟩
  · rw [List.size_toArray, List.length_map, ← hentries, List.length_map]
  · obtain ⟨j, hj⟩ := List.mem_iff_getElem?.1 he
    have hname : f.names[j]? = some e.name := by rw [← hentries, List.getElem?_map, hj]; rfl
    obtain ⟨-, hdistinct, hdisjoint⟩ := List.nodup_append.1 hnodup
    have hinput : e.name ∉ f.inputs := fun hmem =>
      hdisjoint e.name hmem e.name (List.mem_of_getElem? hname) rfl
    refine ⟨j, ?_, ?_⟩
    · rw [Frame.read, List.idxOf?_eq_none_iff.2 hinput, idxOf?_of_nodup hdistinct hname]
    · rw [List.getElem?_toArray, List.getElem?_map, hj]
      rfl
  · obtain ⟨e, he, rfl⟩ := List.mem_map.1 (List.mem_toArray.1 hb)
    exact slotBelow_entry he

/-- The bit that takes the place of a bit where every name stands for what `table` says. -/
def endOf (table : Array Bit) : Bit → Bit := Bit.resolve 0 (chaseAll 0 table)

theorem Frame.Table.rename {f : Frame} {entries entries' : List Entry} {table : Array Bit} {g : Nat → Nat}
    (h : f.Table entries table) (hperm : entries'.Perm (entries.map (Entry.rename g))) :
    f.Table entries' (table.map (Bit.rename g)) := by
  refine ⟨by rw [Array.size_map, h.size], fun e he => ?_, fun b hb => ?_⟩
  · obtain ⟨d, hd, rfl⟩ := List.mem_map.1 (hperm.mem_iff.1 he)
    obtain ⟨j, hname, hbit⟩ := h.get d hd
    exact ⟨j, hname, by rw [Array.getElem?_map, hbit]; rfl⟩
  · obtain ⟨c, hc, rfl⟩ := Array.mem_map.1 hb
    rw [slotBelow_rename]
    exact h.below c hc

/-- **The ends of chains under other numbers.** -/
theorem endOf_rename (g : Nat → Nat) (table : Array Bit) (b : Bit) :
    endOf (table.map (Bit.rename g)) (b.rename g) = (endOf table b).rename g := by
  rw [endOf, endOf, chaseAll_rename, resolve_rename]

/-- The node with every bit replaced by the end of its chain. -/
def Node.settle (table : Array Bit) (n : Node) : Node := ⟨n.id, n.cell.map (endOf table)⟩

theorem Node.settle_rename (g : Nat → Nat) (table : Array Bit) (n : Node) :
    Node.settle (table.map (Bit.rename g)) (n.rename g) = (Node.settle table n).rename g := by
  simp only [Node.settle, Node.rename, Cell.map_map, endOf_rename]

/-- The wire that a name stands for in the end. -/
def Frame.final (f : Frame) (table : Array Bit) (name : String) : Wire := .single (endOf table (f.read name))

theorem final_rename (f : Frame) (g : Nat → Nat) (table : Array Bit) (name : String) :
    f.final (table.map (Bit.rename g)) name = (f.final table name).map (Bit.rename g) := by
  rw [Frame.final, Frame.final, Wire.map_single, ← endOf_rename, read_rename]

end Elaboration

end NandHdl
