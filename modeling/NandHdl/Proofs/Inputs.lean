import NandHdl.Proofs.Memory
import NandHdl.Proofs.Statements

/-!
# Inputs

Inputs are numbered twice, once where a module is elaborated and once where its circuit is made ready to
run. Both put their bits in the same places, so that a value given to an input is the one that its wire reads.

* `Pin.named_wires`: **both countings of the input bits agree.**
* `signal_of_input`: the signal of an input is its wire, if nothing else has its name.
* `Simulator.setInputs`: values given to inputs one after another. `getD_setInputs`: every input has the last
  value that it was given.
* `Simulator.Given`: what giving a value to one input does.
* `Simulator.inputs_are_independent`: **inputs do not interfere and read back.**
-/

namespace NandHdl

/-! ## Both countings -/

/-- The input bits of a pin, as they are numbered in elaboration. -/
def Pin.wire (p : Pin) : Wire := .ofFn p.width fun i => .input (p.offset + i)

/-- **Both countings agree**: the wires that elaboration makes of ports lead to the pins of these ports. -/
theorem Pin.named_wires (offset : Nat) (ps : List Port) :
    (ps.map Port.name).zip (Elaboration.inputWires offset ps) =
      (ofPorts offset ps).map fun e => (e.1, e.2.wire) := by
  induction ps generalizing offset with
  | nil => rfl
  | cons p ps ih =>
    rw [ofPorts, List.map_cons, List.map_cons, ← ih]
    rfl

theorem Pin.fit_wire (p : Pin) : p.wire.fit p.width = p.wire := by
  have hwidth : p.wire.width = p.width := Wire.width_ofFn _ _
  exact hwidth ▸ Elaboration.ofFn_bitOrZero p.wire

namespace Elaboration

variable {b : Body} {scope : Scope Signal} {s s' : State} {name : String}

/-! ## The signal of an input -/

theorem lookup_argumentScope_of_not_mem {ps : List Port} (hname : name ∉ ps.map Port.name) :
    ∀ {scope : Scope Signal} {ws : List Wire}, (argumentScope scope ps ws).lookup name = scope.lookup name := by
  induction ps with
  | nil => exact fun {_ _} => rfl
  | cons p ps ih =>
    intro scope ws
    rw [List.map_cons, List.mem_cons, not_or] at hname
    cases ws with
    | nil => rfl
    | cons w ws => rw [argumentScope, ih hname.2, Scope.lookup_bind, if_neg fun heq => hname.1 heq.symm]

/-- An outermost body starts with each input bound to the wire of its pin. -/
theorem lookup_start {offset : Nat} {before after : List Port} {p : Port} (hname : p.name ∉ after.map Port.name)
    {scope : Scope Signal} :
    (argumentScope scope (before ++ p :: after) (inputWires offset (before ++ p :: after))).lookup p.name =
      some (.wire (Pin.wire ⟨offset + (before.map Port.width).sum, p.width⟩)) := by
  induction before generalizing offset scope with
  | nil =>
    rw [List.nil_append, inputWires, argumentScope, lookup_argumentScope_of_not_mem hname, Scope.lookup_bind,
      if_pos rfl]
    exact congrArg (some ∘ Signal.wire) (Pin.fit_wire ⟨offset, p.width⟩)
  | cons q before ih =>
    rw [List.cons_append, inputWires, argumentScope, ih, List.map_cons, List.sum_cons, Nat.add_assoc]

/-- **A wire is a local signal under its own name** and under no other that could be mistaken for it: the outputs
of instances have names with a dot. -/
theorem local_of_wire {w : Wire} (hdot : '.' ∉ name.toList) {xs : List (String × Signal)} :
    ∀ {s s' : State} {ws : List (String × Wire)}, Gives (locals b scope xs) s ws s' →
      (∀ x, (name, x) ∈ xs → x = .wire w) → ∀ v, (name, v) ∈ ws → v = w := by
  induction xs with
  | nil =>
    intro s s' ws h _ v hv
    rw [(gives_pure.1 h).1] at hv
    cases hv
  | cons e xs ih =>
    obtain ⟨other, x⟩ := e
    intro s s' ws h hxs v hv
    rw [locals_cons] at h
    obtain ⟨here, s₁, hhere, h⟩ := gives_bind.1 h
    obtain ⟨rest, s₂, hrest, h⟩ := gives_bind.1 h
    obtain ⟨rfl, rfl⟩ := gives_pure.1 h
    rcases List.mem_append.1 hv with hv | hv
    swap
    · exact ih hrest (fun x hx => hxs x (List.mem_cons_of_mem _ hx)) v hv
    have hfields : ∀ fields : List (String × Wire),
        (name, v) ∉ fields.map fun f => (other ++ "." ++ f.1, f.2) := fun fields hmem => by
      obtain ⟨f, -, heq⟩ := List.mem_map.1 hmem
      cases heq
      simp at hdot
    have hwire : follow scope (.wire w) = .wire w := follow_of_ne (fun _ h => by cases h) scope
    have hsame : other = name → x = .wire w := fun heq => hxs x (heq ▸ List.mem_cons_self)
    unfold wiresOf at hhere
    split at hhere
    · next u hx =>
      rw [(gives_pure.1 hhere).1, List.mem_singleton] at hv
      cases hv
      rw [hsame rfl, hwire] at hx
      cases hx
    · next fields _ _ =>
      rw [(gives_pure.1 hhere).1] at hv
      exact absurd hv (hfields fields)
    · next _ _ =>
      obtain ⟨u, s₃, hu, hhere⟩ := gives_bind.1 hhere
      rw [(gives_pure.1 hhere).1, List.mem_singleton] at hv
      cases hv
      rw [hsame rfl, hwire, materialize, hwire] at hu
      exact (gives_pure.1 hu).1

variable {before after : List Port} {p : Port}

/-- Of an input that no statement assigns, the outermost body names the wire. -/
theorem local_of_input {i : Instance} (h : Gives (outerBody b (inputWires 0 b.module.inputs)) s i s')
    (hinputs : b.module.inputs = before ++ p :: after) (hname : p.name ∉ after.map Port.name)
    (hassigned : b.module.assigns p.name = false) (hdot : '.' ∉ p.name.toList) :
    ∀ v, (p.name, v) ∈ i.locals → v = Pin.wire ⟨(before.map Port.width).sum, p.width⟩ := by
  obtain ⟨scope, s₁, hassign, h⟩ := gives_bind.1 h
  obtain ⟨outs, s₂, houtputs, h⟩ := gives_bind.1 h
  obtain ⟨locs, s₃, hlocals, h⟩ := gives_bind.1 h
  obtain ⟨log, hlog⟩ := gives_resolveForwards (b := b) (noneDangling_of_gives h)
  obtain ⟨rfl, -⟩ := h.unique hlog
  have htargets : p.name ∉ b.module.statements.map (·.target.name) := fun hmem => by
    obtain ⟨st, hst, heq⟩ := List.mem_map.1 hmem
    rw [Module.assigns, List.any_eq_false] at hassigned
    exact hassigned st hst (decide_eq_true heq)
  have hlookup : scope.lookup p.name = some (.wire (Pin.wire ⟨(before.map Port.width).sum, p.width⟩)) := by
    rw [lookup_assignAll _ hassign htargets, hinputs, lookup_start hname, Nat.zero_add]
  have hlocal := local_of_wire hdot hlocals fun x hx =>
    Option.some.inj ((Scope.mem_latest_iff.1 hx).symm.trans hlookup)
  intro v hv
  obtain ⟨⟨other, w⟩, hw, heq⟩ := List.mem_map.1 hv
  cases heq
  -- no slot is resolved in a wire of input bits
  rw [hlocal w hw, Pin.wire, Wire.map_ofFn]
  rfl

/-- Of wires under different names, each is the only one with its name. -/
theorem unique_of_nodup {ws : List (String × Wire)} (hnodup : (ws.map Prod.fst).Nodup) {name : String}
    {v w : Wire} (hv : (name, v) ∈ ws) (hw : (name, w) ∈ ws) : v = w :=
  congrArg Prod.snd (List.inj_on_of_nodup_map hnodup hv hw rfl)

/-- **The signal of an input is its wire** if no statement assigns the name of the input and no output of an
instance can have it. -/
theorem signal_of_input {l : Ledger} {ms : List Module} {lib : Library} (h : (l.compile ms).result = .ok lib)
    {k : Nat} {m : Module} (hm : ms[k]? = some m) {n : Netlist} (hn : lib.netlists[k]? = some n)
    (hinputs : m.inputs = before ++ p :: after) (hassigned : m.assigns p.name = false)
    (hdot : '.' ∉ p.name.toList) :
    n.signal? p.name = some (Pin.wire ⟨(before.map Port.width).sum, p.width⟩) := by
  have hwell := wellFormed_of_mem h (List.mem_of_getElem? hn)
  obtain ⟨u, hu⟩ := (instances_are_copies h hm hn).own
  have hof := isOf_of_netlist hu
  obtain ⟨i, t, hbody, hsignals, -⟩ := outerBody_of_netlist hu
  have hp : p ∈ n.inputs := by
    rw [hof.inputs, hinputs]
    exact List.mem_append_right _ List.mem_cons_self
  obtain ⟨hins, -, hdiffer⟩ := List.nodup_append.1 hwell.ports_differ
  rw [hof.inputs] at hins
  have hafter : p.name ∉ after.map Port.name := by
    rw [hinputs, List.map_append, List.map_cons] at hins
    exact (List.nodup_cons.1 (List.nodup_append.1 hins).2.1).1
  obtain ⟨v, hv⟩ := Option.isSome_iff_exists.1 (hwell.input_signal p hp)
  rw [hv]
  rw [Netlist.signal?, hsignals] at hv
  congr 1
  -- wherever the signal comes from, it is the wire
  rcases NameTable.mem_insertAll (NameTable.mem_of_get? hv) with hout | hv
  · have hport : p.name ∈ (i.outputs.map fun o => (o.1, o.2.width)).map Prod.fst := by
      rw [List.map_map]
      exact List.mem_map_of_mem hout
    rw [ports_outerBody hbody, List.map_map] at hport
    have hnames : n.outputs.map (fun o => o.1.name) = m.outputs.map Port.name := by
      rw [← hof.outputs, List.map_map]
      rfl
    exact absurd rfl (hdiffer p.name (List.mem_map_of_mem hp) p.name (hnames ▸ hport))
  rcases NameTable.mem_insertAll hv with hloc | hv
  · exact local_of_input hbody hinputs hafter hassigned hdot v hloc
  rcases NameTable.mem_insertAll hv with hin | hv
  · have hpin : (p.name, Pin.wire ⟨(before.map Port.width).sum, p.width⟩) ∈
        (m.inputs.map Port.name).zip (inputWires 0 m.inputs) := by
      rw [Pin.named_wires]
      refine List.mem_map.2 ⟨_, Pin.mem_ofPorts.2 ⟨before, p, after, hinputs, rfl⟩, ?_⟩
      rw [Nat.zero_add]
    refine unique_of_nodup ?_ hin hpin
    rwa [List.map_fst_zip (by rw [List.length_map, length_inputWires])]
  · cases hv

end Elaboration

/-! ## Numbers on wires -/

theorem testBit_ofBits (bs : List Bool) (i : Nat) : (ofBits bs).testBit i = bs.getD i false := by
  induction bs generalizing i with
  | nil => exact Nat.zero_testBit i
  | cons b bs ih =>
    rw [ofBits]
    cases i with
    | zero => cases b <;> simp
    | succ i =>
      rw [Nat.testBit_succ, List.getD_cons_succ, ← ih]
      congr 1
      rw [Nat.add_mul_div_left _ _ Nat.two_pos, Nat.div_eq_of_lt b.toNat_lt, Nat.zero_add]

/-- The named signals of a circuit are those of its netlist. -/
theorem Netlist.sources_of_signal {n : Netlist} {name : String} {w : Wire} (h : n.signal? name = some w) :
    (Circuit.ofNetlist n).value.signals.get? name = some (w.bits.toList.map n.source) := by
  have hsorted : (n.signals.entries.map Prod.fst).Nodup :=
    (List.pairwise_map.2 n.signals.sorted).imp fun {a b} (hlt : a < b) (heq : a = b) =>
      String.lt_irrefl b (heq ▸ hlt)
  have hsources : ∀ es, (Wiring.namedSources n.name (Wiring.places n.nodes.toList) es).value =
      es.map fun e => (e.1, e.2.bits.toList.map n.source) := Wiring.value_namedSources _ _
  show (NameTable.empty.insertAll (Wiring.namedSources _ _ n.signals.entries).value).get? name = _
  rw [hsources]
  refine NameTable.get?_insertAll_of_mem (e := (name, w.bits.toList.map n.source)) ?_ ?_
  · rwa [List.map_map]
  · exact List.mem_map_of_mem (NameTable.mem_of_get? h)

namespace Simulator

variable {n : Netlist} {s t : Simulator} {name : String} {p : Pin} {value : Nat}

/-! ## Values given to inputs -/

/-- What giving a value to the input with the pin `p` leaves: the bits of the pin are those of the value, 0 past the
end of a word, and all else is as it was. -/
structure Given (s : Simulator) (p : Pin) (value : Nat) (t : Simulator) : Prop where
  within : p.offset + p.width ≤ s.pins.size
  own : ∀ i < p.width, t.pins.getD (p.offset + i) false = (decide (i < wordBits) && value.testBit i)
  others : ∀ j, ¬ p.Covers j → t.pins.getD j false = s.pins.getD j false
  size : t.pins.size = s.pins.size
  rest : t = s.withPins t.pins

theorem setInput_of_pin (h : s.circuit.inputs.get? name = some p) (value : Nat) :
    s.setInput name value = .ok (s.withPins (p.drive value s.pins)) := by
  unfold setInput
  rw [h]
  rfl

theorem setInput_of_none (h : s.circuit.inputs.get? name = none) (value : Nat) :
    s.setInput name value = .error (.noSuchInput name) := by
  unfold setInput
  rw [h]

theorem wire_of_signal {xs : List Source} (h : s.circuit.signals.get? name = some xs) :
    s.wire name = .ok (s.value xs) := by
  unfold wire
  rw [h]

theorem given_drive (h : p.offset + p.width ≤ s.pins.size) (value : Nat) :
    s.Given p value (s.withPins (p.drive value s.pins)) where
  within := h
  own i hi := by
    show (p.drive value s.pins).getD (p.offset + i) false = _
    rw [Pin.getD_drive h, if_pos ⟨by omega, by omega⟩, Nat.add_sub_cancel_left]
  others j hj := by
    show (p.drive value s.pins).getD j false = _
    rw [Pin.getD_drive h, if_neg hj]
  size := Pin.size_drive p value s.pins
  rest := rfl

/-- **An input reads back** as far as it has bits and a word has. -/
theorem Given.value_wire (h : s.Given p value t) (n : Netlist) :
    t.value (p.wire.bits.toList.map n.source) = value % 2 ^ min p.width wordBits := by
  refine Nat.eq_of_testBit_eq fun i => ?_
  have hbits : (((p.wire.bits.toList.map n.source).take wordBits).map t.read).getD i false =
      (decide (i < min p.width wordBits) && t.pins.getD (p.offset + i) false) := by
    rw [Pin.wire, Wire.ofFn, Array.toList_ofFn, List.map_ofFn, List.getD_eq_getElem?_getD, List.getElem?_map,
      List.getElem?_take, List.getElem?_ofFn]
    by_cases hi : i < min p.width wordBits
    · rw [if_pos (by omega), dif_pos (by omega), decide_eq_true hi]
      rfl
    · rw [decide_eq_false hi, Bool.false_and]
      split
      · rw [dif_neg (by omega)]
        rfl
      · rfl
  rw [Simulator.value, testBit_ofBits, hbits, Nat.testBit_mod_two_pow]
  by_cases hi : i < min p.width wordBits
  · rw [h.own i (by omega), decide_eq_true (show i < wordBits by omega), Bool.true_and]
  · rw [decide_eq_false hi, Bool.false_and, Bool.false_and]

/-- The value that a name is given last. -/
def lastValue? (name : String) : List (String × Nat) → Option Nat
  | [] => none
  | (other, value) :: es => (lastValue? name es).or (if other = name then some value else none)

theorem lastValue?_append (name : String) (es es' : List (String × Nat)) :
    lastValue? name (es ++ es') = (lastValue? name es').or (lastValue? name es) := by
  induction es with
  | nil => exact (Option.or_none).symm
  | cons e es ih => rw [List.cons_append, lastValue?, lastValue?, ih, Option.or_assoc]

/-- The state after values have been given to names, one after another. -/
def setInputs (s : Simulator) (es : List (String × Nat)) : Simulator :=
  (s.performAll (es.map fun e => .setInput e.1 e.2)).value.1

theorem setInputs_cons (s : Simulator) (e : String × Nat) (es : List (String × Nat)) :
    s.setInputs (e :: es) = (s.perform (.setInput e.1 e.2)).value.1.setInputs es := rfl

theorem perform_setInput_of_pin (h : s.circuit.inputs.get? name = some p) (value : Nat) :
    (s.perform (.setInput name value)).value.1 = s.withPins (p.drive value s.pins) := by
  rw [perform, setInput_of_pin h]
  rfl

theorem perform_setInput_of_none (h : s.circuit.inputs.get? name = none) (value : Nat) :
    (s.perform (.setInput name value)).value = (s, .refused (.noSuchInput name)) := by
  rw [perform, setInput_of_none h]
  rfl

/-- Giving a value to a name changes input bits alone. -/
theorem perform_setInput_eq (s : Simulator) (name : String) (value : Nat) :
    (s.perform (.setInput name value)).value.1 =
      s.withPins (s.perform (.setInput name value)).value.1.pins := by
  cases h : s.circuit.inputs.get? name with
  | none => rw [perform_setInput_of_none h]; rfl
  | some p => rw [perform_setInput_of_pin h]; rfl

theorem Fits.setInput (hs : s.Fits n) (name : String) (value : Nat) :
    (s.perform (.setInput name value)).value.1.Fits n := by
  have hframes : s.Frames (s.perform (.setInput name value)).value.1 := s.perform_frames rfl
  exact ⟨hframes.circuit.trans hs.circuit, hframes.values ▸ hs.values, hframes.pins.trans hs.pins⟩

theorem setInputs_eq (s : Simulator) (es : List (String × Nat)) : s.setInputs es = s.withPins (s.setInputs es).pins := by
  induction es generalizing s with
  | nil => rfl
  | cons e es ih =>
    rw [setInputs_cons, ih, perform_setInput_eq]
    rfl

theorem Fits.setInputs (hs : s.Fits n) (es : List (String × Nat)) : (s.setInputs es).Fits n := by
  induction es generalizing s with
  | nil => exact hs
  | cons e es ih => exact ih (hs.setInput e.1 e.2)

/-- What giving one value does to the bits of an input: they change if it is the one that is named. -/
theorem Fits.getD_setInput (hs : s.Fits n) (hp : n.pins.get? name = some p) {j : Nat} (hj : p.Covers j)
    (other : String) (value : Nat) : (s.perform (.setInput other value)).value.1.pins.getD j false =
      if other = name then decide (j - p.offset < wordBits) && value.testBit (j - p.offset)
      else s.pins.getD j false := by
  cases hq : n.pins.get? other with
  | none =>
    rw [perform_setInput_of_none (hs.inputs ▸ hq), if_neg]
    rintro rfl
    cases hp.symm.trans hq
  | some q =>
    have hle : q.offset + q.width ≤ s.pins.size := hs.pins ▸ Netlist.pin_le hq
    rw [perform_setInput_of_pin (hs.inputs ▸ hq)]
    show (q.drive value s.pins).getD j false = _
    rw [Pin.getD_drive hle]
    by_cases hname : other = name
    · obtain rfl : p = q := Option.some.inj (hp.symm.trans (hname ▸ hq))
      rw [if_pos hj, if_pos hname]
    · rw [if_neg fun hcovers => Netlist.pins_disjoint hq hp hname j ⟨hcovers, hj⟩, if_neg hname]

/-- **Every input has the last value that it was given**, and keeps its bits if it was given none. -/
theorem Fits.getD_setInputs (hs : s.Fits n) (hp : n.pins.get? name = some p) {j : Nat} (hj : p.Covers j)
    (es : List (String × Nat)) : (s.setInputs es).pins.getD j false =
      match lastValue? name es with
      | some value => decide (j - p.offset < wordBits) && value.testBit (j - p.offset)
      | none => s.pins.getD j false := by
  induction es generalizing s with
  | nil => rfl
  | cons e es ih =>
    rw [setInputs_cons, ih (hs.setInput e.1 e.2), hs.getD_setInput hp hj, lastValue?]
    cases lastValue? name es with
    | some value => rfl
    | none =>
      rw [Option.none_or]
      by_cases he : e.1 = name
      · rw [if_pos he, if_pos he]
      · rw [if_neg he, if_neg he]

/-- The order in which different inputs are given values does not matter, and values that are replaced do not
either. -/
theorem Fits.setInputs_congr (hs : s.Fits n) (hports : (n.inputs.map Port.name).Nodup) {es es' : List (String × Nat)}
    (h : ∀ name ∈ n.inputs.map Port.name, lastValue? name es = lastValue? name es') :
    s.setInputs es = s.setInputs es' := by
  have htiles := Netlist.tiles_pins hports
  have hget : ∀ j < n.inputWidth, (s.setInputs es).pins.getD j false = (s.setInputs es').pins.getD j false := by
    intro j hj
    obtain ⟨name, ⟨p, hp, hcovers⟩, -⟩ := (htiles.covered j).1 hj
    rw [hs.getD_setInputs hp hcovers, hs.getD_setInputs hp hcovers, h name (htiles.named name p hp)]
  rw [setInputs_eq s es, setInputs_eq s es']
  congr 1
  refine Array.ext ((hs.setInputs es).pins.trans (hs.setInputs es').pins.symm) fun j hj hj' => ?_
  have hbit := hget j ((hs.setInputs es).pins ▸ hj)
  rwa [Array.getD_eq_getD_getElem?, Array.getD_eq_getD_getElem?, Array.getElem?_eq_getElem hj,
    Array.getElem?_eq_getElem hj', Option.getD_some, Option.getD_some] at hbit

/-- **Inputs do not interfere and read back**, in every state of every compiled module. The bits that elaboration
numbers are those that the pins of the circuit lead to. Giving a value to an input puts its bits on the pin, 0
where the value has none, and changes nothing else; the input reads as that value at once, as far as it has bits,
if no statement assigns its name and no output of an instance can have it. A name that is no input is refused and
nothing changes. Values for different inputs can be given in any order, a later value makes an earlier one for the
same input irrelevant, and the state depends on nothing but the last value that each input is given. -/
theorem inputs_are_independent {l : Ledger} {ms : List Module} {lib : Library}
    (h : (l.compile ms).result = .ok lib) {k : Nat} {m : Module} (hm : ms[k]? = some m) {n : Netlist}
    (hn : lib.netlists[k]? = some n) (ram : Ram) (ops : List Operation) :
    let s := ((ofNetlist n ram).value.performAll ops).value.1
    (∀ offset ps, (ps.map Port.name).zip (Elaboration.inputWires offset ps) =
      (Pin.ofPorts offset ps).map fun e => (e.1, e.2.wire)) ∧
    (∀ before p after, m.inputs = before ++ p :: after → ∀ value, ∃ t,
      s.setInput p.name value = .ok t ∧ s.Given ⟨(before.map Port.width).sum, p.width⟩ value t ∧
      (m.assigns p.name = false → '.' ∉ p.name.toList →
        t.wire p.name = .ok (value % 2 ^ min p.width wordBits))) ∧
    (∀ name ∉ m.inputs.map Port.name, ∀ value,
      s.setInput name value = .error (.noSuchInput name) ∧
      (s.perform (.setInput name value)).value = (s, .refused (.noSuchInput name))) ∧
    (∀ p q u v, p ≠ q → s.setInputs [(p, u), (q, v)] = s.setInputs [(q, v), (p, u)]) ∧
    (∀ p u v es, s.setInputs ((p, u) :: es ++ [(p, v)]) = s.setInputs (es ++ [(p, v)])) ∧
    ∀ es es', (∀ name ∈ m.inputs.map Port.name, lastValue? name es = lastValue? name es') →
      s.setInputs es = s.setInputs es' := by
  intro s
  have hwell := Elaboration.wellFormed_of_mem h (List.mem_of_getElem? hn)
  obtain ⟨u, hu⟩ := (Elaboration.instances_are_copies h hm hn).own
  have hof := Elaboration.isOf_of_netlist hu
  obtain ⟨before, hreached⟩ := (Reached.start (n := n) ram).performAll ops
  have hs : s.Fits n := hreached.tracks.toFits
  have hports : (n.inputs.map Port.name).Nodup := (List.nodup_append.1 hwell.ports_differ).1
  have htiles := Netlist.tiles_pins hports
  have hcongr : ∀ es es', (∀ name ∈ m.inputs.map Port.name, lastValue? name es = lastValue? name es') →
      s.setInputs es = s.setInputs es' := fun es es' hes => hs.setInputs_congr hports (hof.inputs ▸ hes)
  refine ⟨Pin.named_wires, fun before p after hinputs value => ?_, fun name hname value => ?_,
    fun p q u v hne => hcongr _ _ fun name _ => ?_, fun p u v es => hcongr _ _ fun name _ => ?_, hcongr⟩
  · have hpin := htiles.consecutive before p after (hof.inputs ▸ hinputs)
    have hgiven := given_drive (s := s) (hs.pins ▸ Netlist.pin_le hpin) value
    refine ⟨_, setInput_of_pin (hs.inputs ▸ hpin) value, hgiven, fun hassigned hdot => ?_⟩
    have hsignal := Netlist.sources_of_signal (Elaboration.signal_of_input h hm hn hinputs hassigned hdot)
    have hcircuit : (s.withPins (Pin.drive ⟨(before.map Port.width).sum, p.width⟩ value s.pins)).circuit =
        (Circuit.ofNetlist n).value := hs.circuit
    rw [← hcircuit] at hsignal
    exact (wire_of_signal hsignal).trans (congrArg Except.ok (hgiven.value_wire n))
  · have hnone : s.circuit.inputs.get? name = none := by
      rw [hs.inputs, Option.eq_none_iff_forall_ne_some]
      intro p hp
      exact hname (hof.inputs ▸ htiles.named name p hp)
    exact ⟨setInput_of_none hnone value, perform_setInput_of_none hnone value⟩
  · simp only [lastValue?, Option.none_or]
    by_cases hp : p = name
    · have hq : q ≠ name := fun hq => hne (hp.trans hq.symm)
      rw [if_pos hp, if_neg hq, Option.none_or, Option.or_none]
    · rw [if_neg hp, Option.or_none, Option.none_or]
  · rw [List.cons_append, lastValue?, lastValue?_append]
    by_cases hp : p = name
    · simp [lastValue?, hp]
    · rw [if_neg hp, Option.or_none]

/-- A module with an input that is wider than a word. -/
def wideInput : Module :=
  ⟨"Wide", [⟨"a", 2⟩, ⟨"b", 70⟩, ⟨"c", 1⟩], [⟨"out", 1⟩],
    [⟨⟨"out", none⟩, .call "nand" [.identifier "c", .select (.identifier "b") (.bit 69)]⟩]⟩

theorem wideInput_compiles : (Ledger.compile {} [wideInput]).result.toOption.isSome = true := by decide +kernel

/-- The wide input lies behind the first one, is given a word and reads as that word. -/
theorem wideInput_reads_back : ∃ lib n, (Ledger.compile {} [wideInput]).result = .ok lib ∧
    [wideInput][0]? = some wideInput ∧ lib.netlists[0]? = some n ∧
    let s := ((ofNetlist n (.zeros 1)).value.performAll [.setInput "c" 1, .step]).value.1
    (∃ t, s.setInput "b" (2 ^ 63 + 5) = .ok t ∧ s.Given ⟨2, 70⟩ (2 ^ 63 + 5) t ∧
      t.wire "b" = .ok ((2 ^ 63 + 5) % 2 ^ min 70 wordBits)) ∧
    s.setInput "d" 1 = .error (.noSuchInput "d") ∧
    s.setInputs [("a", 3), ("b", 1)] = s.setInputs [("b", 1), ("a", 3)] ∧
    s.setInputs [("b", 7), ("a", 3), ("b", 1)] = s.setInputs [("a", 3), ("b", 1)] := by
  have hcompiles := wideInput_compiles
  cases h : (Ledger.compile {} [wideInput]).result with
  | error e =>
    rw [h] at hcompiles
    cases hcompiles
  | ok lib =>
    obtain ⟨n, hn⟩ := Elaboration.exists_netlist h (k := 0) rfl
    obtain ⟨-, hinput, hunknown, hcommute, hreplaced, -⟩ := inputs_are_independent h rfl hn (.zeros 1)
      [.setInput "c" 1, .step]
    obtain ⟨t, ht, hgiven, hwire⟩ := hinput [⟨"a", 2⟩] ⟨"b", 70⟩ [⟨"c", 1⟩] rfl (2 ^ 63 + 5)
    refine ⟨lib, n, rfl, rfl, hn, ⟨t, ht, hgiven, hwire rfl (by decide)⟩, ?_, ?_, ?_⟩
    · exact (hunknown "d" (by decide) 1).1
    · exact hcommute "a" "b" 3 1 (by decide)
    · exact hreplaced "b" 7 1 [("a", 3)]

end Simulator

end NandHdl
