import NandHdl.Proofs.Instance
import NandHdl.Proofs.Meaning

/-!
# Elaboration and evaluation side by side

Where no name is read early, a step of elaboration leaves behind what a step of
evaluation means: under any values of the bits that satisfy the new nodes one
after another.

* `Valuation`: a value for every bit.
* `gives_materialize`, `gives_project`: steps that add no nodes.
* `Solves`, `afterNodes`: values that satisfy nodes, and the registers behind them.
* `Computes`: a step of elaboration does what a step of evaluation means.
* `computes_nand`, `computes_dff`: rows of gates and of flip-flops.
-/

namespace NandHdl

/-- A value for every bit. Constants have theirs, and what is read early is 0. -/
structure Valuation where
  value : Bit → Sample
  const : ∀ v, value (.const v) = .steady v
  forward : ∀ k, value (.forward k) = .steady false

section Values

variable (V : Valuation)

/-- The values of the bits of a wire. -/
def Wire.valued (w : Wire) : Bits := w.bits.toList.map V.value

/-- The value of a signal. -/
def Signal.valued : Signal → Value
  | .wire w => .bits (w.valued V)
  | .bundle fields => .bundle (fields.map fun f => (f.1, f.2.valued V))
  | .literal value => .literal value
  | .blackBox => .nothing
  | .forward _ => .nothing

/-- The values of named wires. -/
def valuedWires (ws : List (String × Wire)) : List (String × Bits) := ws.map fun w => (w.1, w.2.valued V)

variable {V}

theorem Bits.nth_ofFn (n : Nat) (f : Nat → Sample) (i : Nat) :
    (Bits.ofFn n f).nth i = if i < n then f i else .steady false := by
  rw [Bits.nth, Bits.ofFn, List.getD_eq_getElem?_getD, List.getElem?_map]
  by_cases h : i < n
  · rw [if_pos h, List.getElem?_range h]
    rfl
  · rw [if_neg h, List.getElem?_eq_none (by rw [List.length_range]; omega)]
    rfl

@[simp] theorem Bits.length_ofFn (n : Nat) (f : Nat → Sample) : (Bits.ofFn n f).length = n := by
  rw [Bits.ofFn, List.length_map, List.length_range]

theorem Bits.ofFn_congr {n : Nat} {f g : Nat → Sample} (h : ∀ i < n, f i = g i) :
    Bits.ofFn n f = Bits.ofFn n g :=
  List.map_congr_left fun i hi => h i (List.mem_range.1 hi)

/-- Cutting bits to their own width changes nothing. -/
theorem Bits.fit_self (w : Bits) : w.fit w.length = w := by
  refine List.ext_getElem? fun i => ?_
  rw [Bits.fit, Bits.ofFn, List.getElem?_map]
  by_cases h : i < w.length
  · rw [List.getElem?_range h, List.getElem?_eq_getElem h, Option.map_some, Bits.nth,
      List.getD_eq_getElem?_getD, List.getElem?_eq_getElem h, Option.getD_some]
  · rw [List.getElem?_eq_none (by rw [List.length_range]; omega), List.getElem?_eq_none (by omega),
      Option.map_none]

@[simp] theorem Wire.length_valued (w : Wire) : (w.valued V).length = w.width := by
  rw [Wire.valued, List.length_map, Array.length_toList, Wire.width]

theorem Wire.valued_ofFn (n : Nat) (f : Nat → Bit) :
    (Wire.ofFn n f).valued V = .ofFn n fun i => V.value (f i) := by
  refine List.ext_getElem ?_ fun i h h' => ?_
  · rw [Wire.length_valued, Wire.width_ofFn, Bits.length_ofFn]
  · simp [Wire.valued, Wire.ofFn, Bits.ofFn]

theorem Wire.nth_valued (w : Wire) (i : Nat) : (w.valued V).nth i = V.value (w.bitOrZero i) := by
  rw [Bits.nth, Wire.valued, Wire.bitOrZero, List.getD_eq_getElem?_getD, List.getElem?_map,
    Array.getElem?_toList, Array.getD_eq_getD_getElem?]
  cases w.bits[i]? with
  | none => exact (V.const false).symm
  | some b => rfl

theorem Wire.valued_zeros (n : Nat) : (Wire.zeros n).valued V = .zeros n := by
  refine List.ext_getElem ?_ fun i h h' => ?_
  · rw [Wire.length_valued, Wire.width_zeros, Bits.zeros, Bits.length_ofFn]
  · simp [Wire.valued, Wire.zeros, Bits.zeros, Bits.ofFn, V.const]

theorem Wire.valued_constant (value n : Nat) : (Wire.constant value n).valued V = .constant value n := by
  rw [Wire.constant, Wire.valued_ofFn]
  exact Bits.ofFn_congr fun i _ => V.const _

theorem Wire.valued_fit (w : Wire) (n : Nat) : (w.fit n).valued V = (w.valued V).fit n := by
  rw [Wire.fit, Wire.valued_ofFn]
  exact Bits.ofFn_congr fun i _ => (Wire.nth_valued w i).symm

theorem Wire.valued_extract (w : Wire) (r : BitRange) :
    (w.extract r.lo r.width).valued V = (w.valued V).pick r := by
  rw [Wire.extract, Wire.valued_ofFn]
  exact Bits.ofFn_congr fun i _ => (Wire.nth_valued w _).symm

/-- Replacing some bits of a wire that has room for them. -/
theorem Wire.valued_splice (w : Wire) {part : Wire} {r : BitRange} (hpart : part.width = r.width) :
    ((w.fit (max w.width (r.hi + 1))).splice r.lo part).valued V =
      (w.valued V).replace r (part.valued V) := by
  have hlo := r.lo_le_hi
  have hwidth : part.width = r.hi - r.lo + 1 := hpart
  rw [Wire.splice, Wire.valued_ofFn, Wire.width_fit, Bits.replace, Wire.length_valued]
  -- bit by bit: it is one of the range or as it was
  refine Bits.ofFn_congr fun i hi => ?_
  by_cases h : r.lo ≤ i ∧ i ≤ r.hi
  · rw [if_pos h, if_pos (by omega), Wire.nth_valued]
  · rw [if_neg h, if_neg (by omega), ← Wire.nth_valued, Wire.valued_fit, Bits.fit, Bits.nth_ofFn, if_pos hi]

theorem Signal.bits?_valued (s : Signal) : (s.valued V).bits? = s.wire?.map (Wire.valued V) := by
  cases s with
  | bundle fields =>
    match fields with
    | [] => rfl
    | [_] => rfl
    | _ :: _ :: _ => rfl
  | _ => rfl

theorem Signal.naturalWidth_valued (s : Signal) : (s.valued V).naturalWidth = s.naturalWidth := by
  cases s <;> rfl

/-- The bits of a number past its last digit are 0. -/
theorem testBit_of_bitLength_le {value i : Nat} (h : bitLength value ≤ i) : value.testBit i = false := by
  rw [bitLength] at h
  split at h
  · next h0 => rw [h0, Nat.zero_testBit]
  · refine Nat.testBit_lt_two_pow (Nat.lt_of_lt_of_le Nat.lt_log2_self ?_)
    exact Nat.pow_le_pow_right (by omega) h

/-- A range of a number without a width. -/
theorem Bits.pick_constant (value : Nat) (r : BitRange) : (Bits.constant value (bitLength value)).pick r =
    .ofFn r.width fun i => .steady (value.testBit (r.lo + i)) := by
  refine Bits.ofFn_congr fun i _ => ?_
  rw [Bits.constant, Bits.nth_ofFn]
  by_cases h : r.lo + i < bitLength value
  · rw [if_pos h]
  · rw [if_neg h, testBit_of_bitLength_le (by omega)]

theorem Bits.pick_zeros (n : Nat) (r : BitRange) : (Bits.zeros n).pick r = .zeros r.width := by
  refine Bits.ofFn_congr fun i _ => ?_
  rw [Bits.zeros, Bits.nth_ofFn]
  split <;> rfl

theorem Bits.fit_zeros (n k : Nat) : (Bits.zeros n).fit k = .zeros k := by
  refine Bits.ofFn_congr fun i _ => ?_
  rw [Bits.zeros, Bits.nth_ofFn]
  split <;> rfl

/-- Nothing is cut or filled up where the width is the own one. -/
theorem Value.wired_eq_fitted {v : Value} {n : Nat} (h : v.width? = some n) :
    v.wired (some n) = v.fitted n := by
  rw [Value.width?] at h
  obtain ⟨w, hw, rfl⟩ := Option.map_eq_some_iff.1 h
  -- a literal has no width of its own, and all else keeps its own
  have hwired : v.wired (some w.length) = w := by
    unfold Value.wired
    cases v with
    | literal value => cases hw
    | _ => exact congrArg (fun o : Option Bits => o.getD _) hw
  rw [Value.fitted, hwired, Bits.fit_self]

end Values

/-! ## Bits of earlier nodes -/

/-- The bit is no node from `next` on. -/
def Bit.Before (next : Nat) : Bit → Prop
  | .node id => id < next
  | _ => True

theorem Bit.Before.mono {next next' : Nat} (h : next ≤ next') : ∀ b, Bit.Before next b → Bit.Before next' b
  | .node _, hb => Nat.lt_of_lt_of_le hb h
  | .input _, _ => trivial
  | .const _, _ => trivial
  | .forward _, _ => trivial

/-- The signal is no name that is read early, and its bits are no nodes from `next` on. -/
structure Signal.Ready (next : Nat) (s : Signal) : Prop where
  present : ∀ name, s ≠ .forward name
  before : s.All (Bit.Before next)

/-- All values of the scope are ready. -/
def Scope.Ready (next : Nat) (scope : Scope Signal) : Prop := ∀ e ∈ scope.newestFirst, e.2.Ready next

section Ready

variable {next next' : Nat} {s : Signal} {scope : Scope Signal}

theorem Signal.Ready.mono (h : next ≤ next') (hs : s.Ready next) : s.Ready next' :=
  ⟨hs.present, hs.before.imp (Bit.Before.mono h)⟩

theorem Scope.Ready.mono (h : next ≤ next') (hs : scope.Ready next) : scope.Ready next' :=
  fun e he => (hs e he).mono h

theorem Signal.ready_wire {w : Wire} (h : w.All (Bit.Before next)) : (Signal.wire w).Ready next :=
  ⟨nofun, h⟩

theorem Signal.ready_bundle {fields : List (String × Wire)} (h : ∀ f ∈ fields, f.2.All (Bit.Before next)) :
    (Signal.bundle fields).Ready next := ⟨nofun, h⟩

theorem Signal.ready_literal (v : Nat) : (Signal.literal v).Ready next := ⟨nofun, trivial⟩

theorem Signal.ready_blackBox : Signal.blackBox.Ready next := ⟨nofun, trivial⟩

theorem Scope.Ready.lookup {name : String} (hscope : scope.Ready next) (h : scope.lookup name = some s) :
    s.Ready next := hscope _ (Scope.mem_of_lookup h)

theorem Scope.Ready.bind (hscope : scope.Ready next) (hs : s.Ready next) (name : String) :
    (scope.bind name s).Ready next := by
  intro e he
  rcases List.mem_cons.1 he with rfl | he
  · exact hs
  · exact hscope e he

/-- What is no name that is read early stays as it is. -/
theorem follow_of_ready (scope : Scope Signal) (hs : s.Ready next) : follow scope s = s := by
  unfold follow
  cases s with
  | forward name => exact absurd rfl (hs.present name)
  | _ => cases scope.newestFirst.length <;> rfl

theorem width?_valued {V : Valuation} (scope : Scope Signal) (hs : s.Ready next) :
    (s.valued V).width? = knownWidth scope s := by
  rw [Value.width?, Signal.bits?_valued, knownWidth, follow_of_ready scope hs, Option.map_map]
  congr 1
  funext w
  exact Wire.length_valued w

end Ready

namespace Elaboration

/-! ## Steps that add no nodes -/

/-- Only reports are new. -/
def Quiet (s s' : State) : Prop := ∃ log, s' = { s with log := log }

section Quiet

variable {V : Valuation} {b : Body} {scope : Scope Signal} {x : Signal} {w : Wire} {next : Nat}
  {s s' s'' : State}

theorem Quiet.refl (s : State) : Quiet s s := ⟨s.log, rfl⟩

theorem Quiet.trans (h : Quiet s s') (h' : Quiet s' s'') : Quiet s s'' := by
  obtain ⟨log, rfl⟩ := h
  obtain ⟨log', rfl⟩ := h'
  exact ⟨log', rfl⟩

theorem Quiet.nextId (h : Quiet s s') : s'.nextId = s.nextId := by
  obtain ⟨log, rfl⟩ := h
  rfl

theorem quiet_note {e : Event} {u : Unit} (h : Gives (note e) s u s') : Quiet s s' := ⟨_, gives_note.1 h⟩

theorem quiet_note_pure {α : Type} {e : Event} {a r : α} (h : Gives (do note e; return a) s r s') :
    Quiet s s' ∧ r = a := by
  obtain ⟨_, s₁, hnote, h⟩ := gives_bind.1 h
  obtain ⟨rfl, rfl⟩ := gives_pure.1 h
  exact ⟨quiet_note hnote, rfl⟩

/-- What a signal is as a wire is what its value is as bits. -/
theorem gives_materialize (V : Valuation) (hx : x.Ready next) {want : Option Nat}
    (h : Gives (materialize b scope x want) s w s') :
    Quiet s s' ∧ w.valued V = (x.valued V).wired want ∧ w.All (Bit.Before next) := by
  have hzeros : ∀ n, (Wire.zeros n).All (Bit.Before next) := Wire.all_zeros trivial
  unfold materialize at h
  rw [follow_of_ready scope hx] at h
  cases x with
  | wire w' =>
    obtain ⟨rfl, rfl⟩ := gives_pure.1 h
    exact ⟨.refl s', rfl, hx.before⟩
  | bundle fields =>
    match fields with
    | [(name, w')] =>
      obtain ⟨rfl, rfl⟩ := gives_pure.1 h
      exact ⟨.refl s', rfl, hx.before (name, w) (List.mem_singleton.2 rfl)⟩
    | [] =>
      obtain ⟨hquiet, rfl⟩ := quiet_note_pure h
      exact ⟨hquiet, Wire.valued_zeros _, hzeros _⟩
    | _ :: _ :: _ =>
      obtain ⟨hquiet, rfl⟩ := quiet_note_pure h
      exact ⟨hquiet, Wire.valued_zeros _, hzeros _⟩
  | literal value =>
    obtain ⟨rfl, rfl⟩ := gives_pure.1 h
    exact ⟨.refl s', Wire.valued_constant value _, Wire.all_constant (fun _ => trivial) value _⟩
  | blackBox =>
    obtain ⟨rfl, rfl⟩ := gives_pure.1 h
    exact ⟨.refl s', Wire.valued_zeros _, hzeros _⟩
  | forward name => exact absurd rfl (hx.present name)

theorem gives_fitted (V : Valuation) (hx : x.Ready next) {width : Nat}
    (h : Gives (fitted b scope x width) s w s') :
    Quiet s s' ∧ w.valued V = (x.valued V).fitted width ∧ w.All (Bit.Before next) ∧ w.width = width := by
  obtain ⟨v, s₁, hv, h⟩ := gives_bind.1 h
  obtain ⟨rfl, rfl⟩ := gives_pure.1 h
  obtain ⟨hquiet, hvalue, hbefore⟩ := gives_materialize V hx hv
  refine ⟨hquiet, ?_, hbefore.fit trivial width, Wire.width_fit v width⟩
  rw [Wire.valued_fit, hvalue, Value.fitted]

theorem gives_extract (V : Valuation) (hx : x.Ready next) {r : BitRange} (h : Gives (do
      let w ← materialize b scope x none
      if w.width ≤ r.hi then note (.bitOutOfRange r.hi w.width b.module.name)
      return w.extract r.lo r.width) s w s') :
    Quiet s s' ∧ w.valued V = ((x.valued V).wired none).pick r ∧ w.All (Bit.Before next) := by
  obtain ⟨v, s₁, hv, h⟩ := gives_bind.1 h
  obtain ⟨hquiet, hvalue, hbefore⟩ := gives_materialize V hx hv
  -- whether or not the range is reported, the same bits are taken out
  obtain ⟨hquiet', rfl⟩ : Quiet s₁ s' ∧ w = v.extract r.lo r.width := by
    split at h
    · exact quiet_note_pure h
    · obtain ⟨rfl, rfl⟩ := gives_pure.1 h
      exact ⟨.refl s', rfl⟩
  refine ⟨hquiet.trans hquiet', ?_, hbefore.extract trivial _ _⟩
  rw [Wire.valued_extract, hvalue]

theorem gives_project (V : Valuation) (hx : x.Ready next) {r : BitRange}
    (h : Gives (project b scope x r) s w s') :
    Quiet s s' ∧ w.valued V = ((x.valued V).wired none).pick r ∧ w.All (Bit.Before next) := by
  unfold project at h
  rw [follow_of_ready scope hx] at h
  cases x with
  | wire w' => exact gives_extract V hx h
  | bundle fields => exact gives_extract V hx h
  | literal value =>
    obtain ⟨rfl, rfl⟩ := gives_pure.1 h
    refine ⟨.refl s', ?_, Wire.all_ofFn fun _ _ => trivial⟩
    rw [Wire.valued_ofFn]
    refine Eq.trans ?_ (Bits.pick_constant value r).symm
    exact Bits.ofFn_congr fun i _ => V.const _
  | blackBox =>
    obtain ⟨rfl, rfl⟩ := gives_pure.1 h
    refine ⟨.refl s', ?_, Wire.all_zeros trivial _⟩
    rw [Wire.valued_zeros]
    exact (Bits.pick_zeros _ r).symm
  | forward name => exact absurd rfl (hx.present name)

theorem gives_field (V : Valuation) (hx : x.Ready next) {object : Expr} {name : String} {y : Signal}
    (h : Gives (field scope object x name) s y s') :
    Quiet s s' ∧ y.valued V = (x.valued V).field name ∧ y.Ready next := by
  unfold field at h
  rw [follow_of_ready scope hx] at h
  cases x with
  | bundle fields =>
    simp only at h
    simp only [Signal.valued, Value.field, List.find?_map, Function.comp_def]
    cases hfind : fields.find? fun f => decide (f.1 = name) with
    | none =>
      rw [hfind] at h
      obtain ⟨hquiet, rfl⟩ := quiet_note_pure h
      exact ⟨hquiet, rfl, Signal.ready_blackBox⟩
    | some f =>
      rw [hfind] at h
      obtain ⟨rfl, rfl⟩ := gives_pure.1 h
      exact ⟨.refl s', rfl, Signal.ready_wire (hx.before f (List.mem_of_find?_eq_some hfind))⟩
  | wire w' =>
    obtain ⟨hquiet, rfl⟩ := quiet_note_pure h
    exact ⟨hquiet, rfl, Signal.ready_blackBox⟩
  | literal value =>
    obtain ⟨hquiet, rfl⟩ := quiet_note_pure h
    exact ⟨hquiet, rfl, Signal.ready_blackBox⟩
  | blackBox =>
    obtain ⟨rfl, rfl⟩ := gives_pure.1 h
    exact ⟨.refl s', rfl, Signal.ready_blackBox⟩
  | forward name => exact absurd rfl (hx.present name)

/-- A name that no later statement assigns has its value, or none. -/
theorem gives_nameSignal (V : Valuation) (hscope : scope.Ready next) {name : String}
    (hname : b.module.assigns name = true → (scope.lookup name).isSome)
    (h : Gives (nameSignal b scope name) s x s') : Quiet s s' ∧
      x.valued V = ((scope.map (Signal.valued V)).lookup name).getD .nothing ∧ x.Ready next := by
  unfold nameSignal at h
  rw [Scope.lookup_map]
  cases hl : scope.lookup name with
  | some y =>
    rw [hl] at h
    obtain ⟨rfl, rfl⟩ := gives_pure.1 h
    exact ⟨.refl s', rfl, hscope.lookup hl⟩
  | none =>
    rw [hl] at h hname
    cases ha : b.module.assigns name with
    | true => cases hname ha
    | false =>
      simp only [ha] at h
      obtain ⟨hquiet, rfl⟩ := quiet_note_pure h
      exact ⟨hquiet, rfl, Signal.ready_blackBox⟩

end Quiet

end Elaboration

/-! ## Nodes in a tick -/

section Nodes

variable (V : Valuation)

/-- What a node makes of the values that it reads, and the registers behind it. -/
def Node.evaluate (n : Node) (t : Tape) : Sample × Tape :=
  match n.cell with
  | .nand a b => ((V.value a).nand (V.value b), t)
  | .dff d clk => t.capture (V.value d) (V.value clk)

/-- The registers behind nodes. -/
def afterNodes (ns : List Node) (t : Tape) : Tape := ns.foldl (fun t n => (n.evaluate V t).2) t

/-- Every node has the value that it makes of the values it reads. -/
def Solves : List Node → Tape → Prop
  | [], _ => True
  | n :: ns, t => V.value (.node n.id) = (n.evaluate V t).1 ∧ Solves ns (n.evaluate V t).2

/-- Nodes with the numbers from `id` on. -/
def numbered : Nat → List Cell → List Node
  | _, [] => []
  | id, c :: cs => ⟨id, c⟩ :: numbered (id + 1) cs

variable {V} {t : Tape} {id : Nat}

theorem afterNodes_append (ns ms : List Node) (t : Tape) :
    afterNodes V (ns ++ ms) t = afterNodes V ms (afterNodes V ns t) := List.foldl_append

theorem solves_append {ns ms : List Node} :
    Solves V (ns ++ ms) t ↔ Solves V ns t ∧ Solves V ms (afterNodes V ns t) := by
  induction ns generalizing t with
  | nil => exact (true_and _).to_iff.symm
  | cons n ns ih =>
    rw [List.cons_append, Solves, Solves, ih, and_assoc]
    rfl

theorem toList_mapIdx_node (cells : Array Cell) (id : Nat) :
    (cells.mapIdx fun i c => (⟨id + i, c⟩ : Node)).toList = numbered id cells.toList := by
  rw [Array.toList_mapIdx]
  generalize cells.toList = cs
  induction cs generalizing id with
  | nil => rfl
  | cons c cs ih =>
    rw [List.mapIdx_cons, numbered, ← ih]
    simp only [Nat.add_zero, Nat.add_assoc, Nat.add_comm 1]

theorem mem_numbered {cs : List Cell} {n : Node} (h : n ∈ numbered id cs) : id ≤ n.id ∧ n.cell ∈ cs := by
  induction cs generalizing id with
  | nil => cases h
  | cons c cs ih =>
    rcases List.mem_cons.1 h with rfl | h
    · exact ⟨Nat.le_refl id, List.mem_cons_self⟩
    · obtain ⟨hid, hcell⟩ := ih h
      exact ⟨by omega, List.mem_cons_of_mem c hcell⟩

theorem Bits.ofFn_succ (n : Nat) (f : Nat → Sample) :
    Bits.ofFn (n + 1) f = f 0 :: Bits.ofFn n fun i => f (i + 1) := by
  rw [Bits.ofFn, List.range_succ_eq_map, List.map_cons, List.map_map]
  rfl

/-- The values of `count` nodes, numbered from `id` on. -/
def nodeBits (V : Valuation) (id count : Nat) : Bits := .ofFn count fun i => V.value (.node (id + i))

theorem nodeBits_succ (id count : Nat) :
    nodeBits V id (count + 1) = V.value (.node id) :: nodeBits V (id + 1) count := by
  rw [nodeBits, Bits.ofFn_succ, nodeBits]
  simp only [Nat.add_zero, Nat.add_assoc, Nat.add_comm 1]

/-- A row of gates. -/
theorem nodeBits_nand {as bs : List Bit} (h : Solves V (numbered id (List.zipWith .nand as bs)) t) :
    nodeBits V id (List.zipWith Cell.nand as bs).length =
        List.zipWith Sample.nand (as.map V.value) (bs.map V.value) ∧
      afterNodes V (numbered id (List.zipWith .nand as bs)) t = t := by
  induction as generalizing bs id with
  | nil => exact ⟨rfl, rfl⟩
  | cons a as ih =>
    cases bs with
    | nil => exact ⟨rfl, rfl⟩
    | cons b bs =>
      obtain ⟨hvalue, hrest⟩ := h
      obtain ⟨hbits, hafter⟩ := ih hrest
      refine ⟨?_, hafter⟩
      rw [List.zipWith_cons_cons, List.length_cons, nodeBits_succ, hvalue, hbits]
      rfl

/-- A row of flip-flops goes past its registers. -/
theorem run_captureAll {as bs : List Bit} (h : Solves V (numbered id (List.zipWith .dff as bs)) t) :
    (Meaning.captureAll (as.map V.value) (bs.map V.value)).run t =
      some (nodeBits V id (List.zipWith Cell.dff as bs).length,
        afterNodes V (numbered id (List.zipWith .dff as bs)) t) := by
  induction as generalizing bs id t with
  | nil => rfl
  | cons a as ih =>
    cases bs with
    | nil => rfl
    | cons b bs =>
      obtain ⟨hvalue, hrest⟩ := h
      -- each flip-flop takes the register in front and leaves the rest to those behind it
      have htail := ih hrest
      rw [List.zipWith_cons_cons, List.length_cons, nodeBits_succ, hvalue]
      change ((Meaning.captureAll (as.map V.value) (bs.map V.value)).run
        (t.capture (V.value a) (V.value b)).2).bind (fun r => some (_ :: r.1, r.2)) = _
      rw [show (t.capture (V.value a) (V.value b)).2 = (Node.evaluate V ⟨id, .dff a b⟩ t).2 from rfl, htail]
      rfl

end Nodes

namespace Elaboration

/-! ## Steps of elaboration and of evaluation -/

/-- The nodes `Δ` are new and read earlier ones only. No slot is opened. -/
structure Extends (s s' : State) (Δ : List Node) : Prop where
  nodes : s'.nodes.toList = s.nodes.toList ++ Δ
  slots : s'.slots = s.slots
  nextId : s.nextId ≤ s'.nextId
  ordered : ∀ n ∈ Δ, n.cell.All (Bit.Before n.id)

/-- **Whatever `x` does from `s` on, `y` means.** The result `a` has the value `f a`, and `K` holds of it;
the new nodes bring about the registers that `y` leaves. -/
def Computes (V : Valuation) {α β : Type} (s : State) (x : Build α) (y : Tick β) (f : α → β)
    (K : Nat → α → Prop) : Prop :=
  ∀ a s', Gives x s a s' → ∃ Δ, Extends s s' Δ ∧ K s'.nextId a ∧
    ∀ t, Solves V Δ t → y.run t = some (f a, afterNodes V Δ t)

section Computes

variable {V : Valuation} {α β γ δ : Type} {s s' : State} {x : Build α} {y : Tick β} {f : α → β}
  {K : Nat → α → Prop}

theorem Quiet.extends (h : Quiet s s') : Extends s s' [] := by
  obtain ⟨log, rfl⟩ := h
  exact ⟨(List.append_nil _).symm, rfl, Nat.le_refl _, nofun⟩

theorem Extends.trans {s'' : State} {Δ Δ' : List Node} (h : Extends s s' Δ) (h' : Extends s' s'' Δ') :
    Extends s s'' (Δ ++ Δ') where
  nodes := by rw [h'.nodes, h.nodes, List.append_assoc]
  slots := h'.slots.trans h.slots
  nextId := Nat.le_trans h.nextId h'.nextId
  ordered n hn := (List.mem_append.1 hn).elim (h.ordered n) (h'.ordered n)

/-- A step that adds no nodes has a value that does not depend on the registers. -/
theorem Computes.of_quiet {c : β} (h : ∀ a s', Gives x s a s' → Quiet s s' ∧ f a = c ∧ K s.nextId a) :
    Computes V s x (pure c) f K := by
  intro a s' ha
  obtain ⟨hquiet, hvalue, hK⟩ := h a s' ha
  refine ⟨[], hquiet.extends, hquiet.nextId ▸ hK, fun t _ => ?_⟩
  rw [hvalue]
  rfl

theorem Computes.pure {a : α} {c : β} (hvalue : f a = c) (hK : K s.nextId a) :
    Computes V s (pure a) (pure c) f K := by
  refine Computes.of_quiet fun a' s' h => ?_
  obtain ⟨rfl, rfl⟩ := gives_pure.1 h
  exact ⟨.refl s', hvalue, hK⟩

theorem Computes.bind {g : α → Build γ} {h : β → Tick δ} {f' : γ → δ} {K' : Nat → γ → Prop}
    (hx : Computes V s x y f K)
    (hg : ∀ a s', s.nextId ≤ s'.nextId → K s'.nextId a → Computes V s' (g a) (h (f a)) f' K') :
    Computes V s (x >>= g) (y >>= h) f' K' := by
  intro c s'' hc
  obtain ⟨a, s', ha, hc⟩ := gives_bind.1 hc
  obtain ⟨Δ, hext, hK, hrun⟩ := hx a s' ha
  -- the second part adds its nodes behind those of the first, and goes on with its registers
  obtain ⟨Δ', hext', hK', hrun'⟩ := hg a s' hext.nextId hK c s'' hc
  refine ⟨Δ ++ Δ', hext.trans hext', hK', fun t ht => ?_⟩
  obtain ⟨ht, ht'⟩ := solves_append.1 ht
  rw [StateT.run_bind, hrun t ht, afterNodes_append]
  exact hrun' _ ht'

/-- A step that adds no nodes has no counterpart. -/
theorem Computes.quiet_bind {P : α → Prop} {g : α → Build γ} {y : Tick δ} {f' : γ → δ} {K' : Nat → γ → Prop}
    (hx : ∀ a s', Gives x s a s' → Quiet s s' ∧ P a)
    (hg : ∀ a s', s'.nextId = s.nextId → P a → Computes V s' (g a) y f' K') :
    Computes V s (x >>= g) y f' K' := by
  intro c s'' hc
  obtain ⟨a, s', ha, hc⟩ := gives_bind.1 hc
  obtain ⟨hquiet, hP⟩ := hx a s' ha
  obtain ⟨Δ, hext, hK, hrun⟩ := hg a s' hquiet.nextId hP c s'' hc
  exact ⟨Δ, hquiet.extends.trans hext, hK, hrun⟩

/-- What fails computes anything. -/
theorem Computes.throw {e : CompileError} : Computes V s (throw e) y f K :=
  fun _ _ h => absurd h not_gives_throw

theorem Computes.throw_bind {e : CompileError} {g : α → Build γ} {y : Tick δ} {f' : γ → δ}
    {K' : Nat → γ → Prop} : Computes V s (MonadExcept.throw e >>= g) y f' K' := by
  intro c s' h
  obtain ⟨_, _, h, -⟩ := gives_bind.1 h
  exact absurd h not_gives_throw

end Computes

/-! ## Gates and flip-flops -/

section Gates

variable {V : Valuation} {b : Body} {scope : Scope Signal} {x y : Signal} {v w z : Wire} {s s' : State}

/-- The nodes of a row of cells, and their values. -/
theorem extends_place {cell : Bit → Bit → Cell} (hinputs : ∀ x y, (cell x y).inputs = [x, y])
    (hv : v.All (Bit.Before s.nextId)) (hw : w.All (Bit.Before s.nextId))
    (h : Gives (place cell v w) s z s') :
    Extends s s' (numbered s.nextId (List.zipWith cell v.bits.toList w.bits.toList)) ∧
      z.All (Bit.Before s'.nextId) ∧
      z.valued V = nodeBits V s.nextId (List.zipWith cell v.bits.toList w.bits.toList).length := by
  obtain ⟨rfl, rfl⟩ := Renaming.gives_place.1 h
  have hcells : (Renaming.cellsOf cell v w).toList = List.zipWith cell v.bits.toList w.bits.toList :=
    Array.toList_zipWith
  have hsize : (Renaming.cellsOf cell v w).size =
      (List.zipWith cell v.bits.toList w.bits.toList).length := by
    rw [← hcells, Array.length_toList]
  refine ⟨⟨?_, rfl, Nat.le_add_right _ _, fun n hn => ?_⟩, ?_, ?_⟩
  · rw [Renaming.withCells, Array.toList_append, toList_mapIdx_node, hcells]
  · -- a new node reads earlier ones only, since its number is larger than all of theirs
    obtain ⟨hid, hcell⟩ := mem_numbered hn
    have hmem : n.cell ∈ Renaming.cellsOf cell v w := by
      rw [← Array.mem_toList_iff, hcells]
      exact hcell
    exact (Renaming.all_cellsOf hinputs hv hw n.cell hmem).imp (Bit.Before.mono hid)
  · refine Wire.all_ofFn fun i hi => ?_
    change s.nextId + i < s.nextId + (Renaming.cellsOf cell v w).size
    omega
  · rw [Wire.valued_ofFn, nodeBits, hsize]

/-- Gates over two signals brought to one width. -/
theorem computes_gates (hx : x.Ready s.nextId) (hy : y.Ready s.nextId) (width : Nat) :
    Computes V s (do
      let x ← fitted b scope x width
      let y ← fitted b scope y width
      return .wire (← place .nand x y))
      (pure (.bits (List.zipWith Sample.nand ((x.valued V).fitted width) ((y.valued V).fitted width))))
      (Signal.valued V) fun next z => z.Ready next := by
  -- fitting adds no node, so the gates are all that is new
  refine Computes.quiet_bind (fun _ _ => gives_fitted V hx) fun v s₁ h₁ hv => ?_
  rw [← h₁] at hy hv
  refine Computes.quiet_bind (fun _ _ => gives_fitted V hy) fun w s₂ h₂ hw => ?_
  rw [← h₂] at hv hw
  intro z s' hz
  obtain ⟨u, s₃, hplace, hz⟩ := gives_bind.1 hz
  obtain ⟨rfl, rfl⟩ := gives_pure.1 hz
  obtain ⟨hext, hbefore, hvalue⟩ := extends_place (fun _ _ => rfl) hv.2.1 hw.2.1 hplace
  refine ⟨_, hext, Signal.ready_wire hbefore, fun t ht => ?_⟩
  obtain ⟨hbits, hafter⟩ := nodeBits_nand ht
  rw [Signal.valued, hvalue, hbits, hafter, ← hv.1, ← hw.1]
  rfl

theorem computes_nand (hx : x.Ready s.nextId) (hy : y.Ready s.nextId) (want : Option Nat) :
    Computes V s (nand b scope want x y) (Meaning.nand want (x.valued V) (y.valued V)) (Signal.valued V)
      fun next z => z.Ready next := by
  unfold nand Meaning.nand Meaning.commonWidth
  rw [width?_valued scope hx, width?_valued scope hy, Signal.naturalWidth_valued,
    Signal.naturalWidth_valued]
  -- the four ways in which a common width is found
  cases knownWidth scope x with
  | none =>
    cases knownWidth scope y with
    | none =>
      simp only [pure_bind]
      exact computes_gates hx hy _
    | some k =>
      simp only [pure_bind]
      exact computes_gates hx hy k
  | some n =>
    cases knownWidth scope y with
    | none =>
      simp only [pure_bind]
      exact computes_gates hx hy n
    | some k =>
      by_cases h : n = k
      · simp only [if_pos h, pure_bind]
        exact computes_gates hx hy n
      · simp only [if_neg h]
        exact Computes.throw_bind

/-- A row of flip-flops. -/
theorem computes_place_dff (hv : v.All (Bit.Before s.nextId)) (hw : w.All (Bit.Before s.nextId)) :
    Computes V s (do return .wire (← place .dff v w))
      (do return .bits (← Meaning.captureAll (v.valued V) (w.valued V))) (Signal.valued V)
      fun next z => z.Ready next := by
  intro z s' hz
  obtain ⟨u, s₁, hplace, hz⟩ := gives_bind.1 hz
  obtain ⟨rfl, rfl⟩ := gives_pure.1 hz
  obtain ⟨hext, hbefore, hvalue⟩ := extends_place (fun _ _ => rfl) hv hw hplace
  refine ⟨_, hext, Signal.ready_wire hbefore, fun t ht => ?_⟩
  rw [StateT.run_bind, Wire.valued, Wire.valued, run_captureAll ht, Signal.valued, hvalue]
  rfl

/-- One bit of clock is shared by all bits of data. -/
theorem computes_shared_clock (hv : v.All (Bit.Before s.nextId)) (hy : y.Ready s.nextId) (width : Nat) :
    Computes V s (do
      let c ← fitted b scope y 1
      let clk ← pure (.ofFn width fun _ => c.bitOrZero 0)
      return .wire (← place .dff v clk)) (do
      return .bits (← Meaning.captureAll (v.valued V)
        (.ofFn width fun _ => ((y.valued V).fitted 1).nth 0))) (Signal.valued V)
      fun next z => z.Ready next := by
  refine Computes.quiet_bind (fun _ _ => gives_fitted V hy) fun c s₁ h₁ hc => ?_
  rw [← h₁] at hv hc
  have hclk : (Wire.ofFn width fun _ => c.bitOrZero 0).valued V =
      .ofFn width fun _ => ((y.valued V).fitted 1).nth 0 := by
    rw [Wire.valued_ofFn, ← hc.1]
    exact Bits.ofFn_congr fun _ _ => (Wire.nth_valued c 0).symm
  rw [pure_bind, ← hclk]
  exact computes_place_dff hv (Wire.all_ofFn fun _ _ => hc.2.1.bitOrZero trivial 0)

/-- Clocks as wide as the data are taken bit by bit, unless they are one bit. -/
theorem clocks_of_width {value : Value} {width : Nat} (h : value.width? = some width) (hne : width ≠ 1) :
    Meaning.clocks width value = some (value.fitted width) := by
  unfold Meaning.clocks
  rw [h]
  split
  · next h' => cases h'
  · next h' => exact absurd (Option.some.inj h') hne
  · next h' =>
    cases h'
    rw [if_pos rfl]

/-- Clocks without a width, or of one bit, are one bit. -/
theorem clocks_of_bit {value : Value} (width : Nat) (h : value.width? = none ∨ value.width? = some 1) :
    Meaning.clocks width value = some (.ofFn width fun _ => (value.fitted 1).nth 0) := by
  rcases h with h | h
  · rw [Meaning.clocks, h]
  · rw [Meaning.clocks, h]
    rfl

theorem computes_dff (hx : x.Ready s.nextId) (hy : y.Ready s.nextId) (want : Option Nat) :
    Computes V s (dff b scope want x y) (Meaning.dff want (x.valued V) (y.valued V)) (Signal.valued V)
      fun next z => z.Ready next := by
  unfold dff
  generalize hwidth : (knownWidth scope x).getD (want.getD x.naturalWidth) = width
  -- the clocks decide what is evaluated
  have hmeaning : ∀ cs, Meaning.clocks width (y.valued V) = some cs →
      Meaning.dff want (x.valued V) (y.valued V) = do
        return .bits (← Meaning.captureAll ((x.valued V).fitted width) cs) := by
    intro cs hcs
    unfold Meaning.dff
    rw [width?_valued scope hx, Signal.naturalWidth_valued, hwidth]
    simp only [hcs]
  have hknown := width?_valued (V := V) scope hy
  refine Computes.quiet_bind (fun _ _ => gives_fitted V hx) fun v s₁ h₁ hv => ?_
  rw [← h₁] at hy hv
  split
  · next hw =>
    rw [hmeaning _ (clocks_of_bit width (.inl (hknown.trans hw))), ← hv.1]
    exact computes_shared_clock hv.2.1 hy width
  · next hw =>
    rw [hmeaning _ (clocks_of_bit width (.inr (hknown.trans hw))), ← hv.1]
    exact computes_shared_clock hv.2.1 hy width
  · next k hne hw =>
    by_cases h : k = width
    · subst h
      have hk : k ≠ 1 := fun h => hne (by rw [h])
      rw [hmeaning _ (clocks_of_width (hknown.trans hw) hk), if_pos rfl]
      refine Computes.quiet_bind (fun _ _ => gives_materialize V hy) fun clk s₂ h₂ hclk => ?_
      rw [← h₂] at hv hclk
      rw [← hv.1, ← Value.wired_eq_fitted (hknown.trans hw), ← hclk.1]
      exact computes_place_dff hv.2.1 hclk.2
    · rw [if_neg h]
      exact Computes.throw_bind

end Gates

end Elaboration

end NandHdl
