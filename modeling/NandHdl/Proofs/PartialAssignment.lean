import NandHdl.Proofs.Statements

/-!
# Assigning some bits of a name

A statement may replace some bits of a name. Which bits of it stay depends on what
the name is bound to: a wire keeps all others, and so does an instance; a number and
a name that is read early are as wide as the statement needs them, and end there.

* `Denotation`, `State.denotation`: what a bit stands for while a body is elaborated.
* `becomes_denoted`: it decides what becomes of the bit at the end of the body.
* `State.denotes`, `ReadsAs`: the bits of a signal, and those of a name where an expression reads it.
* `gives_assign_range`: the steps of a partial assignment.
* `Outlives`, `Replaces`: the bits that a partial assignment keeps, and all that it does to its name.
* `replaces_bits`: **every partial assignment of a design does this.**
* `short_reads`: what lies beyond the assigned bits is lost if the name has no width of its own.
-/

namespace NandHdl

/-- The signal has bits beyond every width: it is a number or a name that is read early. -/
def Signal.Endless : Signal → Prop
  | literal _ | forward _ => True
  | _ => False

namespace Elaboration

/-! ## What bits stand for -/

/-- What a bit stands for while a body is elaborated: for itself, or for a bit that a name has at the end. -/
inductive Denotation
  | bit (c : Bit)
  | coming (slot : ForwardSlot)
deriving DecidableEq, Repr

/-- A slot of the open body stands for the bit for which it was opened. -/
def State.denotation (s : State) : Bit → Denotation
  | .forward n =>
    if n < s.slotBase then .bit (.forward n)
    else
      match s.slots[n - s.slotBase]? with
      | some slot => .coming slot
      | none => .bit (.forward n)
  | c => .bit c

/-- Bit `i` of a signal, 0 where it has none. -/
def State.denotes (s : State) (scope : Scope Signal) (x : Signal) (i : Nat) : Denotation :=
  match follow scope x with
  | .forward name => .coming ⟨name, i⟩
  | y => s.denotation (y.bitOrZero i)

/-- The bit at the end of a body. -/
def Denotation.settled (scope : Scope Signal) (s : State) : Denotation → Bit
  | .bit c => c
  | .coming slot => Elaboration.settled scope s (finalBit scope slot)

/-- The expression `name[i]`, elaborated from `s` on, is one bit that stands for `d`. -/
def ReadsAs (b : Body) (scope : Scope Signal) (s : State) (name : String) (i : Nat) (d : Denotation) : Prop :=
  ∃ w s', Gives (expr b scope none (.select (.identifier name) (.bit i))) s (.wire w) s' ∧
    s'.denotation (w.bitOrZero 0) = d

section Denoting

variable {scope : Scope Signal} {s s' : State} {b : Body} {x : Signal} {c : Bit}

/-- An open slot is found. -/
theorem exists_slot {n : Nat} (hn : s.slotBase ≤ n) (h : (Bit.forward n).slotBelow s.limit) :
    ∃ slot, s.slots[n - s.slotBase]? = some slot :=
  ⟨_, Array.getElem?_eq_getElem (sub_lt_of_slotBelow hn h)⟩

theorem denotation_slot {n : Nat} {slot : ForwardSlot} (hn : s.slotBase ≤ n)
    (h : s.slots[n - s.slotBase]? = some slot) : s.denotation (.forward n) = .coming slot := by
  simp only [State.denotation, if_neg (Nat.not_lt.2 hn), h]

theorem denotation_of_below (h : c.slotBelow s.slotBase) : s.denotation c = .bit c := by
  cases c with
  | forward n => exact if_pos (of_decide_eq_true h)
  | _ => rfl

/-- What a bit stands for stays. -/
theorem denotation_kept (hbase : s'.slotBase = s.slotBase) (hkept : StayOpen s.slots s'.slots)
    (hc : c.slotBelow s.limit) : s'.denotation c = s.denotation c := by
  rcases slot_or_below s.slotBase c with ⟨n, hn, rfl⟩ | hbelow
  · obtain ⟨slot, hslot⟩ := exists_slot hn hc
    have hslot' : s'.slots[n - s'.slotBase]? = some slot := hbase.symm ▸ hkept _ _ hslot
    rw [denotation_slot hn hslot, denotation_slot (hbase.symm ▸ hn) hslot']
  · rw [denotation_of_below hbelow, denotation_of_below (hbase.symm ▸ hbelow)]

/-- What a bit stands for decides what becomes of it at the end of an outermost body. -/
theorem settled_eq_denoted {last : Scope Signal} (hs : s.slotBase = 0) (hs' : s'.slotBase = 0)
    (hkept : StayOpen s.slots s'.slots) (hdirect : ∀ d ∈ directBits last s', d.slotBelow s'.limit)
    (hc : c.slotBelow s.limit) : settled last s' c = (s.denotation c).settled last s' := by
  rcases slot_or_below s.slotBase c with ⟨n, hn, rfl⟩ | hbelow
  · obtain ⟨slot, hslot⟩ := exists_slot hn hc
    rw [denotation_slot hn hslot]
    rw [hs, Nat.sub_zero] at hslot
    exact settled_slot hs' hdirect (hkept _ _ hslot)
  · rw [denotation_of_below hbelow]
    exact settled_of_below hs' (hs ▸ hbelow)

theorem denotes_of_forward {name : String} (h : follow scope x = .forward name) (i : Nat) :
    s.denotes scope x i = .coming ⟨name, i⟩ := by
  rw [State.denotes, h]

theorem denotes_of_ne (h : ∀ name, follow scope x ≠ .forward name) (i : Nat) :
    s.denotes scope x i = s.denotation ((follow scope x).bitOrZero i) := by
  rw [State.denotes]
  cases hx : follow scope x with
  | forward name => exact absurd hx (h name)
  | _ => rfl

/-- What the bits of a signal stand for stays. -/
theorem denotes_kept (hbase : s'.slotBase = s.slotBase) (hkept : StayOpen s.slots s'.slots)
    (hx : (follow scope x).All fun c => c.slotBelow s.limit) (i : Nat) :
    s'.denotes scope x i = s.denotes scope x i := by
  rcases (follow scope x).forward_or_ne with ⟨name, hname⟩ | hne
  · rw [denotes_of_forward hname, denotes_of_forward hname]
  · rw [denotes_of_ne hne, denotes_of_ne hne, denotation_kept hbase hkept (hx.bitOrZero (fun _ => rfl) i)]

/-- A new slot stands for the bit that is read. -/
theorem denotation_readForward {name : String} {lo count i : Nat} {w : Wire}
    (h : Gives (readForward name lo count) s w s') (hi : i < count) :
    s'.denotation (w.bitOrZero i) = .coming ⟨name, lo + i⟩ := by
  obtain ⟨-, rfl, rfl⟩ := Renaming.gives_readForward.1 h
  rw [Wire.bitOrZero_ofFn _ hi]
  refine denotation_slot (by simp only [State.limit]; omega) ?_
  have hplace : s.limit + i - s.slotBase = s.slots.size + i := by
    rw [State.limit]
    omega
  rw [hplace, Array.getElem?_append_right (Nat.le_add_right _ _), Nat.add_sub_cancel_left,
    Array.getElem?_ofFn, dif_pos hi]

end Denoting

/-! ## Reading bits -/

/-- The step never fails. -/
def Succeeds {α : Type} (x : Build α) : Prop := ∀ s, ∃ a s', Gives x s a s'

section Reading

variable {scope : Scope Signal} {s s' : State} {b : Body} {x : Signal} {name : String} {α β : Type}

theorem Succeeds.pure (a : α) : Succeeds (pure a) := fun s => ⟨a, s, gives_pure.2 ⟨rfl, rfl⟩⟩

theorem Succeeds.bind {x : Build α} {g : α → Build β} (hx : Succeeds x) (hg : ∀ a, Succeeds (g a)) :
    Succeeds (x >>= g) := by
  intro s
  obtain ⟨a, s₁, ha⟩ := hx s
  obtain ⟨c, s₂, hc⟩ := hg a s₁
  exact ⟨c, s₂, gives_bind.2 ⟨a, s₁, ha, hc⟩⟩

theorem succeeds_note (e : Event) : Succeeds (note e) := fun _ => ⟨(), _, gives_note.2 rfl⟩

theorem succeeds_readForward (name : String) (lo : Nat) {count : Nat} (h : count ≠ 0) :
    Succeeds (readForward name lo count) := fun _ => ⟨_, _, Renaming.gives_readForward.2 ⟨h, rfl, rfl⟩⟩

/-- A wire can be made of every signal that stands for no name, and of others where some bits are asked for. -/
theorem succeeds_materialize {want : Option Nat} (h : want ≠ some 0) : Succeeds (materialize b scope x want) := by
  unfold materialize
  split
  · exact Succeeds.pure _
  · exact Succeeds.pure _
  · exact (succeeds_note _).bind fun _ => Succeeds.pure _
  · exact Succeeds.pure _
  · exact Succeeds.pure _
  · refine succeeds_readForward _ 0 ?_
    cases want with
    | none => exact Nat.one_ne_zero
    | some n => exact fun h0 => h (congrArg some h0)

/-- Bits of a signal can always be read. -/
theorem succeeds_project (x : Signal) (r : BitRange) : Succeeds (project b scope x r) := by
  unfold project
  split
  · exact Succeeds.pure _
  · exact Succeeds.pure _
  · exact succeeds_readForward _ _ r.width_pos.ne'
  · have hmade : Succeeds (materialize b scope (follow scope x) none) := succeeds_materialize nofun
    refine hmade.bind fun w => ?_
    -- a report may come before the bits are taken out
    split
    · exact (succeeds_note _).bind fun _ => Succeeds.pure _
    · exact Succeeds.pure _

/-- A bit that is read stands for what the bit of the signal stands for. -/
theorem denotation_project {i : Nat} {w : Wire} (hx : (follow scope x).All fun c => c.slotBelow s.limit)
    (h : Gives (project b scope x (.bit i)) s w s') : s'.denotation (w.bitOrZero 0) = s.denotes scope x i := by
  rcases (follow scope x).forward_or_ne with ⟨name, hname⟩ | hne
  · have hread : project b scope x (.bit i) = readForward name i 1 := by
      rw [project, hname]
      simp only [BitRange.lo, BitRange.width, BitRange.hi, Nat.sub_self]
    rw [hread] at h
    rw [denotes_of_forward hname, denotation_readForward h Nat.one_pos, Nat.add_zero]
  · obtain ⟨hslots, rfl⟩ := Prophecy.project_of_ne hne h
    rw [denotes_of_ne hne, Wire.bitOrZero_ofFn _ (BitRange.width_pos _)]
    exact denotation_kept hslots.slotBase hslots.kept (hx.bitOrZero (fun _ => rfl) i)

/-- **A bit of a name that is bound** is the bit of what it is bound to. -/
theorem readsAs_of_lookup (hname : scope.lookup name = some x)
    (hx : (follow scope x).All fun c => c.slotBelow s.limit) (i : Nat) :
    ReadsAs b scope s name i (s.denotes scope x i) := by
  have hproject : Succeeds (project b scope x (.bit i)) := succeeds_project x (.bit i)
  obtain ⟨w, s', h⟩ := hproject s
  refine ⟨w, s', ?_, denotation_project hx h⟩
  have hsignal : Gives (expr b scope none (.identifier name)) s x s := by
    rw [expr, nameSignal, hname]
    exact gives_pure.2 ⟨rfl, rfl⟩
  rw [expr]
  exact gives_bind.2 ⟨x, s, hsignal, gives_bind.2 ⟨w, s', h, gives_pure.2 ⟨rfl, rfl⟩⟩⟩

theorem readsAs_wire {w : Wire} (hname : scope.lookup name = some (.wire w))
    (hw : w.All fun c => c.slotBelow s.limit) (i : Nat) :
    ReadsAs b scope s name i (s.denotation (w.bitOrZero i)) := by
  have hself : follow scope (.wire w) = .wire w := follow_of_ne (fun _ hother => Signal.noConfusion hother) scope
  have hne : ∀ other, follow scope (.wire w) ≠ .forward other := fun other hother => by
    rw [hself] at hother
    cases hother
  have hreads : ReadsAs b scope s name i (s.denotes scope (.wire w) i) :=
    readsAs_of_lookup hname (by rwa [hself]) i
  rw [denotes_of_ne hne, hself] at hreads
  exact hreads

end Reading

/-! ## Signals as wires -/

section Materializing

variable {scope : Scope Signal} {s s' : State} {b : Body} {x : Signal} {w : Wire} {n i : Nat}

theorem bitOrZero_asWire_of_lt (h : x.Endless → i < n) : (x.asWire (some n)).bitOrZero i = x.bitOrZero i := by
  cases x with
  | literal value => exact Wire.bitOrZero_ofFn _ (h trivial)
  | _ => exact Signal.bitOrZero_asWire (fun value hvalue => by cases hvalue) (some n) i

/-- **The bits of the wire that a signal is** are its bits, as far as they are asked for or the signal ends. -/
theorem denotation_materialize (hx : (follow scope x).All fun c => c.slotBelow s.limit)
    (h : Gives (materialize b scope x (some n)) s w s') (hi : (follow scope x).Endless → i < n) :
    s'.denotation (w.bitOrZero i) = s.denotes scope x i := by
  rcases (follow scope x).forward_or_ne with ⟨name, hname⟩ | hne
  · have hread : materialize b scope x (some n) = readForward name 0 n := by
      rw [materialize, hname]
      rfl
    rw [hread] at h
    rw [hname] at hi
    rw [denotes_of_forward hname, denotation_readForward h (hi trivial), Nat.zero_add]
  · have hslots := onlySlots_materialize h
    rw [Prophecy.eq_asWire hne h, bitOrZero_asWire_of_lt hi, denotes_of_ne hne]
    exact denotation_kept hslots.slotBase hslots.kept (hx.bitOrZero (fun _ => rfl) i)

/-- Beyond what is asked for, the wire of a signal without an end is 0. -/
theorem bitOrZero_materialize_of_le (hx : (follow scope x).Endless)
    (h : Gives (materialize b scope x (some n)) s w s') (hi : n ≤ i) : w.bitOrZero i = .const false := by
  refine Wire.bitOrZero_of_width_le ?_
  unfold materialize at h
  cases hf : follow scope x with
  | literal value =>
    simp only [hf] at h
    rwa [(gives_pure.1 h).1, Wire.constant, Wire.width_ofFn]
  | forward name =>
    simp only [hf] at h
    rwa [(Renaming.gives_readForward.1 h).2.1, Wire.width_ofFn]
  | wire _ => rw [hf] at hx; cases hx
  | bundle _ => rw [hf] at hx; cases hx
  | blackBox => rw [hf] at hx; cases hx

end Materializing

/-! ## One statement -/

/-- The width that a partial assignment gives a name which has none: the declared one, or what holds the range. -/
def leastWidth (m : Module) (name : String) (r : BitRange) : Nat :=
  ((m.output? name).map Port.width).getD (r.hi + 1)

/-- The wire that a name is before some of its bits are replaced. -/
def presentWire (b : Body) (scope : Scope Signal) (name : String) (least : Nat) : Build Wire :=
  match scope.lookup name with
  | some x => materialize b scope x (some least)
  | none => return .zeros least

/-- The name is bound, and its bit `i` is one of the `least` bits that are asked for, or the name is bound to
something that ends. -/
def Outlives (scope : Scope Signal) (name : String) (least i : Nat) : Prop :=
  ∃ x, scope.lookup name = some x ∧ ((follow scope x).Endless → i < least)

/-- The bits of `name` in the range `r` are replaced by the bits `value`. All others that outlive this stand for
what they stood for, and the rest is 0. -/
structure Replaces (b : Body) (name : String) (r : BitRange) (value : Nat → Denotation) (before : Scope Signal)
    (s : State) (after : Scope Signal) (s' : State) : Prop where
  inside : ∀ i < r.width, ReadsAs b after s' name (r.lo + i) (value i)
  kept : ∀ i, i < r.lo ∨ r.hi < i → Outlives before name (leastWidth b.module name r) i →
    ∃ d, ReadsAs b before s name i d ∧ ReadsAs b after s' name i d
  lost : ∀ i, i < r.lo ∨ r.hi < i → ¬ Outlives before name (leastWidth b.module name r) i →
    ReadsAs b after s' name i (.bit (.const false))

section Statement

variable {ρ : Renaming} {b : Body} {scope scope' : Scope Signal} {s s' : State} {name : String} {r : BitRange}
  {e : Expr} {part current : Wire} {i : Nat}

theorem bitOrZero_spliced_inside (hpart : part.width = r.width) (hi : i < r.width) :
    ((current.fit (max current.width (r.hi + 1))).splice r.lo part).bitOrZero (r.lo + i) =
      part.bitOrZero i := by
  have hle := r.lo_le_hi
  have hwidth : r.width = r.hi - r.lo + 1 := rfl
  have hin : r.lo ≤ r.lo + i ∧ r.lo + i < r.lo + part.width := by omega
  rw [Wire.splice, Wire.bitOrZero_ofFn, if_pos hin, Nat.add_sub_cancel_left]
  rw [Wire.fit, Wire.width_ofFn]
  omega

theorem bitOrZero_spliced_outside (hpart : part.width = r.width) (hi : i < r.lo ∨ r.hi < i) :
    ((current.fit (max current.width (r.hi + 1))).splice r.lo part).bitOrZero i = current.bitOrZero i := by
  have hle := r.lo_le_hi
  have hwidth : r.width = r.hi - r.lo + 1 := rfl
  have hout : ¬(r.lo ≤ i ∧ i < r.lo + part.width) := by omega
  rcases Nat.lt_or_ge i (max current.width (r.hi + 1)) with hlt | hge
  · rw [Wire.splice, Wire.bitOrZero_ofFn, if_neg hout, Wire.fit, Wire.bitOrZero_ofFn _ hlt]
    rwa [Wire.fit, Wire.width_ofFn]
  · have hcurrent : current.width ≤ i := by omega
    rw [Wire.bitOrZero_of_width_le hcurrent]
    refine Wire.bitOrZero_of_width_le ?_
    rwa [Wire.splice, Wire.width_ofFn, Wire.fit, Wire.width_ofFn]

/-- **The steps of a partial assignment**: its expression, fitted to the range, and the present wire of the
name. -/
theorem gives_assign_range (h : Gives (assign b scope ⟨⟨name, some r⟩, e⟩) s scope' s') :
    ∃ x s₁ part s₂ current, Gives (expr b scope (some r.width) e) s x s₁ ∧
      Gives (fitted b scope x r.width) s₁ part s₂ ∧
      Gives (presentWire b scope name (leastWidth b.module name r)) s₂ current s' ∧
      scope' = Prophecy.spliced scope name r part current := by
  -- a replacement that fits binds the wire with the new bits
  have hsplice : ∀ {part current : Wire} {t : State}, Gives (do
      if (current.fit (max current.width (r.hi + 1))).width < r.lo + part.width then
        throw (.fault .spliceOutOfRange)
      return Prophecy.spliced scope name r part current) t scope' s' →
      scope' = Prophecy.spliced scope name r part current ∧ s' = t := by
    intro part current t h
    split at h
    · obtain ⟨_, _, hthrow, -⟩ := gives_bind.1 h
      exact absurd hthrow not_gives_throw
    · exact gives_pure.1 h
  unfold assign at h
  obtain ⟨x, s₁, hx, h⟩ := gives_bind.1 h
  obtain ⟨part, s₂, hpart, h⟩ := gives_bind.1 h
  refine ⟨x, s₁, part, s₂, ?_⟩
  unfold presentWire
  cases hl : scope.lookup name with
  | none =>
    simp only [hl, pure_bind] at h
    obtain ⟨hscope, rfl⟩ := hsplice h
    exact ⟨_, hx, hpart, gives_pure.2 ⟨rfl, rfl⟩, hscope⟩
  | some y =>
    simp only [hl] at h
    obtain ⟨current, s₃, hcurrent, h⟩ := gives_bind.1 h
    obtain ⟨hscope, rfl⟩ := hsplice h
    exact ⟨current, hx, hpart, hcurrent, hscope⟩

theorem onlySlots_presentWire {least : Nat} (h : Gives (presentWire b scope name least) s current s') :
    OnlySlots s s' := by
  unfold presentWire at h
  split at h
  · exact onlySlots_materialize h
  · rw [(gives_pure.1 h).2]
    exact OnlySlots.refl s

/-- What outlives a partial assignment is read from the present wire. -/
theorem denotation_presentWire {least : Nat} {x : Signal} (hx : scope.lookup name = some x)
    (hknown : (follow scope x).All fun c => c.slotBelow s.limit)
    (h : Gives (presentWire b scope name least) s current s') (hi : (follow scope x).Endless → i < least) :
    s'.denotation (current.bitOrZero i) = s.denotes scope x i := by
  rw [presentWire, hx] at h
  exact denotation_materialize hknown h hi

/-- What does not is not there. -/
theorem bitOrZero_presentWire {least : Nat} (h : Gives (presentWire b scope name least) s current s')
    (hi : ¬Outlives scope name least i) : current.bitOrZero i = .const false := by
  unfold presentWire at h
  cases hx : scope.lookup name with
  | none =>
    simp only [hx] at h
    rw [(gives_pure.1 h).1, Wire.zeros_eq_ofFn]
    rcases Nat.lt_or_ge i least with hlt | hge
    · exact Wire.bitOrZero_ofFn _ hlt
    · exact Wire.bitOrZero_of_width_le (by rwa [Wire.width_ofFn])
  | some x =>
    simp only [hx] at h
    have hpast : (follow scope x).Endless ∧ least ≤ i := by
      rw [← Nat.not_lt, ← Classical.not_imp]
      exact fun hends => hi ⟨x, hx, hends⟩
    exact bitOrZero_materialize_of_le hpast.1 h hpast.2

/-- **A partial assignment replaces the bits of its range** by those of its expression. -/
theorem replaces_of_assign (hb : ρ.Bodies b b) (hcalls : ∀ c ∈ b.callees, c.Copying) (hs : ρ.SoundWith scope s)
    (h : Gives (assign b scope ⟨⟨name, some r⟩, e⟩) s scope' s') :
    ∃ x s₁, Gives (expr b scope (some r.width) e) s x s₁ ∧
      Replaces b name r (s₁.denotes scope x) scope s scope' s' := by
  obtain ⟨-, -, hafter, -⟩ := Renaming.sim_assign hb hs.known ⟨⟨name, some r⟩, e⟩ hs.sound scope' s' h
  obtain ⟨x, s₁, part, s₂, current, hx, hpart, hcurrent, rfl⟩ := gives_assign_range h
  obtain ⟨hgrow, hs₁, hxknown, -⟩ := Renaming.sim_expr hb hs.known (some r.width) e hs.sound x s₁ hx
  have hscope₁ := hs.known.imp hgrow.known
  have hfitted : ρ.Sim s₁ (fitted b scope x r.width) (fitted b (ρ.scope scope) (ρ.signal x) r.width) ρ.wire _ :=
    Renaming.sim_fitted hscope₁ hxknown r.width
  obtain ⟨hgrow₂, -, ⟨hpartknown, hwidth⟩, -⟩ := hfitted hs₁ part s₂ hpart
  have hscope₂ := hscope₁.imp hgrow₂.known
  obtain ⟨w, _, hw, hfit⟩ := gives_bind.1 hpart
  obtain ⟨rfl, rfl⟩ := gives_pure.1 hfit
  have hslots := onlySlots_materialize hw
  have hslots' := onlySlots_presentWire hcurrent
  have hkept : StayOpen s.slots s₂.slots := (stayOpen_expr hb hcalls hs hx).trans hslots.kept
  have hbase : s₂.slotBase = s.slotBase := hslots.slotBase.trans hgrow.slotBase
  -- what is bound to the name now, bit by bit
  have hread : ∀ i, ReadsAs b (Prophecy.spliced scope name r (w.fit r.width) current) s' name i (s'.denotation
      (((current.fit (max current.width (r.hi + 1))).splice r.lo (w.fit r.width)).bitOrZero i)) := by
    intro i
    have hlookup := Scope.lookup_bind scope name name
      (.wire ((current.fit (max current.width (r.hi + 1))).splice r.lo (w.fit r.width)))
    rw [if_pos rfl] at hlookup
    exact readsAs_wire hlookup ((hafter.lookup hlookup).imp fun _ hc => hc.slotBelow) i
  refine ⟨x, s₁, hx, fun i hi => ?_, fun i hi ⟨y, hy, hends⟩ => ?_, fun i hi hnot => ?_⟩
  · have hvalue := denotation_materialize ((hxknown.follow hscope₁).imp fun _ hc => hc.slotBelow) hw fun _ => hi
    have hbit : (w.fit r.width).bitOrZero i = w.bitOrZero i := Wire.bitOrZero_ofFn _ hi
    have hlater := denotation_kept hslots'.slotBase hslots'.kept (hpartknown.bitOrZero trivial i).slotBelow
    rw [hbit, hvalue, ← hbit, ← bitOrZero_spliced_inside hwidth hi] at hlater
    rw [← hlater]
    exact hread (r.lo + i)
  · have hyknown := ((hs.known.lookup hy).follow hs.known).imp fun _ hc => hc.slotBelow
    have hyknown₂ := ((hscope₂.lookup hy).follow hscope₂).imp fun _ hc => hc.slotBelow
    have hpresent := denotation_presentWire hy hyknown₂ hcurrent hends
    rw [denotes_kept hbase hkept hyknown, ← bitOrZero_spliced_outside hwidth hi] at hpresent
    exact ⟨_, readsAs_of_lookup hy hyknown i, hpresent ▸ hread i⟩
  · have hpresent := hread i
    rwa [bitOrZero_spliced_outside hwidth hi, bitOrZero_presentWire hcurrent hnot] at hpresent

end Statement

/-! ## Designs -/

section Designs

variable {l : Ledger} {ms : List Module} {lib : Library} {m : Module} {pre post : List Statement} {name : String}
  {r : BitRange} {e : Expr}

/-- **What a bit stands for decides what becomes of it.** Wherever it is named in a module of a compiled design, at
the end of the body it is what its slot stands for there, if it is a slot, and itself otherwise. -/
theorem becomes_denoted (h : (l.compile ms).result = .ok lib) {k : Nat} (hm : ms[k]? = some m)
    (hbody : m.statements = pre ++ post) {scope : Scope Signal} {s : State}
    (hreach : Reaches (ms.take k).reverse m (l.nextId + nodeCount (lib.netlists.take k).reverse) pre scope s) :
    ∃ last inst t, Gives (openBody (bodyOf (ms.take k).reverse m) (inputWires 0 m.inputs))
        (State.outermost (l.nextId + nodeCount (lib.netlists.take k).reverse) m).inner (last, inst) t ∧
      ∀ c, c.slotBelow s.limit → settled last t c = (s.denotation c).settled last t := by
  obtain ⟨last, inst, t, hopen, hnone, hs, ht, hkept⟩ := hreach.stayOpen h hm hbody
  exact ⟨last, inst, t, hopen, fun c hc => settled_eq_denoted hs ht hkept hnone.direct hc⟩

/-- **A partial assignment changes only its own bits**, wherever it stands in a module of a compiled design.
After it the bits of its range stand for those of its expression, 0 past its end. Every other bit of the name
stands for what it stood for before, if the name was bound to a wire, an instance or a black box; if it was bound
to a number or a name that is read early, this holds up to the declared width, or to the end of the range where
none is declared. All bits beyond are 0, and so are all other bits of a name that was not bound. -/
theorem replaces_bits (h : (l.compile ms).result = .ok lib) {k : Nat} (hm : ms[k]? = some m)
    (hbody : m.statements = pre ++ ⟨⟨name, some r⟩, e⟩ :: post) :
    ∃ scope s x s₁ scope' s',
      Reaches (ms.take k).reverse m (l.nextId + nodeCount (lib.netlists.take k).reverse) pre scope s ∧
      Gives (expr (bodyOf (ms.take k).reverse m) scope (some r.width) e) s x s₁ ∧
      Reaches (ms.take k).reverse m (l.nextId + nodeCount (lib.netlists.take k).reverse)
        (pre ++ [⟨⟨name, some r⟩, e⟩]) scope' s' ∧
      Replaces (bodyOf (ms.take k).reverse m) name r (s₁.denotes scope x) scope s scope' s' := by
  rw [← List.singleton_append, ← List.append_assoc] at hbody
  obtain ⟨scope', s', hafter⟩ := exists_reaches h hm hbody
  obtain ⟨scope, s, hreach, hst⟩ := reaches_snoc.1 hafter
  obtain ⟨-, ρ, hb, hs⟩ := hreach.sound
  have hcalls := copying_visible (copying_calleesOf h k) m
  obtain ⟨x, s₁, hx, hreplaces⟩ := replaces_of_assign hb hcalls hs hst
  exact ⟨scope, s, x, s₁, scope', s', hreach, hx, hafter, hreplaces⟩

/-- A module that replaces a bit of a wire. -/
def patched : Module :=
  ⟨"Patched", [⟨"a", 3⟩, ⟨"b", 1⟩], [⟨"out", 3⟩],
    [⟨⟨"x", none⟩, .identifier "a"⟩,
      ⟨⟨"x", some (.bit 1)⟩, .identifier "b"⟩,
      ⟨⟨"out", none⟩, .identifier "x"⟩]⟩

theorem patched_outputs : ((Ledger.compile {} [patched]).result.toOption.map fun lib =>
    lib.netlists.map fun n => n.outputs.map Prod.snd) =
    some [[⟨#[.input 0, .input 3, .input 2]⟩]] := by
  decide +kernel

theorem patched_replaces : ∃ lib scope s x s₁ scope' s', (Ledger.compile {} [patched]).result = .ok lib ∧
    [patched][0]? = some patched ∧
    patched.statements = [⟨⟨"x", none⟩, .identifier "a"⟩] ++ ⟨⟨"x", some (.bit 1)⟩, .identifier "b"⟩ ::
      [⟨⟨"out", none⟩, .identifier "x"⟩] ∧
    Gives (expr (bodyOf [] patched) scope (some 1) (.identifier "b")) s x s₁ ∧
    Replaces (bodyOf [] patched) "x" (.bit 1) (s₁.denotes scope x) scope s scope' s' := by
  have houtputs := patched_outputs
  cases h : (Ledger.compile {} [patched]).result with
  | error e =>
    rw [h] at houtputs
    cases houtputs
  | ok lib =>
    obtain ⟨scope, s, x, s₁, scope', s', -, hx, -, hreplaces⟩ := replaces_bits h (k := 0) rfl
      (show patched.statements = [⟨⟨"x", none⟩, .identifier "a"⟩] ++
        ⟨⟨"x", some (.bit 1)⟩, .identifier "b"⟩ :: [⟨⟨"out", none⟩, .identifier "x"⟩] from rfl)
    exact ⟨lib, scope, s, x, s₁, scope', s', rfl, rfl, rfl, hx, hreplaces⟩

/-- A module that reads a bit of `x` right before and right after another bit of it is assigned. -/
def probing (inputs : List Port) (first last : List Statement) (i : Nat) : Module :=
  ⟨"Probing", inputs, [⟨"before", 1⟩, ⟨"after", 1⟩], first ++
    ⟨⟨"before", none⟩, .select (.identifier "x") (.bit i)⟩ ::
    ⟨⟨"x", some (.bit 0)⟩, .identifier "a"⟩ ::
    ⟨⟨"after", none⟩, .select (.identifier "x") (.bit i)⟩ :: last⟩

/-- What the module reads before and after. -/
def probed (m : Module) : Option (List (Option Wire × Option Wire)) :=
  (Ledger.compile {} [m]).result.toOption.map fun lib =>
    lib.netlists.map fun n => (n.signal? "before", n.signal? "after")

/-- **Other bits can be lost.** Bit 2 of the number 5, bit 3 of the name of an input which is assigned only
later, and bit 1 of a name whose bit 1 is assigned only later, give way to 0 where bit 0 is assigned. -/
theorem short_reads :
    probed (probing [⟨"a", 1⟩] [⟨⟨"x", none⟩, .number 5⟩] [] 2) =
      some [(some ⟨#[.const true]⟩, some ⟨#[.const false]⟩)] ∧
    probed (probing [⟨"a", 1⟩, ⟨"b", 4⟩] [⟨⟨"x", none⟩, .identifier "y"⟩] [⟨⟨"y", none⟩, .identifier "b"⟩] 3) =
      some [(some ⟨#[.input 4]⟩, some ⟨#[.const false]⟩)] ∧
    probed (probing [⟨"a", 1⟩, ⟨"b", 1⟩] [] [⟨⟨"x", some (.bit 1)⟩, .identifier "b"⟩] 1) =
      some [(some ⟨#[.input 1]⟩, some ⟨#[.const false]⟩)] := by
  decide +kernel

end Designs

end Elaboration

end NandHdl
