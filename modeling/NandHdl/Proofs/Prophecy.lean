import NandHdl.Proofs.Foresight

/-!
# The end of a body, known beforehand

Elaboration with slots runs beside elaboration with foresight, and the bits of
the first become those of the second at the end of the body. So what is read
becomes what foresight reads.

* `Prophecy`: what becomes of every bit at the end of a body.
* `Shows`: what is read becomes what foresight reads.
* `bits_foretold`: **the bits that foresight gives a signal are what becomes of its bits.**
* `shows_materialize`, `shows_fitted`, `shows_project`: the ways of reading a signal.
-/

namespace NandHdl

open Relation

theorem Wire.ofFn_congr {n : Nat} {g h : Nat → Bit} (hgh : ∀ i < n, g i = h i) : ofFn n g = ofFn n h := by
  rw [ofFn, ofFn]
  congr 2
  funext i
  exact hgh i i.isLt

theorem Wire.bitOrZero_ofFn {n i : Nat} (g : Nat → Bit) (h : i < n) : (ofFn n g).bitOrZero i = g i := by
  rw [bitOrZero, ofFn, Array.getD_eq_getD_getElem?, Array.getElem?_ofFn, dif_pos h]
  rfl

theorem Wire.bitOrZero_of_width_le {w : Wire} {i : Nat} (h : w.width ≤ i) :
    w.bitOrZero i = .const false := by
  rw [bitOrZero, Array.getD_eq_getD_getElem?, Array.getElem?_eq_none h]
  rfl

theorem Wire.zeros_eq_ofFn (n : Nat) : zeros n = ofFn n fun _ => .const false := by
  rw [zeros, ofFn]
  congr 1
  exact Array.ext (by simp) (by simp)

/-- The wire that a signal which is no name is where `want` bits are asked for, if any number is. -/
def Signal.asWire (x : Signal) (want : Option Nat) : Wire :=
  .ofFn ((x.wire?.map Wire.width).getD (want.getD x.naturalWidth)) x.bitOrZero

theorem Signal.bitOrZero_of_wire? {x : Signal} {w : Wire} (h : x.wire? = some w) (i : Nat) :
    x.bitOrZero i = w.bitOrZero i := by
  cases x with
  | literal value => cases h
  | _ => simp only [bitOrZero, h]

theorem Signal.bitOrZero_asWire {x : Signal} (hx : ∀ value, x ≠ .literal value) (want : Option Nat) (i : Nat) :
    (x.asWire want).bitOrZero i = x.bitOrZero i := by
  rcases Nat.lt_or_ge i (x.asWire want).width with hlt | hle
  · rw [asWire, Wire.width_ofFn] at hlt
    exact Wire.bitOrZero_ofFn _ hlt
  · rw [Wire.bitOrZero_of_width_le hle]
    cases hw : x.wire? with
    | some w =>
      rw [asWire, Wire.width_ofFn, hw] at hle
      rw [bitOrZero_of_wire? hw, Wire.bitOrZero_of_width_le hle]
    | none =>
      cases x with
      | literal value => exact absurd rfl (hx value)
      | _ => simp only [bitOrZero, hw]

namespace Elaboration

/-! ## The end of a body beforehand -/

/-- The end of an outermost body: the bindings and the slots there, and what becomes of every bit. -/
structure Prophecy where
  last : Scope Signal
  slots : Array ForwardSlot
  bit : Bit → Bit
  kept : ∀ b, b.slotBelow 0 → bit b = b
  settles : ∀ b, (bit b).slotBelow 0
  slot : ∀ (k : Nat) x, slots[k]? = some x → bit (.forward k) = bit (finalBit last x)

/-- Slots that are open stay open. -/
def StayOpen (slots slots' : Array ForwardSlot) : Prop :=
  ∀ (k : Nat) x, slots[k]? = some x → slots'[k]? = some x

namespace Prophecy

variable (p : Prophecy)

/-- The bits that names have in the end. -/
def final (name : String) (i : Nat) : Bit := p.bit (finalBit p.last ⟨name, i⟩)

def wire (w : Wire) : Wire := w.map p.bit

def wires (ws : List (String × Wire)) : List (String × Wire) := ws.map fun w => (w.1, p.wire w.2)

def signal (x : Signal) : Signal := x.map p.bit

def scope (scope : Scope Signal) : Scope Signal := scope.map p.signal

def node (n : Node) : Node := ⟨n.id, n.cell.map p.bit⟩

/-- The state `t` with foresight beside the state `s` of an outermost body. -/
structure Beside (s t : State) : Prop where
  base : s.slotBase = 0
  nextId : t.nextId = s.nextId
  nodes : t.nodes = s.nodes.map p.node

/-- The foresight `f` knows this end: it knows the bits that names have there, and what is bound in `scope` and
not assigned from here on is bound like this there. -/
structure Knows (f : Foresight) (scope : Scope Signal) : Prop where
  final : f.final = p.final
  keeps : ∀ name x, scope.lookup name = some x → name ∉ f.coming → p.last.lookup name = some x

/-- From `s` on the step `x` adds no nodes, and what it gives becomes `a'` in the end. -/
def Shows {α β : Type} (s : State) (x : Build α) (g : α → β) (a' : β) : Prop :=
  ∀ a s', Gives x s a s' → OnlySlots s s' ∧ (s.slotBase = 0 → StayOpen s'.slots p.slots → g a = a')

/-- **Whatever `x` does from `s` on, `y` does with foresight.** The result `a` becomes `g a`. -/
def Foretold {α : Type} (s : State) (x y : Build α) (g : α → α) : Prop :=
  ∀ a s', Gives x s a s' → StayOpen s.slots s'.slots ∧
    (StayOpen s'.slots p.slots → ∀ t, p.Beside s t → ∃ t', Gives y t (g a) t' ∧ p.Beside s' t')

end Prophecy

theorem StayOpen.refl (slots : Array ForwardSlot) : StayOpen slots slots := fun _ _ h => h

theorem StayOpen.trans {a b c : Array ForwardSlot} (h : StayOpen a b) (h' : StayOpen b c) : StayOpen a c :=
  fun k x hx => h' k x (h k x hx)

theorem OnlySlots.kept {s s' : State} (h : OnlySlots s s') : StayOpen s.slots s'.slots := by
  obtain ⟨extra, log, rfl⟩ := h
  intro k x hx
  have hlt := (Array.getElem?_eq_some_iff.1 hx).1
  rw [Array.getElem?_append_left hlt, hx]

theorem OnlySlots.slotBase {s s' : State} (h : OnlySlots s s') : s'.slotBase = s.slotBase := by
  obtain ⟨extra, log, rfl⟩ := h
  rfl

theorem OnlySlots.grows {s s' : State} (h : OnlySlots s s') : Renaming.Grows s s' := by
  obtain ⟨extra, log, rfl⟩ := h
  exact ⟨Nat.le_refl _, rfl, rfl, by simp only [Array.size_append]; omega⟩

namespace Prophecy

variable {p : Prophecy} {f : Foresight} {s s' t : State} {scope : Scope Signal} {x : Signal} {b : Body}
  {α β γ δ : Type}

theorem Beside.onlySlots (ht : p.Beside s t) (h : OnlySlots s s') : p.Beside s' t := by
  obtain ⟨extra, log, rfl⟩ := h
  exact ⟨ht.base, ht.nextId, ht.nodes⟩

theorem bit_const (v : Bool) : p.bit (.const v) = .const v := p.kept _ rfl

/-! ## Reading -/

theorem Shows.pure {a : α} {g : α → β} {a' : β} (h : g a = a') : p.Shows s (pure a) g a' := by
  intro c s' hc
  obtain ⟨rfl, rfl⟩ := gives_pure.1 hc
  exact ⟨OnlySlots.refl s', fun _ _ => h⟩

theorem Shows.bind {x : Build α} {g : α → β} {a' : β} {k : α → Build γ} {h : γ → δ} {r : β → δ}
    (hx : p.Shows s x g a') (hk : ∀ a s', p.Shows s' (k a) h (r (g a))) :
    p.Shows s (x >>= k) h (r a') := by
  intro c s'' hc
  obtain ⟨a, s', ha, hc⟩ := gives_bind.1 hc
  obtain ⟨hslots, ha'⟩ := hx a s' ha
  obtain ⟨hslots', hc'⟩ := hk a s' c s'' hc
  refine ⟨hslots.trans hslots', fun hbase hkept => ?_⟩
  rw [hc' (hslots.slotBase.trans hbase) hkept, ha' hbase (hslots'.kept.trans hkept)]

theorem passed_map {g : Bit → Bit} (scope : Scope Signal) (x : Signal) :
    passed (scope.map (Signal.map g)) (x.map g) = passed scope x := by
  rw [passed, passed, show (scope.map (Signal.map g)).newestFirst.length = scope.newestFirst.length from
    List.length_map _]
  generalize scope.newestFirst.length = fuel
  induction fuel generalizing scope x with
  | zero => rfl
  | succ fuel ih =>
    cases x with
    | forward name =>
      simp only [Signal.map, passedWithin, Scope.lookup_map]
      cases scope.lookup name with
      | none => rfl
      | some y => simp only [Option.map_some, Scope.without_map, ih]
    | _ => rfl

theorem follow_scope (scope : Scope Signal) (x : Signal) :
    follow (p.scope scope) (p.signal x) = p.signal (follow scope x) := follow_map scope x

theorem knownWidth_scope (scope : Scope Signal) (x : Signal) :
    knownWidth (p.scope scope) (p.signal x) = knownWidth scope x := knownWidth_map scope x

theorem naturalWidth_signal (x : Signal) : (p.signal x).naturalWidth = x.naturalWidth :=
  Signal.naturalWidth_map x

/-- What is bound now and not assigned any more leads to the same signal in the end. -/
theorem Knows.reaches (h : p.Knows f scope) (hx : (passed scope x).any (· ∈ f.coming) = false) :
    ReflTransGen p.last.Step x (follow scope x) := by
  refine passed_reaches fun name hname => ?_
  obtain ⟨y, hy⟩ := Option.isSome_iff_exists.1 (isSome_of_passed hname)
  have hcoming : name ∉ f.coming := by simpa using List.any_eq_false.1 hx name hname
  rw [hy, h.keeps name y hy hcoming]

/-- **What foresight reads is what becomes of the bits of a signal.** -/
theorem bits_foretold (h : p.Knows f scope) (x : Signal) (i : Nat) :
    f.bits (p.scope scope) (p.signal x) i = p.bit ((follow p.last (follow scope x)).bitOrZero i) := by
  have hpassed : passed (p.scope scope) (p.signal x) = passed scope x := passed_map scope x
  -- what the signal is taken for leads to the same bits
  obtain ⟨y, hy, hend⟩ : ∃ y, f.seen (p.scope scope) (p.signal x) = p.signal y ∧
      (follow p.last (follow scope x)).bitOrZero i = (follow p.last y).bitOrZero i := by
    rw [Foresight.seen, hpassed, follow_scope]
    cases hx : (passed scope x).any (· ∈ f.coming) with
    | true => exact ⟨follow scope x, rfl, rfl⟩
    | false => exact ⟨x, rfl, (bitOrZero_follow (h.reaches hx) i).symm⟩
  rw [hend]
  rcases y.forward_or_ne with ⟨name, rfl⟩ | hne
  · rw [Foresight.bits_of_forward hy, h.final]
    rfl
  · have hseen : ∀ name, f.seen (p.scope scope) (p.signal x) ≠ .forward name := fun name hname => by
      rw [hy] at hname
      cases y with
      | forward other => exact hne other rfl
      | _ => cases hname
    rw [Foresight.bits_of_ne hseen, hy, follow_of_ne hne, ← Signal.bitOrZero_map bit_const]
    rfl

/-- What a signal that is followed to no name is read as. -/
theorem eq_asWire {want : Option Nat} {w : Wire} (hx : ∀ name, follow scope x ≠ .forward name)
    (h : Gives (materialize b scope x want) s w s') : w = (follow scope x).asWire want := by
  unfold materialize at h
  cases hf : follow scope x with
  | wire v =>
    simp only [hf] at h
    rw [(gives_pure.1 h).1]
    exact (ofFn_bitOrZero v).symm
  | bundle fields =>
    match fields with
    | [(n, v)] =>
      simp only [hf] at h
      rw [(gives_pure.1 h).1]
      exact (ofFn_bitOrZero v).symm
    | [] =>
      simp only [hf] at h
      obtain ⟨_, _, -, h⟩ := gives_bind.1 h
      rw [(gives_pure.1 h).1]
      exact Wire.zeros_eq_ofFn _
    | _ :: _ :: _ =>
      simp only [hf] at h
      obtain ⟨_, _, -, h⟩ := gives_bind.1 h
      rw [(gives_pure.1 h).1]
      exact Wire.zeros_eq_ofFn _
  | literal value =>
    simp only [hf] at h
    rw [(gives_pure.1 h).1]
    rfl
  | blackBox =>
    simp only [hf] at h
    rw [(gives_pure.1 h).1]
    exact Wire.zeros_eq_ofFn _
  | forward name => exact absurd hf (hx name)

theorem shows_readForward (name : String) (lo count : Nat) :
    p.Shows s (readForward name lo count) p.wire (.ofFn count fun i => p.final name (lo + i)) := by
  intro w s' hw
  obtain ⟨-, rfl, rfl⟩ := Renaming.gives_readForward.1 hw
  refine ⟨⟨_, s.log, rfl⟩, fun hbase hkept => ?_⟩
  rw [wire, Wire.map_ofFn]
  refine Wire.ofFn_congr fun i hi => ?_
  -- the slot of bit `lo + i` is open from now on
  have hslot : p.slots[s.limit + i]? = some ⟨name, lo + i⟩ := by
    refine hkept _ _ ?_
    rw [State.limit, hbase, Nat.zero_add, Array.getElem?_append_right (Nat.le_add_right _ _),
      Nat.add_sub_cancel_left, Array.getElem?_ofFn, dif_pos hi]
  exact p.slot _ _ hslot

/-- **A signal is read as the wire that it is with foresight.** -/
theorem shows_materialize (h : p.Knows f scope) (x : Signal) (want : Option Nat) :
    p.Shows s (materialize b scope x want) p.wire (f.wire (p.scope scope) (p.signal x) want) := by
  rw [Foresight.wire, knownWidth_scope, follow_scope, naturalWidth_signal, knownWidth,
    funext (bits_foretold h x)]
  rcases (follow scope x).forward_or_ne with ⟨name, hname⟩ | hne
  · have hread : materialize b scope x want = readForward name 0 (want.getD 1) := by
      rw [materialize, hname]
    have hshows : p.Shows s (readForward name 0 (want.getD 1)) p.wire _ := shows_readForward name 0 _
    simp only [Nat.zero_add] at hshows
    rw [hread, hname]
    exact hshows
  · intro w s' hw
    refine ⟨onlySlots_materialize hw, fun _ _ => ?_⟩
    rw [eq_asWire hne hw, wire, Signal.asWire, Wire.map_ofFn, follow_of_ne hne]

/-- Past the width of a signal there is nothing to be read. -/
theorem bits_of_width_le (h : p.Knows f scope) {n i : Nat} (hn : knownWidth scope x = some n) (hi : n ≤ i) :
    f.bits (p.scope scope) (p.signal x) i = .const false := by
  obtain ⟨w, hw, rfl⟩ := Option.map_eq_some_iff.1 hn
  have hne : ∀ name, follow scope x ≠ .forward name := fun name hname => by
    rw [hname] at hw
    cases hw
  rw [bits_foretold h, follow_of_ne hne, Signal.bitOrZero_of_wire? hw, Wire.bitOrZero_of_width_le hi,
    bit_const]

theorem bitOrZero_wire (h : p.Knows f scope) {want : Option Nat} {i : Nat}
    (hi : i < want.getD (follow scope x).naturalWidth) :
    (f.wire (p.scope scope) (p.signal x) want).bitOrZero i = f.bits (p.scope scope) (p.signal x) i := by
  rw [Foresight.wire, knownWidth_scope, follow_scope, naturalWidth_signal]
  cases hn : knownWidth scope x with
  | none => exact Wire.bitOrZero_ofFn _ hi
  | some n =>
    rw [Option.getD_some]
    rcases Nat.lt_or_ge i n with hlt | hle
    · exact Wire.bitOrZero_ofFn _ hlt
    · rw [bits_of_width_le h hn hle]
      exact Wire.bitOrZero_of_width_le (by rwa [Wire.width_ofFn])

theorem shows_fitted (h : p.Knows f scope) (x : Signal) (width : Nat) :
    p.Shows s (fitted b scope x width) p.wire (.ofFn width (f.bits (p.scope scope) (p.signal x))) := by
  have hfit : (f.wire (p.scope scope) (p.signal x) (some width)).fit width =
      .ofFn width (f.bits (p.scope scope) (p.signal x)) := Wire.ofFn_congr fun i hi => bitOrZero_wire h hi
  rw [← hfit]
  exact (shows_materialize h x (some width)).bind (r := fun w => w.fit width) fun w _ =>
    Shows.pure (Wire.map_fit (bit_const false) w width)

/-- Some bits of a signal that is followed to no name. -/
theorem project_of_ne {r : BitRange} {w : Wire} (hx : ∀ name, follow scope x ≠ .forward name)
    (h : Gives (project b scope x r) s w s') :
    OnlySlots s s' ∧ w = .ofFn r.width fun i => (follow scope x).bitOrZero (r.lo + i) := by
  -- a wire is taken as it is, and its bits are extracted
  have hextract : ∀ y, follow scope x = y → (∀ value, y ≠ .literal value) →
      Gives (do
        let w ← materialize b scope y none
        if w.width ≤ r.hi then note (.bitOutOfRange r.hi w.width b.module.name)
        return w.extract r.lo r.width) s w s' →
      OnlySlots s s' ∧ w = .ofFn r.width fun i => y.bitOrZero (r.lo + i) := by
    intro y hy hliteral h
    have hfollow : follow scope y = y := follow_of_ne (fun name hname => hx name (hy.trans hname)) scope
    obtain ⟨v, s₁, hv, h⟩ := gives_bind.1 h
    have hslots := onlySlots_materialize hv
    have hvalue := eq_asWire (by rw [hfollow, ← hy]; exact hx) hv
    rw [hfollow] at hvalue
    have hbits : ∀ i, v.bitOrZero i = y.bitOrZero i := fun i => by
      rw [hvalue]
      exact Signal.bitOrZero_asWire hliteral none i
    rw [Wire.extract, funext fun i => hbits (r.lo + i)] at h
    split at h
    · obtain ⟨_, s₂, hnote, h⟩ := gives_bind.1 h
      obtain ⟨rfl, rfl⟩ := gives_pure.1 h
      exact ⟨hslots.trans (onlySlots_note hnote), rfl⟩
    · obtain ⟨rfl, rfl⟩ := gives_pure.1 h
      exact ⟨hslots, rfl⟩
  unfold project at h
  cases hf : follow scope x with
  | wire v =>
    simp only [hf] at h
    exact hextract _ hf (fun _ hvalue => by cases hvalue) h
  | bundle fields =>
    simp only [hf] at h
    exact hextract _ hf (fun _ hvalue => by cases hvalue) h
  | literal value =>
    simp only [hf] at h
    obtain ⟨rfl, rfl⟩ := gives_pure.1 h
    exact ⟨OnlySlots.refl s', rfl⟩
  | blackBox =>
    simp only [hf] at h
    obtain ⟨rfl, rfl⟩ := gives_pure.1 h
    exact ⟨OnlySlots.refl s', Wire.zeros_eq_ofFn _⟩
  | forward name => exact absurd hf (hx name)

theorem shows_project (h : p.Knows f scope) (x : Signal) (r : BitRange) :
    p.Shows s (project b scope x r) p.wire
      (.ofFn r.width fun i => f.bits (p.scope scope) (p.signal x) (r.lo + i)) := by
  rw [funext fun i => bits_foretold h x (r.lo + i)]
  rcases (follow scope x).forward_or_ne with ⟨name, hname⟩ | hne
  · rw [project, hname]
    exact shows_readForward name r.lo r.width
  · intro w s' hw
    obtain ⟨hslots, rfl⟩ := project_of_ne hne hw
    refine ⟨hslots, fun _ _ => ?_⟩
    rw [wire, Wire.map_ofFn, follow_of_ne hne]

end Prophecy

end Elaboration

end NandHdl
