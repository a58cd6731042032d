import NandHdl.Proofs.Layout

/-!
# What the bits of a run stand for

While a body is elaborated, a name that is read stands for a slot if it is not assigned yet, and for the bit
bound to it otherwise. In the layout of the body it stands for itself in both cases. At the end of the body
there is no difference.

* `Leads`: the end of a chain of slots.
* `Reads`, `Means`: the bits and signals of a run, and what they stand for in the layout.
* `means_follow`: following names does not change what a signal stands for.
* `Ended.settled_eq`: **at the end of a body every bit becomes what the layout makes of it.**
-/

namespace NandHdl

/-- A scope without the bindings of a name. -/
theorem Scope.lookup_without {α : Type} (scope : Scope α) (name other : String) :
    (scope.without name).lookup other = if other = name then none else scope.lookup other := by
  obtain ⟨bs⟩ := scope
  simp only [Scope.lookup, Scope.without]
  induction bs with
  | nil => simp [Scope.lookupIn]
  | cons b bs ih =>
    obtain ⟨n, v⟩ := b
    by_cases hn : n = name
    · rw [List.filter_cons_of_neg (by simpa using hn), ih, Scope.lookupIn]
      split
      · rfl
      · next h => rw [if_neg fun h' => h (h'.symm.trans hn)]
    · rw [List.filter_cons_of_pos (by simpa using hn), Scope.lookupIn, Scope.lookupIn, ih]
      split
      · next h => rw [if_neg fun h' => hn (h.trans h')]
      · rfl

namespace Elaboration

/-! ## Ends of chains -/

/-- The chain from a bit on ends in a bit that is no slot. Slot `k` stands for `direct[k]`. -/
inductive Leads (direct : Array Bit) : Bit → Bit → Prop
  | here {b : Bit} (h : b.slotBelow 0) : Leads direct b b
  | next {k : Nat} {b c : Bit} (hk : direct[k]? = some b) (h : Leads direct b c) :
    Leads direct (.forward k) c

section Leads

variable {direct : Array Bit} {b c d : Bit}

/-- A slot is no end. -/
theorem not_slotBelow_zero (k : Nat) : ¬ (Bit.forward k).slotBelow 0 := by simp [Bit.slotBelow]

theorem Leads.forward {k : Nat} (h : Leads direct (.forward k) c) :
    ∃ b, direct[k]? = some b ∧ Leads direct b c := by
  cases h with
  | here h => exact absurd h (not_slotBelow_zero k)
  | next hk h => exact ⟨_, hk, h⟩

theorem Leads.const {v : Bool} (h : Leads direct (.const v) c) : c = .const v := by
  cases h
  rfl

/-- An end is found with enough fuel. -/
theorem Leads.chase (h : Leads direct b c) : ∃ fuel, chase 0 direct fuel b = some c := by
  induction h with
  | here h => exact ⟨0, chase_end h⟩
  | @next k b c hk _ ih =>
    obtain ⟨fuel, hfuel⟩ := ih
    refine ⟨fuel + 1, ?_⟩
    rw [chase_succ (Nat.zero_le k), Nat.sub_zero, Array.getD_eq_getD_getElem?, hk]
    exact hfuel

/-- What is found is an end, if no slot stands for one that is not there. -/
theorem leads_of_chase (hd : ∀ b ∈ direct, b.slotBelow direct.size) {fuel : Nat}
    (hb : b.slotBelow direct.size)
    (h : chase 0 direct fuel b = some c) : Leads direct b c := by
  induction fuel generalizing b with
  | zero =>
    rcases slot_or_below 0 b with ⟨k, hk, rfl⟩ | hend
    · rw [chase_zero hk] at h
      cases h
    · rw [chase_end hend] at h
      cases h
      exact .here hend
  | succ fuel ih =>
    rcases slot_or_below 0 b with ⟨k, hk, rfl⟩ | hend
    · rw [chase_succ hk, Nat.sub_zero] at h
      have hlt : k < direct.size := of_decide_eq_true hb
      rw [Array.getD_eq_getD_getElem?, Array.getElem?_eq_getElem hlt] at h
      exact .next (Array.getElem?_eq_getElem hlt) (ih (hd _ (Array.getElem_mem hlt)) h)
    · rw [chase_end hend] at h
      cases h
      exact .here hend

/-- What takes the place of a bit is the end of its chain. -/
theorem endOf_of_leads (hd : ∀ b ∈ direct, b.slotBelow direct.size) (hb : b.slotBelow direct.size)
    (h : Leads direct b c) : endOf direct b = c := by
  obtain ⟨fuel, hfuel⟩ := h.chase
  have hd' : ∀ b ∈ direct, b.slotBelow (0 + direct.size) := by rwa [Nat.zero_add]
  have hb' : b.slotBelow (0 + direct.size) := by rwa [Nat.zero_add]
  -- any fuel beyond the number of slots finds the same end
  have hmore : chase 0 direct (fuel + direct.size) b = some c := chase_mono (by omega) hfuel
  rw [chase_eq hd' hb' (by omega)] at hmore
  rw [endOf, resolve_eq_chase, chase_eq hd' hb' (by omega), hmore]
  rfl

/-- Without an end it is 0. -/
theorem endOf_of_not_leads (hd : ∀ b ∈ direct, b.slotBelow direct.size) (hb : b.slotBelow direct.size)
    (h : ∀ c, ¬ Leads direct b c) : endOf direct b = .const false := by
  rw [endOf, resolve_eq_chase]
  cases hc : chase 0 direct (direct.size + 2) b with
  | none => rfl
  | some c => exact absurd (leads_of_chase hd hb hc) (h c)

end Leads

/-! ## Bits and signals of a run -/

section Reads

variable {f : Frame} {table : Array Bit} {slots slots' : Array ForwardSlot} {b c : Bit} {x y : Signal}

/-- The bit `b` of a run in which `slots` are open stands for the bit `c` of the layout: they are the same, `b`
is a slot of the name that `c` is, or `b` stands for what the name that `c` is stands for. -/
inductive Reads (f : Frame) (table : Array Bit) (slots : Array ForwardSlot) : Bit → Bit → Prop
  | same {b : Bit} (h : b.slotBelow 0) : Reads f table slots b b
  | slot {k j : Nat} {name : String} (hk : slots[k]? = some ⟨name, 0⟩) (hname : f.read name = .forward j) :
    Reads f table slots (.forward k) (.forward j)
  | step {j : Nat} {b c : Bit} (hj : table[j]? = some c) (h : Reads f table slots b c) :
    Reads f table slots b (.forward j)

/-- The signal `x` of a run stands for the bit `c` of the layout. -/
inductive Means (f : Frame) (table : Array Bit) (slots : Array ForwardSlot) : Signal → Bit → Prop
  | wire {b c : Bit} (h : Reads f table slots b c) : Means f table slots (.wire (.single b)) c
  | bundle {name : String} {b c : Bit} (h : Reads f table slots b c) :
    Means f table slots (.bundle [(name, .single b)]) c
  | literal {value : Nat} (h : value ≤ 1) : Means f table slots (.literal value) (.const (value.testBit 0))
  | blackBox : Means f table slots .blackBox (.const false)
  | forward {name : String} {j : Nat} (hname : f.read name = .forward j) :
    Means f table slots (.forward name) (.forward j)
  | step {j : Nat} {x : Signal} {c : Bit} (hj : table[j]? = some c) (h : Means f table slots x c) :
    Means f table slots x (.forward j)

/-- What a name stands for once it is assigned. -/
def Frame.direct (f : Frame) (table : Array Bit) (name : String) : Bit :=
  match f.read name with
  | .forward j => table.getD j (.const false)
  | b => b

theorem direct_of_read {name : String} {j : Nat} (hread : f.read name = .forward j)
    (hj : table[j]? = some b) :
    f.direct table name = b := by
  rw [Frame.direct, hread]
  exact Array.getD_eq_getD_getElem?.trans (by rw [hj]; rfl)

/-- The bindings of a scope stand for what the layout gives to their names. -/
def BoundTo (f : Frame) (table : Array Bit) (slots : Array ForwardSlot) (scope : Scope Signal) : Prop :=
  ∀ e ∈ scope.newestFirst, Means f table slots e.2 (f.direct table e.1)

theorem Reads.mono (hle : ∀ (k : Nat) x, slots[k]? = some x → slots'[k]? = some x)
    (h : Reads f table slots b c) :
    Reads f table slots' b c := by
  induction h with
  | same h => exact .same h
  | slot hk hname => exact .slot (hle _ _ hk) hname
  | step hj _ ih => exact .step hj ih

theorem Means.mono (hle : ∀ (k : Nat) x, slots[k]? = some x → slots'[k]? = some x)
    (h : Means f table slots x c) :
    Means f table slots' x c := by
  induction h with
  | wire h => exact .wire (h.mono hle)
  | bundle h => exact .bundle (h.mono hle)
  | literal h => exact .literal h
  | blackBox => exact .blackBox
  | forward hname => exact .forward hname
  | step hj _ ih => exact .step hj ih

/-- A bit of a run names no slot that is not open. -/
theorem Reads.slotBelow (h : Reads f table slots b c) : b.slotBelow slots.size := by
  induction h with
  | @same b h =>
    cases b with
    | forward k => exact absurd h (not_slotBelow_zero k)
    | _ => rfl
  | slot hk _ => exact decide_eq_true (Array.getElem?_eq_some_iff.1 hk).1
  | step _ _ ih => exact ih

/-- A bit that is no name is the same in a run. -/
theorem Reads.eq_of_below (h : Reads f table slots b c) (hc : c.slotBelow 0) : b = c := by
  cases h with
  | same => rfl
  | slot => exact absurd hc (not_slotBelow_zero _)
  | step => exact absurd hc (not_slotBelow_zero _)

/-- A signal that is no name that is read early is a bit. -/
theorem Means.reads_bit (h : Means f table slots x c) (hx : ∀ name, x ≠ .forward name) :
    Reads f table slots (x.bitOrZero 0) c := by
  induction h with
  | wire h => exact h
  | bundle h => exact h
  | literal _ => exact .same rfl
  | blackBox => exact .same rfl
  | forward _ => exact absurd rfl (hx _)
  | step hj _ ih => exact .step hj (ih hx)

/-- A name stands for what its binding stands for. -/
theorem Means.binding {name : String} (h : Means f table slots (.forward name) c)
    (htable : ∀ j, f.read name = .forward j → j < table.size)
      (hy : Means f table slots y (f.direct table name)) :
    Means f table slots y c := by
  generalize hx : Signal.forward name = x at h
  induction h with
  | @forward name' j hname =>
    obtain rfl := Signal.forward.inj hx
    have hlt := htable j hname
    have hj := Array.getElem?_eq_getElem hlt
    exact .step hj (direct_of_read hname hj ▸ hy)
  | step hj _ ih => exact .step hj (ih hx)
  | _ => cases hx

theorem BoundTo.lookup {scope : Scope Signal} (h : BoundTo f table slots scope) {name : String}
    (hx : scope.lookup name = some x) : Means f table slots x (f.direct table name) :=
  h (name, x) (Scope.mem_of_lookup hx)

theorem BoundTo.without {scope : Scope Signal} (h : BoundTo f table slots scope) (name : String) :
    BoundTo f table slots (scope.without name) := fun e he => h e (List.mem_filter.1 he).1

/-- The numbers of names are places of the table. -/
def Numbered (f : Frame) (table : Array Bit) : Prop := ∀ name j, f.read name = .forward j → j < table.size

/-- **Following names does not change what a signal stands for.** -/
theorem means_follow (htable : Numbered f table) {scope : Scope Signal} (hscope : BoundTo f table slots scope)
    (h : Means f table slots x c) : Means f table slots (follow scope x) c := by
  obtain ⟨n, hn⟩ : ∃ n, n = scope.newestFirst.length := ⟨_, rfl⟩
  -- the scope loses a name with every step
  induction n using Nat.strong_induction_on generalizing scope x with
  | _ n ih =>
    by_cases hx : ∃ name, x = .forward name
    · obtain ⟨name, rfl⟩ := hx
      rw [follow_forward]
      cases hy : scope.lookup name with
      | none => exact h
      | some y =>
        have hlt := Scope.length_without_lt hy
        have hmeans := h.binding (htable name) (hscope.lookup hy)
        exact ih _ (by omega) (hscope.without name) hmeans rfl
    · rw [follow, followWithin_of_ne fun name hname => hx ⟨name, hname⟩]
      exact h

/-! ## Names that are defined in terms of themselves -/

/-- What names from `seen` on stand for is such a name again. -/
def Circular (f : Frame) (table : Array Bit) (slots : Array ForwardSlot) (seen : String → Prop) : Prop :=
  ∀ name, seen name → ∃ other, seen other ∧ Means f table slots (.forward other) (f.direct table name)

/-- A chain of names that stand for each other has no end. -/
theorem Circular.not_leads {seen : String → Prop} (hseen : Circular f table slots seen) {name : String}
    (hname : seen name) (h : Means f table slots (.forward name) b) : ¬ Leads table b c := by
  intro hleads
  induction hleads generalizing name with
  | here hend =>
    cases h with
    | forward => exact not_slotBelow_zero _ hend
    | step => exact not_slotBelow_zero _ hend
  | @next k d c hk _ ih =>
    cases h with
    | forward hread =>
      obtain ⟨other, hother, hmeans⟩ := hseen name hname
      exact ih hother (direct_of_read hread hk ▸ hmeans)
    | step hj hmeans =>
      rw [hk] at hj
      cases hj
      exact ih hname hmeans

/-- A name that is read stands for a name of the body. -/
theorem Means.exists_read {name : String} (h : Means f table slots (.forward name) b) :
    ∃ j, f.read name = .forward j := by
  generalize hx : Signal.forward name = x at h
  induction h with
  | forward hread => exact ⟨_, Signal.forward.inj hx ▸ hread⟩
  | step _ _ ih => exact ih hx
  | _ => cases hx

/-- Where following a name ends with a name, it has come to one of those that it has `seen`. -/
theorem circular_of_follow {scope : Scope Signal} (hscope : BoundTo f table slots scope) {name last : String}
    {seen : String → Prop} (hname : ∃ j, f.read name = .forward j)
    (hall : ∀ other j, f.read other = .forward j → seen other ∨ (scope.lookup other).isSome)
    (hseen : ∀ other, seen other → ∃ next, (seen next ∨ next = name) ∧
      Means f table slots (.forward next) (f.direct table other))
    (h : follow scope (.forward name) = .forward last) :
    ∃ all : String → Prop, all name ∧ (∀ other, seen other → all other) ∧ Circular f table slots all := by
  obtain ⟨n, hn⟩ : ∃ n, n = scope.newestFirst.length := ⟨_, rfl⟩
  induction n using Nat.strong_induction_on generalizing scope name seen with
  | _ n ih =>
    rw [follow_forward] at h
    cases hy : scope.lookup name with
    | none =>
      -- the name was seen before, so those that were seen lead to each other
      obtain ⟨j, hread⟩ := hname
      have hagain : seen name := (hall name j hread).resolve_right (by simp [hy])
      refine ⟨seen, hagain, fun _ => id, fun other hother => ?_⟩
      obtain ⟨next, hnext, hmeans⟩ := hseen other hother
      exact ⟨next, hnext.elim id (· ▸ hagain), hmeans⟩
    | some y =>
      simp only [hy] at h
      have hlt := Scope.length_without_lt hy
      have hmeans := hscope.lookup hy
      by_cases hforward : ∃ next, y = .forward next
      · obtain ⟨next, rfl⟩ := hforward
        have hall' : ∀ other j, f.read other = .forward j →
            (seen other ∨ other = name) ∨ ((scope.without name).lookup other).isSome := by
          intro other j hread
          rw [Scope.lookup_without]
          by_cases hother : other = name
          · exact .inl (.inr hother)
          · rw [if_neg hother]
            exact (hall other j hread).imp .inl id
        have hseen' : ∀ other, seen other ∨ other = name →
            ∃ next', ((seen next' ∨ next' = name) ∨ next' = next) ∧
            Means f table slots (.forward next') (f.direct table other) := by
          rintro other (hother | rfl)
          · obtain ⟨next', hnext', hmeans'⟩ := hseen other hother
            exact ⟨next', .inl hnext', hmeans'⟩
          · exact ⟨next, .inr rfl, hmeans⟩
        obtain ⟨all, -, hkept, hcircular⟩ :=
          ih _ (hn ▸ hlt) (hscope.without name) hmeans.exists_read hall' hseen' h rfl
        exact ⟨all, hkept name (.inr rfl), fun other hother => hkept other (.inl hother), hcircular⟩
      · rw [follow, followWithin_of_ne fun next hnext => hforward ⟨next, hnext⟩] at h
        exact absurd ⟨last, h⟩ hforward

/-! ## The end of a body -/

/-- The end of a body that the layout describes: every name is bound, and every slot that is open is one of a
name. -/
structure Ended (f : Frame) (table : Array Bit) (scope : Scope Signal) (s : State) : Prop where
  base : s.slotBase = 0
  bound : BoundTo f table s.slots scope
  all : ∀ name j, f.read name = .forward j → (scope.lookup name).isSome
  slots : ∀ x ∈ s.slots, x.bit = 0 ∧ ∃ j, f.read x.name = .forward j
  numbered : Numbered f table
  below : ∀ b ∈ table, b.slotBelow table.size

variable {scope : Scope Signal} {s : State} {e : Bit}

/-- What a slot of a name stands for is what the name stands for, unless that is defined in terms of itself. -/
theorem Ended.finalBit (h : Ended f table scope s) {name : String} {j : Nat}
    (hread : f.read name = .forward j) :
    Reads f table s.slots (finalBit scope ⟨name, 0⟩) (f.direct table name) ∨
      NandHdl.finalBit scope ⟨name, 0⟩ = .const false ∧ ∀ e, ¬ Leads table (.forward j) e := by
  rw [NandHdl.finalBit]
  by_cases hlast : ∃ last, follow scope (.forward name) = .forward last
  · obtain ⟨last, hlast⟩ := hlast
    have hall : ∀ other j, f.read other = .forward j → False ∨ (scope.lookup other).isSome :=
      fun other j hother => .inr (h.all other j hother)
    obtain ⟨all, hname, -, hcircular⟩ := circular_of_follow h.bound ⟨j, hread⟩ hall (fun _ => False.elim) hlast
    rw [hlast]
    exact .inr ⟨rfl, fun e => hcircular.not_leads hname (.forward hread)⟩
  · obtain ⟨x, hx⟩ := Option.isSome_iff_exists.1 (h.all name j hread)
    have hmeans := means_follow h.numbered (h.bound.without name) (h.bound.lookup hx)
    have hfollow : follow scope (.forward name) = follow (scope.without name) x := by rw [follow_forward, hx]
    rw [hfollow] at hlast ⊢
    exact .inl (hmeans.reads_bit fun last hlast' => hlast ⟨last, hlast'⟩)

theorem directBits_of_slot {k : Nat} {x : ForwardSlot} (hk : s.slots[k]? = some x) :
    (directBits scope s)[k]? = some (finalBit scope x) := by
  rw [directBits, Array.getElem?_map, hk]
  rfl

/-- Where a chain of the layout ends, so does that of the run. -/
theorem Ended.leads_run (h : Ended f table scope s) (hleads : Leads table c e) :
    ∀ {b}, Reads f table s.slots b c → Leads (directBits scope s) b e := by
  induction hleads with
  | here hend =>
    intro b hb
    rw [hb.eq_of_below hend]
    exact .here hend
  | @next j d e hj hrest ih =>
    intro b hb
    cases hb with
    | same hb => exact absurd hb (not_slotBelow_zero j)
    | slot hk hread =>
      rcases h.finalBit hread with hfinal | ⟨-, hnone⟩
      · rw [direct_of_read hread hj] at hfinal
        exact .next (directBits_of_slot hk) (ih hfinal)
      · exact absurd (.next hj hrest) (hnone e)
    | step hj' hb =>
      rw [hj] at hj'
      cases hj'
      exact ih hb

/-- Where a chain of the run ends, so does that of the layout, or else it ends with 0. -/
theorem Ended.leads_layout (h : Ended f table scope s) (hleads : Leads (directBits scope s) b e) :
    ∀ {c}, Reads f table s.slots b c → Leads table c e ∨ e = .const false ∧ ∀ e', ¬ Leads table c e' := by
  -- one more step of the layout, for a chain that has come to the end or has none
  have hstep : ∀ {j d e}, table[j]? = some d → Leads table d e ∨ e = .const false ∧ (∀ e', ¬ Leads table d e') →
      Leads table (.forward j) e ∨ e = .const false ∧ ∀ e', ¬ Leads table (.forward j) e' := by
    intro j d e hj hd
    refine hd.imp (.next hj) fun hnone => ⟨hnone.1, fun e' he' => ?_⟩
    obtain ⟨d', hj', hd'⟩ := he'.forward
    rw [hj] at hj'
    cases hj'
    exact hnone.2 e' hd'
  induction hleads with
  | here hend =>
    intro c hb
    induction hb with
    | same => exact .inl (.here hend)
    | slot => exact absurd hend (not_slotBelow_zero _)
    | step hj _ ih => exact hstep hj (ih hend)
  | @next k d e hk hrest ih =>
    intro c hb
    generalize hforward : Bit.forward k = b at hb
    induction hb with
    | same hb => exact absurd (hforward ▸ hb) (not_slotBelow_zero k)
    | @slot k' j name hk' hread =>
      cases hforward
      rw [directBits_of_slot hk', Option.some.injEq] at hk
      have hlt := h.numbered name j hread
      rcases h.finalBit hread with hfinal | ⟨hzero, hnone⟩
      · rw [direct_of_read hread (Array.getElem?_eq_getElem hlt), hk] at hfinal
        exact hstep (Array.getElem?_eq_getElem hlt) (ih hfinal)
      · rw [← hk, hzero] at hrest
        exact .inr ⟨hrest.const, hnone⟩
    | step hj _ ih => exact hstep hj (ih hforward)

/-- What is read names no slot that is not there. -/
theorem Reads.slotBelow_layout (htable : Numbered f table) (h : Reads f table slots b c) :
    c.slotBelow table.size := by
  cases h with
  | @same b h =>
    cases b with
    | forward k => exact absurd h (not_slotBelow_zero k)
    | _ => rfl
  | slot _ hread => exact decide_eq_true (htable _ _ hread)
  | step hj _ => exact decide_eq_true (Array.getElem?_eq_some_iff.1 hj).1

theorem Ended.below_direct (h : Ended f table scope s) :
    ∀ b ∈ directBits scope s, b.slotBelow (directBits scope s).size := by
  intro b hb
  obtain ⟨⟨name, i⟩, hx, rfl⟩ := Array.mem_map.1 hb
  obtain ⟨rfl, j, hread⟩ := h.slots _ hx
  rw [directBits, Array.size_map]
  rcases h.finalBit hread with hfinal | ⟨hzero, -⟩
  · exact hfinal.slotBelow
  · rw [hzero]
    rfl

/-- **At the end of a body every bit becomes what the layout makes of it.** -/
theorem Ended.settled_eq (h : Ended f table scope s) (hb : Reads f table s.slots b c) :
    settled scope s b = endOf table c := by
  have hbelow : b.slotBelow (directBits scope s).size := by
    rw [directBits, Array.size_map]
    exact hb.slotBelow
  have hlayout := hb.slotBelow_layout h.numbered
  have hsettled : settled scope s b = endOf (directBits scope s) b := by rw [settled, endOf, h.base]
  rw [hsettled]
  by_cases hleads : ∃ e, Leads (directBits scope s) b e
  · obtain ⟨e, he⟩ := hleads
    rw [endOf_of_leads h.below_direct hbelow he]
    rcases h.leads_layout he hb with hc | ⟨hzero, hnone⟩
    · exact (endOf_of_leads h.below hlayout hc).symm
    · rw [hzero, endOf_of_not_leads h.below hlayout hnone]
  · have hnone : ∀ e, ¬ Leads table c e := fun e he => hleads ⟨e, h.leads_run he hb⟩
    rw [endOf_of_not_leads h.below hlayout hnone,
      endOf_of_not_leads h.below_direct hbelow fun e he => hleads ⟨e, he⟩]

end Reads

end Elaboration

end NandHdl
