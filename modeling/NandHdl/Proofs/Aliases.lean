import NandHdl.Proofs.Foresight
import NandHdl.Proofs.Zeroing

/-!
# Names for other names

A name that was assigned another one, before that had a value, stands for the other name from then on. To read
it, or the other name itself once that has a value, makes no difference to where following leads.

* `Alias`: a name, the other one, and what that stands for.
* `follow_signal`: **following names leads to the same end**, wherever the value stands in place of the name.
* `Alias.Like`, `Alias.Scopes`: signals and scopes that differ at most in that.
* `Alias.Same`: the ends of two ways that are alike. `Scopes.follow`: they are the same, or names of one root.
* `Scopes.finalBit_eq`: a slot stands for the same bit in both scopes.
-/

namespace NandHdl

open Relation

/-- A bound name gives way to its binding. -/
theorem follow_of_lookup {scope : Scope Signal} {name : String} {x : Signal} (h : scope.lookup name = some x) :
    follow scope (.forward name) = follow (scope.without name) x := by
  rw [follow_forward, h]

/-- A name `old` that stands for the name `name`, and the value that this one has. Where nothing is to be replaced,
the value is the name itself. -/
structure Alias where
  old : String
  name : String
  value : Signal

namespace Alias

/-- A name for itself. -/
def self (name : String) : Alias := ⟨name, name, .forward name⟩

/-- The signal with the value in place of the name. -/
def signal (a : Alias) (x : Signal) : Signal := if x = .forward a.name then a.value else x

/-- The name that takes the place of a name, if a name does. -/
def root (a : Alias) (name : String) : String :=
  match a.signal (.forward name) with
  | .forward other => other
  | _ => name

/-- The slot under the name that takes the place of its name. -/
def slot (a : Alias) (s : ForwardSlot) : ForwardSlot := ⟨a.root s.name, s.bit⟩

/-- The name has the value, unless nothing is to be replaced. -/
def Bound (a : Alias) (scope : Scope Signal) : Prop :=
  a.value = .forward a.name ∨ scope.lookup a.name = some a.value

variable {a : Alias} {scope scope' : Scope Signal} {x y : Signal}

theorem signal_name (a : Alias) : a.signal (.forward a.name) = a.value := if_pos rfl

theorem signal_of_ne (h : x ≠ .forward a.name) : a.signal x = x := if_neg h

theorem signal_forward_of_ne {name : String} (h : name ≠ a.name) : a.signal (.forward name) = .forward name :=
  signal_of_ne fun heq => h (Signal.forward.inj heq)

/-- Nothing changes where the value is the name. -/
theorem signal_of_value (h : a.value = .forward a.name) (x : Signal) : a.signal x = x := by
  by_cases hx : x = .forward a.name
  · rw [hx, signal_name, h]
  · exact signal_of_ne hx

theorem map_signal_of_value (h : a.value = .forward a.name) (scope : Scope Signal) :
    scope.map a.signal = scope := by
  obtain ⟨bs⟩ := scope
  refine congrArg Scope.mk (Eq.trans (List.map_congr_left fun e _ => ?_) (List.map_id' bs))
  exact Prod.ext rfl (signal_of_value h e.2)

theorem root_of_value (h : a.value = .forward a.name) (name : String) : a.root name = name := by
  rw [root, signal_of_value h]

theorem slot_of_value (h : a.value = .forward a.name) (s : ForwardSlot) : a.slot s = s := by
  rw [slot, root_of_value h]

theorem root_of_ne {name : String} (h : name ≠ a.name) : a.root name = name := by
  rw [root, signal_forward_of_ne h]

/-! ## Following names -/

/-- Where the name is replaced by another one, and neither is bound, following comes to the other one wherever
it came to the name. -/
theorem follow_unbound {other : String} (hvalue : a.value = .forward other) (hname : scope.lookup a.name = none)
    (hother : scope.lookup other = none)
    (h : ∀ n, n ≠ a.name → scope'.lookup n = (scope.lookup n).map a.signal) (hne : other ≠ a.name) (x : Signal) :
    follow scope' (a.signal x) = a.signal (follow scope x) := by
  obtain ⟨n, hn⟩ : ∃ n, n = scope.newestFirst.length := ⟨_, rfl⟩
  -- the scopes lose a name with every step
  induction n using Nat.strong_induction_on generalizing scope scope' x with
  | _ n ih =>
    rcases x.forward_or_ne with ⟨name, rfl⟩ | hx
    · by_cases heq : name = a.name
      · have hend : follow scope (.forward name) = .forward name := by rw [follow_forward, heq, hname]
        rw [hend, heq, signal_name, hvalue, follow_forward, h other hne, hother]
        rfl
      · rw [signal_forward_of_ne heq, follow_forward, follow_forward, h name heq]
        cases hy : scope.lookup name with
        | none => exact (signal_forward_of_ne heq).symm
        | some y =>
          have hlt := Scope.length_without_lt hy
          refine ih _ (hn ▸ hlt) ?_ ?_ (fun n hn => ?_) y rfl
          · rw [Scope.lookup_without, hname, ite_self]
          · rw [Scope.lookup_without, hother, ite_self]
          · rw [Scope.lookup_without, Scope.lookup_without, h n hn]
            split <;> rfl
    · have hsignal : a.signal x = x := signal_of_ne (hx a.name)
      rw [follow_of_ne hx, hsignal, follow_of_ne hx]

/-- The way on from the name is the same as the way on from its value. -/
theorem follow_value (hbound : scope.lookup a.name = some a.value) :
    follow (scope.map a.signal) a.value = a.signal (follow (scope.without a.name) a.value) := by
  rcases a.value.forward_or_ne with ⟨other, hvalue⟩ | hne
  · by_cases hother : other = a.name
    · -- the name stands for itself
      have hself : a.value = .forward a.name := hother ▸ hvalue
      rw [map_signal_of_value hself, signal_of_value hself, hself, follow_of_lookup hbound, hself]
    · -- it stands for another one, after which neither of them is bound any more
      have hrest : (scope.without a.name).lookup other = scope.lookup other := by
        rw [Scope.lookup_without, if_neg hother]
      rw [hvalue, follow_forward, follow_forward (scope.without a.name), hrest, Scope.lookup_map]
      cases hy : scope.lookup other with
      | none => exact (signal_forward_of_ne hother).symm
      | some y =>
        refine follow_unbound hvalue ?_ ?_ (fun n hn => ?_) hother y
        · rw [Scope.lookup_without, Scope.lookup_without, if_pos rfl, ite_self]
        · rw [Scope.lookup_without, if_pos rfl]
        · rw [Scope.lookup_without, Scope.lookup_without, Scope.lookup_without, Scope.lookup_map, if_neg hn]
          split <;> rfl
  · rw [follow_of_ne hne, follow_of_ne hne, signal_of_ne (hne a.name)]

/-- **Following names leads to the same end** with the value of the name in its place everywhere. -/
theorem follow_signal (h : a.Bound scope) (x : Signal) :
    follow (scope.map a.signal) (a.signal x) = a.signal (follow scope x) := by
  rcases h with hvalue | hbound
  · rw [map_signal_of_value hvalue, signal_of_value hvalue, signal_of_value hvalue]
  obtain ⟨n, hn⟩ : ∃ n, n = scope.newestFirst.length := ⟨_, rfl⟩
  induction n using Nat.strong_induction_on generalizing scope x with
  | _ n ih =>
    rcases x.forward_or_ne with ⟨name, rfl⟩ | hx
    · by_cases heq : name = a.name
      · rw [heq, signal_name, follow_of_lookup hbound, follow_value hbound]
      · rw [signal_forward_of_ne heq]
        cases hy : scope.lookup name with
        | none =>
          rw [follow_forward, follow_forward, Scope.lookup_map, hy]
          exact (signal_forward_of_ne heq).symm
        | some y =>
          have hlt := Scope.length_without_lt hy
          have hmap : (scope.map a.signal).lookup name = some (a.signal y) := by rw [Scope.lookup_map, hy]; rfl
          have hkept : (scope.without name).lookup a.name = some a.value := by
            rw [Scope.lookup_without, if_neg fun heq' => heq heq'.symm, hbound]
          rw [follow_of_lookup hmap, follow_of_lookup hy, Scope.without_map]
          exact ih _ (hn ▸ hlt) y hkept rfl
    · have hsignal : a.signal x = x := signal_of_ne (hx a.name)
      rw [follow_of_ne hx, hsignal, follow_of_ne hx]

/-- What has a value of its own is not what following leads to. -/
theorem follow_ne_name (hbound : scope.lookup a.name = some a.value) (hvalue : ∀ name, a.value ≠ .forward name)
    (x : Signal) : follow scope x ≠ .forward a.name := by
  intro h
  have hreaches : ReflTransGen scope.Step x a.value := (h ▸ follow_reaches scope x).tail ⟨a.name, rfl, hbound⟩
  exact hvalue a.name ((follow_of_reaches hreaches hvalue).symm.trans h)

/-! ## Signals and scopes -/

/-- The signals are the same, or the first is the name and the second its value. -/
structure Like (a : Alias) (x y : Signal) : Prop where
  same : a.signal x = a.signal y
  early : x = y ∨ x = .forward a.name

/-- Every name stands for what is alike in both scopes, and what `old` stands for in the first is like what the name
stands for in the second. -/
structure Scopes (a : Alias) (scope scope' : Scope Signal) : Prop where
  same : scope.map a.signal = scope'.map a.signal
  early : ∀ name, scope.lookup name = scope'.lookup name ∨ scope.lookup name = some (.forward a.name)
  bound : a.Bound scope
  read : a.old = a.name ∨ ∃ x y, scope.lookup a.old = some x ∧ scope'.lookup a.name = some y ∧ a.Like x y

/-- To assign the name changes neither what the alias stands for nor its value. -/
def Spares (a : Alias) (name : String) : Prop :=
  a.old = a.name ∧ a.value = .forward a.name ∨ name ≠ a.old ∧ name ≠ a.name

/-- The signals that following leads to are the same, or names with the same root. -/
inductive Same (a : Alias) : Signal → Signal → Prop
  | refl (x : Signal) : Same a x x
  | forward {name name' : String} (h : a.root name = a.root name') : Same a (.forward name) (.forward name')

theorem Like.refl (x : Signal) : a.Like x x := ⟨rfl, .inl rfl⟩

theorem Like.eq_of_value (h : a.Like x y) (hvalue : a.value = .forward a.name) : x = y := by
  have hsame := h.same
  rwa [signal_of_value hvalue, signal_of_value hvalue] at hsame

theorem Scopes.refl (hbound : a.Bound scope)
    (hread : a.old = a.name ∨ ∃ x y, scope.lookup a.old = some x ∧ scope.lookup a.name = some y ∧ a.Like x y) :
    a.Scopes scope scope := ⟨rfl, fun _ => .inl rfl, hbound, hread⟩

/-- For a name that stands for itself there are no two scopes. -/
theorem Scopes.eq_of_self {name : String} (h : (self name).Scopes scope scope') : scope = scope' := by
  have hsame := h.same
  rwa [map_signal_of_value rfl, map_signal_of_value rfl] at hsame

theorem Scopes.bound' (h : a.Scopes scope scope') : a.Bound scope' := by
  rcases h.bound with hvalue | hbound
  · exact .inl hvalue
  · rcases h.early a.name with heq | hself
    · exact .inr (heq ▸ hbound)
    · exact .inl (Option.some.inj (hbound.symm.trans hself))

/-- A name is bound in both scopes, or in none. -/
theorem Scopes.lookup (h : a.Scopes scope scope') (name : String) :
    (scope.lookup name = none ∧ scope'.lookup name = none) ∨
      ∃ x y, scope.lookup name = some x ∧ scope'.lookup name = some y ∧ a.Like x y := by
  have hsame : (scope.lookup name).map a.signal = (scope'.lookup name).map a.signal := by
    rw [← Scope.lookup_map, ← Scope.lookup_map, h.same]
  have hearly := h.early name
  cases hx : scope.lookup name with
  | none =>
    rw [hx] at hsame
    exact .inl ⟨rfl, Option.map_eq_none_iff.1 hsame.symm⟩
  | some x =>
    rw [hx] at hsame hearly
    obtain ⟨y, hy, hxy⟩ := Option.map_eq_some_iff.1 hsame.symm
    rw [hy, Option.some.injEq, Option.some.injEq] at hearly
    exact .inr ⟨x, y, rfl, hy, hxy.symm, hearly⟩

theorem Scopes.bind {name : String} (h : a.Scopes scope scope') (hname : a.Spares name) (hxy : a.Like x y) :
    a.Scopes (scope.bind name x) (scope'.bind name y) where
  same := by rw [Scope.map_bind, Scope.map_bind, h.same, hxy.same]
  early other := by
    rw [Scope.lookup_bind, Scope.lookup_bind]
    split
    · exact hxy.early.imp (congrArg some) (congrArg some)
    · exact h.early other
  bound := by
    rcases hname with ⟨-, hvalue⟩ | ⟨-, hne⟩
    · exact .inl hvalue
    · rw [Bound, Scope.lookup_bind, if_neg hne]
      exact h.bound
  read := by
    rcases hname with ⟨hself, -⟩ | ⟨hold, hne⟩
    · exact .inl hself
    · rw [Scope.lookup_bind, Scope.lookup_bind, if_neg hold, if_neg hne]
      exact h.read

/-! ## The ends of ways -/

theorem Scopes.signal_follow (h : a.Scopes scope scope') (hxy : a.signal x = a.signal y) :
    a.signal (NandHdl.follow scope x) = a.signal (NandHdl.follow scope' y) := by
  rw [← follow_signal h.bound, ← follow_signal h.bound', h.same, hxy]

/-- **In scopes that are alike, following leads to the same end.** -/
theorem Scopes.follow (h : a.Scopes scope scope') (hxy : a.signal x = a.signal y) :
    a.Same (follow scope x) (follow scope' y) := by
  have hends := h.signal_follow hxy
  -- an end that is a name may be the one with the value, if that is a name, too
  have hname : ∀ {s : Scope Signal} {z : Signal} {n : String}, a.Bound s → NandHdl.follow s z = .forward n →
      a.signal (.forward n) = .forward (a.root n) := by
    intro s z n hs hz
    by_cases hn : n = a.name
    · rcases a.value.forward_or_ne with ⟨other, hvalue⟩ | hne
      · rw [root, hn, signal_name, hvalue]
      · rcases hs with hvalue | hbound
        · exact absurd hvalue (hne a.name)
        · exact absurd (hn ▸ hz) (follow_ne_name hbound hne z)
    · rw [root_of_ne hn, signal_forward_of_ne hn]
  rcases (NandHdl.follow scope x).forward_or_ne with ⟨n, hn⟩ | hx
  · rcases (NandHdl.follow scope' y).forward_or_ne with ⟨n', hn'⟩ | hy
    · rw [hn, hn', hname h.bound hn, hname h.bound' hn'] at hends
      rw [hn, hn']
      exact .forward (Signal.forward.inj hends)
    · rw [hn, hname h.bound hn, signal_of_ne (hy a.name)] at hends
      exact absurd hends.symm (hy _)
  · rcases (NandHdl.follow scope' y).forward_or_ne with ⟨n', hn'⟩ | hy
    · rw [hn', hname h.bound' hn', signal_of_ne (hx a.name)] at hends
      exact absurd hends (hx _)
    · rw [signal_of_ne (hx a.name), signal_of_ne (hy a.name)] at hends
      exact hends ▸ .refl _

theorem Same.wire?_eq (h : a.Same x y) : x.wire? = y.wire? := by
  cases h <;> rfl

theorem Same.bitOrZero_eq (h : a.Same x y) (i : Nat) : x.bitOrZero i = y.bitOrZero i := by
  cases h <;> rfl

theorem Scopes.knownWidth_eq (h : a.Scopes scope scope') (hxy : a.signal x = a.signal y) :
    knownWidth scope x = knownWidth scope' y := by
  rw [knownWidth, knownWidth, (h.follow hxy).wire?_eq]

/-- A slot stands for the same bit under the name that takes the place of its name. -/
theorem finalBit_slot (h : a.Bound scope) (s : ForwardSlot) : finalBit scope (a.slot s) = finalBit scope s := by
  by_cases hs : s.name = a.name
  · rcases h with hvalue | hbound
    · rw [slot_of_value hvalue]
    · rcases a.value.forward_or_ne with ⟨other, hvalue⟩ | hne
      · have hroot : a.root s.name = other := by rw [root, hs, signal_name, hvalue]
        have hstep : scope.Step (.forward s.name) (.forward other) := ⟨s.name, rfl, by rw [hs, hbound, hvalue]⟩
        rw [finalBit, finalBit, slot, hroot, bitOrZero_follow (.single hstep)]
      · have hroot : a.root s.name = s.name := by
          rw [root, hs, signal_name]
          split
          · next other hvalue => exact absurd hvalue (hne other)
          · rfl
        rw [slot, hroot]
  · rw [slot, root_of_ne hs]

/-- **A slot stands for the same bit in both scopes**, under either name. -/
theorem Scopes.finalBit_eq (h : a.Scopes scope scope') {s t : ForwardSlot} (hst : a.slot s = a.slot t) :
    finalBit scope s = finalBit scope' t := by
  rw [← finalBit_slot h.bound s, hst, ← finalBit_slot h.bound' t, finalBit, finalBit, (h.follow rfl).bitOrZero_eq]

end Alias

end NandHdl
