import NandHdl.Netlist
import NandHdl.Scope

/-!
# Signals

The values that names have while a body is elaborated. Only a wire has a fixed
width; the others adapt to the width their use asks for.

* `follow`: replaces a name that is read early by its present binding.
* `follow_forward`: one step of it.
* `knownWidth`, `naturalWidth`: the width a signal insists on, and the one it
  takes where nothing else is asked for.
-/

namespace NandHdl

/-- The value of an expression. -/
inductive Signal
  | wire (w : Wire)
  /-- The outputs of an instance. -/
  | bundle (fields : List (String × Wire))
  | literal (value : Nat)
  /-- What an undefined name or module gives: always 0. -/
  | blackBox
  /-- A name that a later statement assigns. -/
  | forward (name : String)
deriving DecidableEq, Repr

/-- The number of binary digits of a value, at least one. -/
def bitLength (value : Nat) : Nat := if value = 0 then 1 else value.log2 + 1

namespace Signal

/-- The wire that a signal is: itself, or the only output of an instance. -/
def wire? : Signal → Option Wire
  | wire w => some w
  | bundle [(_, w)] => some w
  | _ => none

/-- A bit of the signal, 0 where it has none. -/
def bitOrZero (s : Signal) (i : Nat) : Bit :=
  match s with
  | literal value => .const (value.testBit i)
  | s => match s.wire? with
    | some w => w.bitOrZero i
    | none => .const false

/-- The width of a signal where nothing asks for one. -/
def naturalWidth : Signal → Nat
  | literal value => bitLength value
  | _ => 1

end Signal

/-- Replaces names read early by their bindings, at most `fuel` times and no name twice. -/
def followWithin : Nat → Scope Signal → Signal → Signal
  | fuel + 1, scope, .forward name =>
    match scope.lookup name with
    | some s => followWithin fuel (scope.without name) s
    | none => .forward name
  | _, _, s => s

/-- Replaces a name read early by its binding, for as long as that is such a name again and a new one. -/
def follow (scope : Scope Signal) (s : Signal) : Signal :=
  followWithin scope.newestFirst.length scope s

/-- The width a signal insists on, if it does. -/
def knownWidth (scope : Scope Signal) (s : Signal) : Option Nat :=
  (follow scope s).wire?.map Wire.width

/-- More fuel than bindings changes nothing. -/
theorem followWithin_eq {fuel : Nat} {scope : Scope Signal} (h : scope.newestFirst.length ≤ fuel)
    (s : Signal) : followWithin fuel scope s = follow scope s := by
  induction fuel using Nat.strongRecOn generalizing scope s with
  | _ fuel ih =>
    unfold follow
    cases s with
    | forward name =>
      cases hl : scope.lookup name with
      | none => cases fuel <;> cases scope.newestFirst.length <;> simp [followWithin, hl]
      | some t =>
        have hlt := Scope.length_without_lt hl
        obtain ⟨n, rfl⟩ : ∃ n, fuel = n + 1 := ⟨fuel - 1, by omega⟩
        obtain ⟨k, hk⟩ : ∃ k, scope.newestFirst.length = k + 1 :=
          ⟨scope.newestFirst.length - 1, by omega⟩
        rw [hk]
        simp only [followWithin, hl]
        rw [ih n (Nat.lt_succ_self n) (by omega) t]
        rcases Nat.lt_or_ge k (n + 1) with hk' | hk'
        · rw [ih k hk' (by omega) t]
        · omega
    | wire w => cases fuel <;> cases scope.newestFirst.length <;> simp [followWithin]
    | bundle f => cases fuel <;> cases scope.newestFirst.length <;> simp [followWithin]
    | literal v => cases fuel <;> cases scope.newestFirst.length <;> simp [followWithin]
    | blackBox => cases fuel <;> cases scope.newestFirst.length <;> simp [followWithin]

/-- One step: a bound name gives way to its binding, in the scope without that name. -/
theorem follow_forward (scope : Scope Signal) (name : String) :
    follow scope (.forward name) =
      match scope.lookup name with
      | some s => follow (scope.without name) s
      | none => .forward name := by
  cases hl : scope.lookup name with
  | none =>
    unfold follow
    cases scope.newestFirst.length <;> simp [followWithin, hl]
  | some s =>
    have hlt := Scope.length_without_lt hl
    obtain ⟨k, hk⟩ : ∃ k, scope.newestFirst.length = k + 1 :=
      ⟨scope.newestFirst.length - 1, by omega⟩
    rw [follow, hk]
    simp only [followWithin, hl]
    exact followWithin_eq (by omega) s

end NandHdl
