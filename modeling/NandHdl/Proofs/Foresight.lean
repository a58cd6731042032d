import NandHdl.Proofs.Standing
import NandHdl.Proofs.WellFormed

/-!
# Elaboration with foresight

Where a name is read before it is assigned, elaboration leaves a slot, and fills
it in at the end of the body. If the bits that every name has in the end were
known beforehand, they could be taken at once.

* `Scope.Step`: one step of following names. `bitOrZero_follow`: all names on the way have the same bits.
* `passed`: the names that following a signal replaces. `passed_reaches`: if they keep their bindings, it is
  still found by following it later.
* `Foresight`: the bits that names have in the end. `Foresight.netlist`: elaboration that takes them at once.
* `Final`: what a bit of a name is in the end.
* `Foreseen`: a netlist is the one that foresight gives.
-/

namespace NandHdl

open Relation

/-! ## Following names -/

/-- One step of following names: a name that is bound gives way to its binding. -/
def Scope.Step (scope : Scope Signal) (x y : Signal) : Prop :=
  ∃ name, x = .forward name ∧ scope.lookup name = some y

/-- The names that following a signal replaces by their bindings, at most `fuel` of them. -/
def passedWithin : Nat → Scope Signal → Signal → List String
  | fuel + 1, scope, .forward name =>
    match scope.lookup name with
    | some x => name :: passedWithin fuel (scope.without name) x
    | none => []
  | _, _, _ => []

/-- The names that following a signal replaces by their bindings. -/
def passed (scope : Scope Signal) (x : Signal) : List String :=
  passedWithin scope.newestFirst.length scope x

section Following

variable {scope scope' : Scope Signal} {x y z : Signal} {name : String}

/-- A signal is a name that is read early, or something with bits of its own. -/
theorem Signal.forward_or_ne (x : Signal) : (∃ name, x = .forward name) ∨ ∀ name, x ≠ .forward name := by
  by_cases h : ∃ name, x = .forward name
  · exact .inl h
  · exact .inr fun name hname => h ⟨name, hname⟩

theorem follow_of_ne (hx : ∀ name, x ≠ .forward name) (scope : Scope Signal) : follow scope x = x :=
  followWithin_of_ne hx _ scope

theorem Scope.step_unique (scope : Scope Signal) : Relator.RightUnique scope.Step := by
  rintro x y z ⟨name, rfl, hy⟩ ⟨name', hname, hz⟩
  cases hname
  exact Option.some.inj (hy.symm.trans hz)

/-- A signal that is no name is the end of the way. -/
theorem Scope.eq_of_reaches (h : ReflTransGen scope.Step x y) (hx : ∀ name, x ≠ .forward name) : x = y := by
  rcases ReflTransGen.cases_head h with rfl | ⟨_, ⟨name, hname, -⟩, -⟩
  · rfl
  · exact absurd hname (hx name)

/-- A way that comes to a name, if at all, leaves it for the last time. -/
theorem Scope.reaches_without (h : ReflTransGen scope.Step x y) (name : String) :
    ReflTransGen (scope.without name).Step x y ∨
      ∃ z, scope.lookup name = some z ∧ ReflTransGen (scope.without name).Step z y := by
  induction h using ReflTransGen.head_induction_on with
  | refl => exact .inl .refl
  | @head x z hstep _ ih =>
    rcases ih with hz | hlater
    · obtain ⟨other, rfl, hother⟩ := hstep
      by_cases hname : other = name
      · exact .inr ⟨z, hname ▸ hother, hz⟩
      · exact .inl (.head ⟨other, rfl, by rw [lookup_without, if_neg hname, hother]⟩ hz)
    · exact .inr hlater

/-- A signal that is no name is found by following whatever leads to it. -/
theorem follow_of_reaches (h : ReflTransGen scope.Step x y) (hy : ∀ name, y ≠ .forward name) :
    follow scope x = y := by
  obtain ⟨n, hn⟩ : ∃ n, n = scope.newestFirst.length := ⟨_, rfl⟩
  -- the scope loses a name with every step
  induction n using Nat.strong_induction_on generalizing scope x with
  | _ n ih =>
    rcases x.forward_or_ne with ⟨name, rfl⟩ | hne
    · obtain ⟨z, hz, hreaches⟩ :
          ∃ z, scope.lookup name = some z ∧ ReflTransGen (scope.without name).Step z y := by
        refine (Scope.reaches_without h name).resolve_left fun hstay => ?_
        -- without its binding the name leads nowhere
        rcases ReflTransGen.cases_head hstay with rfl | ⟨_, ⟨other, hother, hbound⟩, -⟩
        · exact hy name rfl
        · cases hother
          rw [Scope.lookup_without, if_pos rfl] at hbound
          cases hbound
      have hlt := Scope.length_without_lt hz
      rw [follow_forward, hz]
      exact ih _ (by omega) hreaches rfl
    · rw [follow_of_ne hne]
      exact Scope.eq_of_reaches h hne

theorem isSome_of_passed {fuel : Nat} : ∀ {scope : Scope Signal} {x : Signal},
    name ∈ passedWithin fuel scope x → (scope.lookup name).isSome := by
  induction fuel with
  | zero => exact fun h => nomatch h
  | succ fuel ih =>
    intro scope x h
    cases x with
    | forward other =>
      cases hother : scope.lookup other with
      | none => simp [passedWithin, hother] at h
      | some y =>
        simp only [passedWithin, hother] at h
        rcases List.mem_cons.1 h with rfl | h
        · simp [hother]
        · have hbound := ih h
          rw [Scope.lookup_without] at hbound
          split at hbound
          · cases hbound
          · exact hbound
    | _ => cases h

/-- **If the names that following a signal replaces keep their bindings**, what is found leads on from it
later, too. -/
theorem passed_reaches (h : ∀ name ∈ passed scope x, scope'.lookup name = scope.lookup name) :
    ReflTransGen scope'.Step x (follow scope x) := by
  rw [passed] at h
  rw [follow]
  generalize scope.newestFirst.length = fuel at h
  induction fuel generalizing scope x with
  | zero => exact .refl
  | succ fuel ih =>
    cases x with
    | forward name =>
      cases hname : scope.lookup name with
      | none => simpa only [followWithin, hname] using .refl
      | some y =>
        simp only [passedWithin, hname, List.forall_mem_cons] at h
        simp only [followWithin, hname]
        refine .head ⟨name, rfl, h.1⟩ (ih fun other hother => ?_)
        -- a name that is passed later is another one
        have hbound := isSome_of_passed hother
        rw [h.2 other hother]
        rw [Scope.lookup_without] at hbound ⊢
        split at hbound
        · cases hbound
        · next hne => rw [if_neg hne]
    | _ => exact .refl

theorem follow_reaches (scope : Scope Signal) (x : Signal) : ReflTransGen scope.Step x (follow scope x) :=
  passed_reaches fun _ _ => rfl

/-- **All signals on the way have the same bits.** -/
theorem bitOrZero_follow (h : ReflTransGen scope.Step x y) (i : Nat) :
    (follow scope x).bitOrZero i = (follow scope y).bitOrZero i := by
  rcases (follow scope y).forward_or_ne with ⟨name, hy⟩ | hy
  · rcases (follow scope x).forward_or_ne with ⟨name', hx⟩ | hx
    · -- names that lead in a circle, or nowhere, have no bits
      rw [hx, hy]
      rfl
    · -- the ways from `x` and from `y` are one, and its end is no name
      rcases ReflTransGen.total_of_right_unique scope.step_unique h (follow_reaches scope x) with hend | hend
      · rw [follow_of_reaches hend hx]
      · rw [← Scope.eq_of_reaches hend hx, follow_of_ne hx]
  · rw [follow_of_reaches (h.trans (follow_reaches scope y)) hy]

end Following

namespace Elaboration

/-! ## Elaboration that knows the end -/

/-- What is known beforehand: the bits that names have at the end of the body, and the names that are assigned
from here on. -/
structure Foresight where
  final : String → Nat → Bit
  coming : List String

namespace Foresight

/-- What a signal is taken for. A name that is read early is left as it is, even if it is bound by now. Only
where a name on the way from it to its present binding is assigned once more from here on, the present binding
is taken. -/
def seen (f : Foresight) (scope : Scope Signal) (x : Signal) : Signal :=
  if (passed scope x).any (· ∈ f.coming) then follow scope x else x

/-- The bits of a signal, 0 where it has none. A name that is read early has the bits that it has at the end. -/
def bits (f : Foresight) (scope : Scope Signal) (x : Signal) : Nat → Bit :=
  match f.seen scope x with
  | .forward name => f.final name
  | y => y.bitOrZero

theorem bits_of_forward {f : Foresight} {scope : Scope Signal} {x : Signal} {name : String}
    (h : f.seen scope x = .forward name) : f.bits scope x = f.final name := by
  rw [bits, h]

theorem bits_of_ne {f : Foresight} {scope : Scope Signal} {x : Signal}
    (h : ∀ name, f.seen scope x ≠ .forward name) : f.bits scope x = (f.seen scope x).bitOrZero := by
  rw [bits]
  cases hx : f.seen scope x with
  | forward name => exact absurd hx (h name)
  | _ => rfl

/-- The wire that a signal is where `want` bits are asked for, if any number is. -/
def wire (f : Foresight) (scope : Scope Signal) (x : Signal) (want : Option Nat) : Wire :=
  .ofFn ((knownWidth scope x).getD (want.getD (follow scope x).naturalWidth)) (f.bits scope x)

/-- NAND gates for two operands, as wide as `Elaboration.nand` makes them. -/
def nand (f : Foresight) (scope : Scope Signal) (want : Option Nat) (x y : Signal) : Build Signal := do
  let width ← match knownWidth scope x, knownWidth scope y with
    | some w, some v => if w = v then pure w else throw (.widthMismatch "nand" w v)
    | some w, none => pure w
    | none, some v => pure v
    | none, none => pure (want.getD (max x.naturalWidth y.naturalWidth))
  return .wire (← place .nand (.ofFn width (f.bits scope x)) (.ofFn width (f.bits scope y)))

/-- A clock for data of a width: one bit, which all of them share, or as many. -/
def clock (f : Foresight) (scope : Scope Signal) (width : Nat) (clk : Signal) : Build Wire :=
  match knownWidth scope clk with
  | none | some 1 => return .ofFn width fun _ => f.bits scope clk 0
  | some w => if w = width then return .ofFn width (f.bits scope clk) else throw (.widthMismatch "dff" width w)

/-- Flip-flops for data and a clock, as wide as `Elaboration.dff` makes them. -/
def dff (f : Foresight) (scope : Scope Signal) (want : Option Nat) (d clk : Signal) : Build Signal := do
  let width := (knownWidth scope d).getD (want.getD d.naturalWidth)
  let clk ← f.clock scope width clk
  return .wire (← place .dff (.ofFn width (f.bits scope d)) clk)

mutual

/-- What an expression stands for where `want` bits are asked for, if any number is. -/
def expr (f : Foresight) (b : Body) (scope : Scope Signal) (want : Option Nat) : Expr → Build Signal
  | .identifier name => nameSignal b scope name
  | .number value => return .literal value
  | .call "nand" args =>
    match args with
    | [x, y] => do
      let x ← expr f b scope want x
      let y ← expr f b scope want y
      nand f scope want x y
    | args => throw (.arity "nand" 2 args.length)
  | .call "dff" args =>
    match args with
    | [d, clk] => do
      let d ← expr f b scope want d
      let clk ← expr f b scope (some 1) clk
      dff f scope want d clk
    | args => throw (.arity "dff" 2 args.length)
  | .call name args =>
    match b.callee? name with
    | none => do
      note (.undefinedModule name b.module.name)
      return .blackBox
    | some callee => do
      checkArity name callee.inputs.length args.length
      let wires ← arguments f b scope callee.inputs args
      return .bundle (← callee.instantiate b.chain wires)
  | .member object name => do field scope object (← expr f b scope none object) name
  | .select object range => do
    let x ← expr f b scope none object
    return .wire (.ofFn range.width fun i => f.bits scope x (range.lo + i))

/-- Arguments, each fitted to its port. -/
def arguments (f : Foresight) (b : Body) (scope : Scope Signal) : List Port → List Expr → Build (List Wire)
  | p :: ps, a :: as => do
    let x ← expr f b scope (some p.width) a
    return .ofFn p.width (f.bits scope x) :: (← arguments f b scope ps as)
  | _, _ => return []

end

/-- The wire that a name is before some of its bits are replaced. -/
def current (f : Foresight) (scope : Scope Signal) (name : String) (least : Nat) : Wire :=
  match scope.lookup name with
  | some x => f.wire scope x (some least)
  | none => .zeros least

/-- The scope after a statement. -/
def assign (f : Foresight) (b : Body) (scope : Scope Signal) (st : Statement) : Build (Scope Signal) := do
  let name := st.target.name
  let declared := (b.module.output? name).map Port.width
  match st.target.range with
  | none => return scope.bind name (← expr f b scope declared st.expr)
  | some r =>
    let x ← expr f b scope (some r.width) st.expr
    let current := f.current scope name (declared.getD (r.hi + 1))
    let current := current.fit (max current.width (r.hi + 1))
    return scope.bind name (.wire (current.splice r.lo (.ofFn r.width (f.bits scope x))))

/-- The scope after a list of statements. -/
def assignAll (final : String → Nat → Bit) (b : Body) :
    Scope Signal → List Statement → Build (Scope Signal)
  | scope, [] => return scope
  | scope, st :: sts => do
    assignAll final b (← assign ⟨final, (st :: sts).map (·.target.name)⟩ b scope st) sts

/-- The wire of an output. -/
def output (f : Foresight) (scope : Scope Signal) (p : Port) : Wire :=
  match scope.lookup p.name with
  | some x => .ofFn p.width (f.bits scope x)
  | none => .zeros p.width

/-- The wires that a binding names. -/
def named (f : Foresight) (scope : Scope Signal) (name : String) (x : Signal) : List (String × Wire) :=
  match follow scope x with
  | .bundle [(_, w)] => [(name, w)]
  | .bundle fields => fields.map fun g => (name ++ "." ++ g.1, g.2)
  | _ => [(name, f.wire scope x none)]

/-- The netlist of a module whose names have the bits `final` at the end of its body. -/
def netlist (final : String → Nat → Bit) (earlier : List Callee) (m : Module) : Build Netlist := do
  let wires := inputWires 0 m.inputs
  let b : Body := ⟨m, [m.name], visibleFrom earlier m⟩
  let scope ← assignAll final b (argumentScope .empty m.inputs wires) m.statements
  -- nothing is assigned any more
  let f : Foresight := ⟨final, []⟩
  let inputs := (m.inputs.map Port.name).zip wires
  let locals := scope.latest.flatMap fun e => f.named scope e.1 e.2
  let outputs := m.outputs.map fun p => (p.name, f.output scope p)
  return {
    name := m.name
    inputs := m.inputs
    outputs := m.outputs.zip (outputs.map Prod.snd)
    nodes := (← get).nodes
    signals := ((NameTable.empty.insertAll inputs).insertAll locals).insertAll outputs }

end Foresight

/-- **Bit `i` of a name is `c` at the end of a body.** It is a bit of the last binding of the name, 0 past its
width; or what a bit is that was read early and is found there; or, where the name is bound to one that was
read early, the same bit of that name. -/
inductive Final (scope : Scope Signal) (slots : Array ForwardSlot) : String → Nat → Bit → Prop
  | bit {name : String} {i : Nat} {x : Signal} {c : Bit} (hx : scope.lookup name = some x)
    (hne : ∀ next, x ≠ .forward next) (hc : x.bitOrZero i = c) (hend : c.slotBelow 0) :
    Final scope slots name i c
  | slot {name next : String} {i j k : Nat} {x : Signal} {c : Bit} (hx : scope.lookup name = some x)
    (hne : ∀ next, x ≠ .forward next) (hc : x.bitOrZero i = .forward k) (hk : slots[k]? = some ⟨next, j⟩)
    (h : Final scope slots next j c) : Final scope slots name i c
  | name {name next : String} {i : Nat} {c : Bit} (hx : scope.lookup name = some (.forward next))
    (h : Final scope slots next i c) : Final scope slots name i c

/-- The bits that names have at the end of a body. A bit that is defined only in terms of itself is 0. -/
structure Finals (scope : Scope Signal) (slots : Array ForwardSlot) (final : String → Nat → Bit) : Prop where
  ends : ∀ name i c, Final scope slots name i c → final name i = c
  endless : ∀ name i, (∀ c, ¬ Final scope slots name i c) → final name i = .const false

/-- **The netlist is the one that foresight gives.** Elaboration of the body ends in the state `s` with the
bindings `scope`, and taking the bits that the names have there at once, wherever they are read early, gives
the same nodes, outputs and named wires. -/
def Foreseen (earlier : List Callee) (m : Module) (first : Nat) (n : Netlist) : Prop :=
  ∃ scope inst s final t,
    Gives (openBody ⟨m, [m.name], visibleFrom earlier m⟩ (inputWires 0 m.inputs))
      (State.outermost first m).inner (scope, inst) s ∧
    Finals scope s.slots final ∧
    Gives (Foresight.netlist final earlier m) (State.initial first) n t

end Elaboration

end NandHdl
