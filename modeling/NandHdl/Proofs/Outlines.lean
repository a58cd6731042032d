import NandHdl.Proofs.EarlyFields
import NandHdl.Proofs.Usable
import NandHdl.Proofs.WidthLimit

/-!
# Bodies in outline

Which names stand for wires, instances, numbers or other names depends neither on bits nor on widths, so it is
known before a body is elaborated.

* `Signal.outline`: a signal, its wires left blank. `follow_outline`: following names does not look at wires.
* `Expr.outline`, `outlineAll`: what expressions stand for and statements bind, in outline.
* `returns_outline_expr`, `returns_outline_assign`: **what elaboration gives has this outline.**
* `Expr.underrates`, `underratesAll`: some gate is narrower because it takes the natural width of a name that is read
  early, and not that of its value.
-/

namespace NandHdl

/-! ## Blank wires -/

/-- A wire of which nothing is known. -/
def Wire.blank : Wire := ⟨#[]⟩

namespace Signal

/-- The signal with blank wires. -/
def outline : Signal → Signal
  | wire _ => wire .blank
  | bundle fields => bundle (fields.map fun f => (f.1, .blank))
  | s => s

theorem outline_eq_forward (s : Signal) (name : String) : s.outline = forward name ↔ s = forward name := by
  cases s <;> simp [outline]

theorem naturalWidth_outline (s : Signal) : s.outline.naturalWidth = s.naturalWidth := by
  cases s <;> rfl

theorem wire?_outline (s : Signal) : s.outline.wire? = s.wire?.map fun _ => .blank := by
  cases s with
  | bundle fields =>
    match fields with
    | [] => rfl
    | [_] => rfl
    | _ :: _ :: _ => rfl
  | _ => rfl

end Signal

/-- The bindings with blank wires. -/
def Scope.outline (scope : Scope Signal) : Scope Signal := scope.map Signal.outline

theorem follow_outline (scope : Scope Signal) (x : Signal) :
    follow scope.outline x.outline = (follow scope x).outline :=
  follow_replace Signal.outline_eq_forward scope x

/-- Whether a signal insists on a width is seen in outline. -/
theorem isSome_knownWidth_outline (scope : Scope Signal) (x : Signal) :
    (knownWidth scope.outline x.outline).isSome = (knownWidth scope x).isSome := by
  rw [knownWidth, knownWidth, follow_outline, Signal.wire?_outline]
  cases (follow scope x).wire? <;> rfl

namespace Elaboration

/-! ## Bodies -/

/-- What a name stands for in the module `m`. -/
def nameOutline (m : Module) (scope : Scope Signal) (name : String) : Signal :=
  (scope.lookup name).getD (if m.assigns name then .forward name else .blackBox)

/-- An output of an instance. -/
def fieldOutline (scope : Scope Signal) (x : Signal) (field : String) : Signal :=
  match follow scope x with
  | .bundle fields => if fields.any (·.1 = field) then .wire .blank else .blackBox
  | _ => .blackBox

/-- What a call gives behind the modules `es`, the last one first: a gate is a wire, and an instance has the
outputs of its module. -/
def callOutline (es : List Module) (name : String) : Signal :=
  if isPrimitive name then .wire .blank
  else
    match es.dropWhile (·.name ≠ name) with
    | [] => .blackBox
    | d :: _ => .bundle (d.outputs.map fun p => (p.name, .blank))

end Elaboration

open Elaboration

/-- What an expression stands for in the module `m` behind the modules `es`. -/
def Expr.outline (es : List Module) (m : Module) (scope : Scope Signal) : Expr → Signal
  | identifier name => nameOutline m scope name
  | number value => .literal value
  | call name _ => callOutline es name
  | member object field => fieldOutline scope (object.outline es m scope) field
  | select _ _ => .wire .blank

/-- The bindings after a statement. -/
def Statement.outline (es : List Module) (m : Module) (scope : Scope Signal) (st : Statement) : Scope Signal :=
  scope.bind st.target.name (if st.target.range.isNone then st.expr.outline es m scope else .wire .blank)

namespace Elaboration

/-- The bindings after a list of statements. -/
def outlineAll (es : List Module) (m : Module) : Scope Signal → List Statement → Scope Signal
  | scope, [] => scope
  | scope, st :: sts => outlineAll es m (st.outline es m scope) sts

/-- The bindings of inputs. -/
def outlineInputs : Scope Signal → List Port → Scope Signal
  | scope, [] => scope
  | scope, p :: ps => outlineInputs (scope.bind p.name (.wire .blank)) ps

/-- The body of an instance of `m` behind the modules `es`, inside the open instances `outer`. -/
def bodyIn (es : List Module) (m : Module) (outer : List String) : Body :=
  ⟨m, m.name :: outer, visibleFrom (calleesOf es) m⟩

section Returns

variable {es : List Module} {m : Module} {outer : List String} {b : Body} {scope : Scope Signal}

theorem returns_outline_nameSignal (name : String) :
    Returns (nameSignal b scope name) fun x => x.outline = nameOutline b.module scope.outline name := by
  unfold nameSignal nameOutline
  rw [Scope.outline, Scope.lookup_map]
  cases scope.lookup name with
  | some x => exact .pure rfl
  | none =>
    simp only [Option.map_none, Option.getD_none]
    split
    · exact .pure rfl
    · exact .then fun _ => .pure rfl

theorem returns_outline_field (object : Expr) (x : Signal) (name : String) :
    Returns (field scope object x name) fun y => y.outline = fieldOutline scope.outline x.outline name := by
  unfold field fieldOutline
  rw [follow_outline]
  cases follow scope x with
  | bundle fields =>
    have hany : (fields.map fun f => (f.1, Wire.blank)).any (·.1 = name) = fields.any (·.1 = name) := by
      rw [List.any_map]
      rfl
    simp only [Signal.outline, hany]
    cases hf : fields.find? (·.1 = name) with
    | none =>
      have hno : fields.any (·.1 = name) = false := by simpa using List.find?_eq_none.1 hf
      rw [hno]
      exact .then fun _ => .pure rfl
    | some f =>
      have hyes : fields.any (·.1 = name) = true :=
        List.any_eq_true.2 ⟨f, List.mem_of_find?_eq_some hf, by simpa using List.find?_some hf⟩
      rw [hyes]
      exact .pure rfl
  | blackBox => exact .pure rfl
  | _ => exact .then fun _ => .pure rfl

theorem returns_outline_place (cell : Bit → Bit → Cell) (v w : Wire) :
    Returns (do return Signal.wire (← place cell v w)) fun z => z.outline = .wire .blank :=
  .then fun _ => .pure rfl

theorem returns_outline_nand (want : Option Nat) (x y : Signal) :
    Returns (nand b scope want x y) fun z => z.outline = .wire .blank := by
  have hgates : ∀ width, Returns (do
      let x ← fitted b scope x width
      let y ← fitted b scope y width
      return Signal.wire (← place .nand x y)) fun z => z.outline = .wire .blank :=
    fun width => .then fun v => .then fun w => returns_outline_place .nand v w
  unfold nand
  split
  · split
    · exact hgates _
    · exact .throw_bind
  all_goals exact hgates _

theorem returns_outline_dff (want : Option Nat) (d clk : Signal) :
    Returns (dff b scope want d clk) fun z => z.outline = .wire .blank := by
  unfold dff
  refine .then fun d' => ?_
  split
  · exact .then fun c => returns_outline_place .dff d' _
  · exact .then fun c => returns_outline_place .dff d' _
  · split
    · exact .then fun clk' => returns_outline_place .dff d' clk'
    · exact .throw_bind

/-- **An instance has the outputs of its module.** -/
theorem returns_outline_instance {es : List Module} {d : Module} {chain : List String} (hchain : chain ≠ [])
    (args : List Wire) : Returns ((Callee.ofModule (calleesOf es) d).instantiate chain args) fun outs =>
      (Signal.bundle outs).outline = .bundle (d.outputs.map fun p => (p.name, .blank)) := by
  obtain ⟨caller, chain, rfl⟩ := List.exists_cons_of_ne_nil hchain
  intro s outs s' h
  have hnames := congrArg (List.map fun name => (name, Wire.blank)) (names_instance h)
  rw [List.map_map, List.map_map] at hnames
  exact congrArg Signal.bundle hnames

theorem returns_outline_call (want : Option Nat) (name : String) (args : List Expr) :
    Returns (expr (bodyIn es m outer) scope want (.call name args)) fun x => x.outline = callOutline es name := by
  by_cases hnand : name = "nand"
  · subst hnand
    rcases args with _ | ⟨x, _ | ⟨y, _ | ⟨z, args⟩⟩⟩
    case cons.cons.nil =>
      rw [expr]
      exact .then fun _ => .then fun _ => returns_outline_nand want _ _
    all_goals
      rw [expr.eq_4 _ _ _ _ (by simp)]
      exact .throw
  · by_cases hdff : name = "dff"
    · subst hdff
      rcases args with _ | ⟨d, _ | ⟨clk, _ | ⟨z, args⟩⟩⟩
      case cons.cons.nil =>
        rw [expr]
        exact .then fun _ => .then fun _ => returns_outline_dff want _ _
      all_goals
        rw [expr.eq_6 _ _ _ _ (by simp)]
        exact .throw
    · have hprim : isPrimitive name = false := by simp [isPrimitive, hnand, hdff]
      rw [expr.eq_7 _ _ _ _ _ hnand hdff, bodyIn, callee?_visible, callOutline, hprim]
      by_cases hown : m.name = name
      · -- the module itself gives no instance
        simp only [if_pos hown]
        exact .then fun _ => .then fun _ => .throw_bind
      · simp only [if_neg hown, Bool.false_eq_true, if_false]
        cases es.dropWhile (·.name ≠ name) with
        | nil => exact .then fun _ => .pure rfl
        | cons d es' =>
          refine .then fun _ => .then fun wires => ?_
          exact (returns_outline_instance (List.cons_ne_nil _ _) wires).bind fun outs houts => .pure houts

/-- **Expressions have the outline that is known beforehand.** -/
theorem returns_outline_expr : ∀ (e : Expr) (want : Option Nat),
    Returns (expr (bodyIn es m outer) scope want e) fun x => x.outline = e.outline es m scope.outline
  | .identifier name, want => by
    rw [expr]
    exact returns_outline_nameSignal name
  | .number value, want => by
    rw [expr]
    exact .pure rfl
  | .call name args, want => returns_outline_call want name args
  | .member object name, want => by
    rw [expr]
    refine (returns_outline_expr object none).bind fun x hx => ?_
    rw [Expr.outline, ← hx]
    exact returns_outline_field object x name
  | .select object range, want => by
    rw [expr]
    exact .then fun _ => .then fun _ => .pure rfl

/-- **Statements bind what has the outline that is known beforehand.** -/
theorem returns_outline_assign (st : Statement) :
    Returns (assign (bodyIn es m outer) scope st) fun next => next.outline = st.outline es m scope.outline := by
  unfold assign Statement.outline
  cases st.target.range with
  | none =>
    refine (returns_outline_expr st.expr _).bind fun x hx => .pure ?_
    rw [Scope.outline, Scope.map_bind, hx]
    rfl
  | some r =>
    have hsplice : ∀ part current : Wire, Returns (do
        if current.width < r.lo + part.width then throw (.fault .spliceOutOfRange)
        return scope.bind st.target.name (.wire (current.splice r.lo part))) fun next =>
        next.outline = scope.outline.bind st.target.name (.wire .blank) := by
      intro part current
      split
      · exact .throw_bind
      · exact .pure rfl
    refine .then fun x => .then fun part => ?_
    split
    · exact .then fun current => hsplice part _
    · exact hsplice part _

theorem returns_outline_assignAll (sts : List Statement) : ∀ scope : Scope Signal,
    Returns (assignAll (bodyIn es m outer) scope sts) fun last =>
      last.outline = outlineAll es m scope.outline sts := by
  induction sts with
  | nil => exact fun scope => .pure rfl
  | cons st sts ih =>
    intro scope
    refine (returns_outline_assign st).bind fun next hnext => ?_
    rw [outlineAll, ← hnext]
    exact ih next

/-- A body starts with wires for its inputs. -/
theorem outline_argumentScope (ps : List Port) : ∀ {scope : Scope Signal} {args : List Wire},
    args.length = ps.length → (argumentScope scope ps args).outline = outlineInputs scope.outline ps := by
  induction ps with
  | nil => exact fun _ => rfl
  | cons p ps ih =>
    intro scope args hargs
    cases args with
    | nil => cases hargs
    | cons w args => exact ih (Nat.succ.inj hargs)

end Returns

/-! ## Natural widths -/

/-- The natural width of a signal, or that of what `name` stands for if the signal is this name read early. -/
def fullWidth (name : String) (scope : Scope Signal) (x : Signal) : Nat :=
  if x = .forward name then ((scope.lookup name).getD x).naturalWidth else x.naturalWidth

theorem naturalWidth_le_fullWidth (name : String) (scope : Scope Signal) (x : Signal) :
    x.naturalWidth ≤ fullWidth name scope x := by
  unfold fullWidth
  split
  · next h =>
    rw [h]
    exact naturalWidth_pos _
  · exact le_rfl

theorem fullWidth_outline (name : String) (scope : Scope Signal) (x : Signal) :
    fullWidth name scope.outline x.outline = fullWidth name scope x := by
  unfold fullWidth
  rw [Scope.outline, Scope.lookup_map]
  by_cases h : x = .forward name
  · rw [if_pos h, if_pos ((x.outline_eq_forward name).2 h)]
    cases scope.lookup name <;> exact Signal.naturalWidth_outline _
  · rw [if_neg h, if_neg fun h' => h ((x.outline_eq_forward name).1 h'), Signal.naturalWidth_outline]

/-- The largest of some widths. -/
def widest (widths : List Nat) : Nat := widths.foldr max 0

/-- None of the operands that decide on the width of a gate insists on one, and their natural widths make the gate
narrower than it were if `name` had that of what it stands for. -/
def gateUnderrates (name : String) (scope : Scope Signal) (operands : List Signal) : Bool :=
  operands.all (fun x => (knownWidth scope x).isNone) &&
    widest (operands.map Signal.naturalWidth) < widest (operands.map (fullWidth name scope))

/-- The operands of a call that decide on its width: both of a gate, and the data of a flip-flop. -/
def deciding (callee : String) (operands : List Signal) : List Signal :=
  if callee = "nand" then operands else if callee = "dff" then operands.take 1 else []

/-- The arguments of a call that are elaborated, and whether a width is asked for there. -/
def asks (es : List Module) (m : Module) (callee : String) (asked : Bool) (count : Nat) : List Bool :=
  if callee = "nand" then [asked, asked]
  else if callee = "dff" then [asked, true]
  else if callee ∈ definedFor es m then List.replicate count true
  else []

end Elaboration

mutual

/-- Somewhere in the expression a gate is narrower because it takes the natural width of `name` read early, and not
that of what the name stands for. A width is asked for, or not, where the expression stands. -/
def Expr.underrates (name : String) (es : List Module) (m : Module) (scope : Scope Signal) (asked : Bool) :
    Expr → Bool
  | .identifier _ => false
  | .number _ => false
  | .call callee args =>
    Expr.underratesList name es m scope (asks es m callee asked args.length) args ||
      !asked && gateUnderrates name scope (deciding callee (args.map (Expr.outline es m scope)))
  | .member object _ => object.underrates name es m scope false
  | .select object _ => object.underrates name es m scope false

@[inherit_doc Expr.underrates]
def Expr.underratesList (name : String) (es : List Module) (m : Module) (scope : Scope Signal) :
    List Bool → List Expr → Bool
  | asked :: rest, a :: as =>
    a.underrates name es m scope asked || Expr.underratesList name es m scope rest as
  | _, _ => false

end

/-- Somewhere in the statement a gate underrates `name`. -/
def Statement.underrates (name : String) (es : List Module) (m : Module) (scope : Scope Signal)
    (st : Statement) : Bool :=
  st.expr.underrates name es m scope (st.target.range.isSome || (m.output? st.target.name).isSome)

namespace Elaboration

/-- Somewhere in the statements a gate underrates `name`. -/
def underratesAll (name : String) (es : List Module) (m : Module) : Scope Signal → List Statement → Bool
  | _, [] => false
  | scope, st :: sts =>
    st.underrates name es m scope || underratesAll name es m (st.outline es m scope) sts

end Elaboration

end NandHdl
