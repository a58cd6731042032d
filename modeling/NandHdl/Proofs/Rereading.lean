import NandHdl.Proofs.Outlines
import NandHdl.Proofs.Twins

/-!
# Reading another name

A body reads the name that an alias stands for in place of the alias. Its run goes the same way.

* `Expr.Reread`, `Statement.Reread`: some reads of a name replaced by reads of another one.
* `Callee.Alike`, `Alias.Bodies`: what the two bodies may call, and when they are alike.
* `agree_expr`, `agree_assignAll`: **expressions and statements agree**, unless a gate underrates the name.
* `agree_outputs`, `agree_locals`, `agree_resolveForwards`, `together_enclosed`: the end of a body.
-/

namespace NandHdl

open Elaboration

/-! ## Replacing reads -/

namespace Expr

mutual

/-- The second expression is the first one with some reads of `old` replaced by reads of `name`, at any depth. -/
inductive Reread (old name : String) : Expr → Expr → Prop
  | read : Reread old name (identifier old) (identifier name)
  | identifier (n : String) : Reread old name (identifier n) (identifier n)
  | number (value : Nat) : Reread old name (number value) (number value)
  | call {args args' : List Expr} (callee : String) (h : RereadAll old name args args') :
    Reread old name (call callee args) (call callee args')
  | member {object object' : Expr} (field : String) (h : Reread old name object object') :
    Reread old name (member object field) (member object' field)
  | select {object object' : Expr} (range : BitRange) (h : Reread old name object object') :
    Reread old name (select object range) (select object' range)

@[inherit_doc Reread]
inductive RereadAll (old name : String) : List Expr → List Expr → Prop
  | nil : RereadAll old name [] []
  | cons {a a' : Expr} {as as' : List Expr} (h : Reread old name a a') (hs : RereadAll old name as as') :
    RereadAll old name (a :: as) (a' :: as')

end

end Expr

/-- Some reads of `old` in the statement are replaced by reads of `name`. -/
structure Statement.Reread (old name : String) (st st' : Statement) : Prop where
  target : st'.target = st.target
  expr : st.expr.Reread old name st'.expr

section Replacing

variable {old name : String}

theorem Expr.RereadAll.length_eq {as as' : List Expr} (h : RereadAll old name as as') : as.length = as'.length := by
  induction as generalizing as' with
  | nil => cases h; rfl
  | cons a as ih =>
    cases h with
    | cons _ hs => rw [List.length_cons, List.length_cons, ih hs]

theorem Expr.RereadAll.ne_pair {as as' : List Expr} (h : RereadAll old name as as') (hne : ∀ e f, as ≠ [e, f])
    (e f : Expr) : as' ≠ [e, f] := by
  intro heq
  have hlength := h.length_eq
  rw [heq] at hlength
  obtain ⟨v, w, hvw⟩ := List.length_eq_two.1 hlength
  exact hne v w hvw

mutual

/-- None of the reads has to be replaced. -/
theorem Expr.Reread.refl : ∀ e : Expr, Expr.Reread old name e e
  | .identifier n => .identifier n
  | .number value => .number value
  | .call callee args => .call callee (Expr.RereadAll.refl args)
  | .member object field => .member field (Expr.Reread.refl object)
  | .select object range => .select range (Expr.Reread.refl object)

theorem Expr.RereadAll.refl : ∀ as : List Expr, Expr.RereadAll old name as as
  | [] => .nil
  | a :: as => .cons (Expr.Reread.refl a) (Expr.RereadAll.refl as)

end

mutual

/-- A name in its own place changes nothing. -/
theorem Expr.Reread.eq {e e' : Expr} : Expr.Reread name name e e' → e' = e
  | .read => rfl
  | .identifier _ => rfl
  | .number _ => rfl
  | .call callee h => congrArg (Expr.call callee) h.eq
  | .member field h => congrArg (Expr.member · field) h.eq
  | .select range h => congrArg (Expr.select · range) h.eq

theorem Expr.RereadAll.eq {as as' : List Expr} : Expr.RereadAll name name as as' → as' = as
  | .nil => rfl
  | .cons h hs => congrArg₂ List.cons h.eq hs.eq

end

mutual

/-- Bit numbers stay as they are. -/
theorem Expr.Reread.maxIndex_eq {e e' : Expr} : Expr.Reread old name e e' → e'.maxIndex = e.maxIndex
  | .read => rfl
  | .identifier _ => rfl
  | .number _ => rfl
  | .call _ h => h.maxIndexList_eq
  | .member _ h => h.maxIndex_eq
  | .select range h => congrArg (max · range.hi) h.maxIndex_eq

theorem Expr.RereadAll.maxIndexList_eq {as as' : List Expr} :
    Expr.RereadAll old name as as' → Expr.maxIndexList as' = Expr.maxIndexList as
  | .nil => rfl
  | .cons h hs => congrArg₂ max h.maxIndex_eq hs.maxIndexList_eq

end

theorem Statement.Reread.refl (st : Statement) : st.Reread old name st := ⟨rfl, .refl st.expr⟩

theorem Statement.Reread.eq {st st' : Statement} (h : st.Reread name name st') : st' = st := by
  obtain ⟨target, e⟩ := st
  obtain ⟨target', e'⟩ := st'
  exact Statement.mk.injEq .. ▸ ⟨h.target, h.expr.eq⟩

end Replacing

namespace Elaboration

/-- The callees are called alike, and whatever else is replaced, their instances agree. -/
structure Callee.Alike (c c' : Callee) : Prop where
  name : c.name = c'.name
  inputs : c.inputs = c'.inputs
  instantiate : ∀ (a : Alias) (chain : List String) (args : List Wire), args.length = c.inputs.length →
    a.Agree Eq (c.instantiate chain args) (c'.instantiate chain args)

end Elaboration

namespace Alias

/-! ## Bodies -/

/-- The body `b` assigns the same names as that of an instance of the module `m` behind the modules `es`, has the same
outputs, and calls what is alike. -/
structure Bodies (es : List Module) (m : Module) (outer : List String) (b : Body) : Prop where
  assigns : ∀ name, m.assigns name = b.module.assigns name
  outputs : m.outputs = b.module.outputs
  chain : m.name :: outer = b.chain
  callees : List.Forall₂ Callee.Alike (visibleFrom (calleesOf es) m) b.callees

/-- What is not to hold of the name, unless nothing is to be replaced. -/
def Fair (a : Alias) (underrated : Bool) : Prop := a.value = .forward a.name ∨ underrated = false

section Bodies

variable {a : Alias} {es : List Module} {m : Module} {outer : List String} {b b' : Body}
  {scope scope' : Scope Signal} {x x' y y' : Signal} {p q : Bool}

theorem fair_or : a.Fair (p || q) ↔ a.Fair p ∧ a.Fair q := by
  rw [Fair, Fair, Fair, Bool.or_eq_false_iff]
  exact or_and_left

/-- Either both bodies can call the name or none can. -/
theorem Bodies.callee? (hb : Bodies es m outer b) (name : String) :
    Option.Rel Callee.Alike ((bodyIn es m outer).callee? name) (b.callee? name) := by
  have hcs := hb.callees
  rw [Body.callee?, Body.callee?, bodyIn]
  generalize visibleFrom (calleesOf es) m = cs, b.callees = cs' at hcs ⊢
  induction hcs with
  | nil => exact .none
  | @cons c c' cs cs' hc _ ih =>
    rw [List.find?_cons, List.find?_cons, hc.name]
    split
    · exact .some hc
    · exact ih

/-- The signals are alike, and the first one has this outline. -/
def Outlined (a : Alias) (outline x y : Signal) : Prop := a.Like x y ∧ x.outline = outline

/-- What agrees has the outline that is known. -/
theorem Agree.outlined {want : Option Nat} {e e' : Expr}
    (h : a.Agree a.Like (expr (bodyIn es m outer) scope want e) (expr b scope' want e')) :
    a.Agree (a.Outlined (e.outline es m scope.outline)) (expr (bodyIn es m outer) scope want e)
      (expr b scope' want e') :=
  Together.returns h (returns_outline_expr e want)

/-- The natural width of the name is at most that of its value. -/
theorem Like.naturalWidth_le (hbound : a.Bound scope) (h : a.Like x x') :
    x.naturalWidth ≤ x'.naturalWidth ∧ x'.naturalWidth ≤ fullWidth a.name scope x := by
  rcases hbound with hvalue | hvalue
  · rw [h.eq_of_value hvalue]
    exact ⟨le_rfl, naturalWidth_le_fullWidth a.name scope x'⟩
  rcases h.early with rfl | rfl
  · exact ⟨le_rfl, naturalWidth_le_fullWidth a.name scope x⟩
  · have hsame := h.same
    have hfull : fullWidth a.name scope (.forward a.name) = a.value.naturalWidth := by
      rw [fullWidth, if_pos rfl, hvalue]
      rfl
    rw [signal_name] at hsame
    rw [hfull]
    by_cases hx : x' = .forward a.name
    · rw [hx]
      exact ⟨le_rfl, naturalWidth_pos a.value⟩
    · rw [signal_of_ne hx] at hsame
      rw [hsame]
      exact ⟨naturalWidth_pos x', le_rfl⟩

theorem agree_nameSignal (hb : Bodies es m outer b) (hs : a.Scopes scope scope') (name : String) :
    a.Agree a.Like (nameSignal (bodyIn es m outer) scope name) (nameSignal b scope' name) := by
  have hassigns : (bodyIn es m outer).module.assigns name = b.module.assigns name := hb.assigns name
  unfold nameSignal
  rw [hassigns]
  rcases hs.lookup name with ⟨hx, hy⟩ | ⟨x, y, hx, hy, hxy⟩
  · simp only [hx, hy]
    split
    · exact Together.pure (Like.refl _)
    · exact agree_blackBox.warn rfl rfl
  · simp only [hx, hy]
    exact Together.pure hxy

/-- **The name in place of the alias.** -/
theorem agree_read (hb : Bodies es m outer b) (hs : a.Scopes scope scope') :
    a.Agree a.Like (nameSignal (bodyIn es m outer) scope a.old) (nameSignal b scope' a.name) := by
  rcases hs.read with hself | ⟨x, y, hx, hy, hxy⟩
  · rw [hself]
    exact agree_nameSignal hb hs a.name
  · unfold nameSignal
    rw [hx, hy]
    exact Together.pure hxy

/-- **Where a gate takes natural widths**, it is as wide as it would be with the value for the name. -/
theorem widest_le_of_fair {want : Option Nat} {os : List Signal}
    (hfair : a.Fair (!want.isSome && gateUnderrates a.name scope.outline os)) (hwant : want = none)
    (hunknown : ∀ o ∈ os, (knownWidth scope.outline o).isNone) : a.value = .forward a.name ∨
      widest (os.map (fullWidth a.name scope.outline)) ≤ widest (os.map Signal.naturalWidth) := by
  refine hfair.imp id fun hgate => ?_
  rw [hwant, gateUnderrates, Option.isSome_none, Bool.not_false, Bool.true_and, List.all_eq_true.2 hunknown,
    Bool.true_and, decide_eq_false_iff_not, not_lt] at hgate
  exact hgate

/-- A signal without a width of its own has none in outline. -/
theorem Outlined.unknown (h : a.Outlined y x x') (hx : knownWidth scope x = none) :
    (knownWidth scope.outline y).isNone := by
  rw [← Option.not_isSome, ← h.2, isSome_knownWidth_outline, hx]
  rfl

/-- A gate whose operands have outlines. -/
theorem agree_nand_of_fair (hs : a.Scopes scope scope') {want : Option Nat} {o o' : Signal}
    (hx : a.Outlined o x x') (hy : a.Outlined o' y y')
    (hfair : a.Fair (!want.isSome && gateUnderrates a.name scope.outline [o, o'])) :
    a.Agree a.Like (nand b scope want x y) (nand b' scope' want x' y') := by
  refine agree_nand hs hx.1 hy.1 want fun hwant hv hw => ?_
  have hunknown : ∀ u ∈ [o, o'], (knownWidth scope.outline u).isNone :=
    List.forall_mem_cons.2 ⟨hx.unknown hv, List.forall_mem_cons.2 ⟨hy.unknown hw, List.forall_mem_nil _⟩⟩
  rcases widest_le_of_fair hfair hwant hunknown with hvalue | hwidest
  · rw [hx.1.eq_of_value hvalue, hy.1.eq_of_value hvalue]
  · have hxle := hx.1.naturalWidth_le hs.bound
    have hyle := hy.1.naturalWidth_le hs.bound
    simp only [← hx.2, ← hy.2, List.map_cons, List.map_nil, widest, List.foldr_cons, List.foldr_nil,
      fullWidth_outline, Signal.naturalWidth_outline] at hwidest
    omega

/-- A flip-flop whose data has an outline. -/
theorem agree_dff_of_fair (hs : a.Scopes scope scope') {want : Option Nat} {o : Signal} (hx : a.Outlined o x x')
    (hy : a.Like y y') (hfair : a.Fair (!want.isSome && gateUnderrates a.name scope.outline [o])) :
    a.Agree a.Like (dff b scope want x y) (dff b' scope' want x' y') := by
  refine agree_dff hs hx.1 hy want fun hwant hv => ?_
  have hunknown : ∀ u ∈ [o], (knownWidth scope.outline u).isNone :=
    List.forall_mem_cons.2 ⟨hx.unknown hv, List.forall_mem_nil _⟩
  rcases widest_le_of_fair hfair hwant hunknown with hvalue | hwidest
  · rw [hx.1.eq_of_value hvalue]
  · have hxle := hx.1.naturalWidth_le hs.bound
    simp only [← hx.2, List.map_cons, List.map_nil, widest, List.foldr_cons, List.foldr_nil, fullWidth_outline,
      Signal.naturalWidth_outline] at hwidest
    omega

/-! ## Expressions -/

section Fair

variable {asked : Bool} {e f : Expr} {args : List Expr} {callee : String}

theorem fair_nand : a.Fair ((Expr.call "nand" [e, f]).underrates a.name es m scope asked) ↔
    (a.Fair (e.underrates a.name es m scope asked) ∧ a.Fair (f.underrates a.name es m scope asked)) ∧
      a.Fair (!asked && gateUnderrates a.name scope [e.outline es m scope, f.outline es m scope]) := by
  rw [← fair_or, ← fair_or]
  simp [Expr.underrates, Expr.underratesList, asks, deciding]

theorem fair_dff : a.Fair ((Expr.call "dff" [e, f]).underrates a.name es m scope asked) ↔
    (a.Fair (e.underrates a.name es m scope asked) ∧ a.Fair (f.underrates a.name es m scope true)) ∧
      a.Fair (!asked && gateUnderrates a.name scope [e.outline es m scope]) := by
  rw [← fair_or, ← fair_or]
  simp [Expr.underrates, Expr.underratesList, asks, deciding]

/-- In the arguments of what can be called the name is not underrated. -/
theorem fair_arguments (hnand : callee ≠ "nand") (hdff : callee ≠ "dff") {c : Callee}
    (hc : (bodyIn es m outer).callee? callee = some c)
    (h : a.Fair ((Expr.call callee args).underrates a.name es m scope asked)) :
    a.Fair (Expr.underratesList a.name es m scope (List.replicate args.length true) args) := by
  have hdefined : callee ∈ definedFor es m := by
    by_contra hnot
    have hnone : (bodyIn es m outer).callee? callee = none := callee?_undefined hnot
    rw [hnone] at hc
    cases hc
  rw [Expr.underrates, asks, if_neg hnand, if_neg hdff, if_pos hdefined, fair_or] at h
  exact h.1

end Fair

theorem returns_length_arguments (ps : List Port) : ∀ as : List Expr,
    Returns (arguments b scope ps as) fun ws => ps.length = as.length → ws.length = ps.length := by
  induction ps with
  | nil =>
    intro as
    rw [arguments.eq_2 _ _ _ _ (by simp)]
    exact .pure fun _ => rfl
  | cons p ps ih =>
    intro as
    cases as with
    | nil =>
      rw [arguments.eq_2 _ _ _ _ (by simp)]
      exact .pure fun h => nomatch h
    | cons e as =>
      rw [arguments]
      refine .then fun x => .then fun w => (ih as).bind fun ws hws => .pure fun h => ?_
      rw [List.length_cons, List.length_cons, hws (Nat.succ.inj h)]

section Calls

variable {want : Option Nat} {name : String} {args args' : List Expr}

/-- A call of what is not defined is a black box in both bodies. -/
theorem agree_call_undefined (hb : Bodies es m outer b) (hnand : name ≠ "nand") (hdff : name ≠ "dff")
    (hnone : (bodyIn es m outer).callee? name = none) :
    a.Agree a.Like (expr (bodyIn es m outer) scope want (.call name args)) (expr b scope' want (.call name args')) := by
  have hcallee := hb.callee? name
  rw [hnone] at hcallee
  rw [expr.eq_7 _ scope want name args hnand hdff, expr.eq_7 b scope' want name args' hnand hdff, hnone]
  cases hnone' : b.callee? name with
  | none => exact agree_blackBox.warn rfl rfl
  | some _ => rw [hnone'] at hcallee; cases hcallee

/-- Calls agree if their arguments do. -/
theorem agree_call (hb : Bodies es m outer b) (hnand : name ≠ "nand") (hdff : name ≠ "dff") {callee : Callee}
    (hsome : (bodyIn es m outer).callee? name = some callee) (hlen : args.length = args'.length)
    (hargs : a.Agree Eq (arguments (bodyIn es m outer) scope callee.inputs args)
      (arguments b scope' callee.inputs args')) :
    a.Agree a.Like (expr (bodyIn es m outer) scope want (.call name args)) (expr b scope' want (.call name args')) := by
  have hcallee := hb.callee? name
  rw [hsome] at hcallee
  rw [expr.eq_7 _ scope want name args hnand hdff, expr.eq_7 b scope' want name args' hnand hdff, hsome]
  cases hsome' : b.callee? name with
  | none => rw [hsome'] at hcallee; cases hcallee
  | some callee' =>
    rw [hsome'] at hcallee
    cases hcallee with
    | some halike =>
      simp only
      rw [← halike.inputs, ← hb.chain, ← hlen]
      refine (agree_checkArity _ _ _).bind fun _ _ harity => ?_
      refine (Together.returns hargs (returns_length_arguments _ _)).bind fun ws ws' hws => ?_
      obtain ⟨rfl, hlength⟩ := hws
      exact (halike.instantiate a _ ws (hlength harity)).bind fun outs outs' houts =>
        Together.pure (houts ▸ Like.refl _)

end Calls

/-- Expressions and argument lists with some reads replaced. -/
theorem agree_expr_arguments (hb : Bodies es m outer b) (hs : a.Scopes scope scope') :
    (∀ want e, ∀ e', e.Reread a.old a.name e' → a.Fair (e.underrates a.name es m scope.outline want.isSome) →
      a.Agree a.Like (expr (bodyIn es m outer) scope want e) (expr b scope' want e')) ∧
    ∀ ps as, ∀ as', Expr.RereadAll a.old a.name as as' →
      a.Fair (Expr.underratesList a.name es m scope.outline (List.replicate as.length true) as) →
      a.Agree Eq (arguments (bodyIn es m outer) scope ps as) (arguments b scope' ps as') := by
  -- the induction is on expressions and argument lists at once, one case for each equation
  apply expr.mutual_induct (bodyIn es m outer)
  case case1 =>
    intro want name e' h _
    cases h with
    | read =>
      rw [expr, expr]
      exact agree_read hb hs
    | identifier =>
      rw [expr, expr]
      exact agree_nameSignal hb hs name
  case case2 =>
    intro want value e' h _
    cases h
    rw [expr, expr]
    exact Together.pure (Like.refl _)
  case case3 =>
    intro want x y hx hy e' h hfair
    cases h with
    | call _ h =>
      cases h with
      | cons hxx h =>
        cases h with
        | cons hyy h =>
          cases h
          obtain ⟨⟨hfairx, hfairy⟩, hgate⟩ := fair_nand.1 hfair
          rw [expr, expr]
          refine (Agree.outlined (hx _ hxx hfairx)).bind fun u u' hu => ?_
          refine (Agree.outlined (hy _ hyy hfairy)).bind fun v v' hv => ?_
          exact agree_nand_of_fair hs hu hv hgate
  case case4 =>
    intro want args hargs e' h _
    cases h with
    | @call _ args' _ h =>
      rw [expr.eq_4 _ scope want args hargs, expr.eq_4 b scope' want args' (h.ne_pair hargs), h.length_eq]
      exact Agree.throw _
  case case5 =>
    intro want d clk hd hclk e' h hfair
    cases h with
    | call _ h =>
      cases h with
      | cons hdd h =>
        cases h with
        | cons hcc h =>
          cases h
          obtain ⟨⟨hfaird, hfairc⟩, hgate⟩ := fair_dff.1 hfair
          rw [expr, expr]
          refine (Agree.outlined (hd _ hdd hfaird)).bind fun u u' hu => ?_
          exact (hclk _ hcc hfairc).bind fun v v' hv => agree_dff_of_fair hs hu hv hgate
  case case6 =>
    intro want args hargs e' h _
    cases h with
    | @call _ args' _ h =>
      rw [expr.eq_6 _ scope want args hargs, expr.eq_6 b scope' want args' (h.ne_pair hargs), h.length_eq]
      exact Agree.throw _
  case case7 =>
    intro want name args hnand hdff hnone e' h _
    cases h
    exact agree_call_undefined hb hnand hdff hnone
  case case8 =>
    intro want name args hnand hdff callee hsome ih e' h hfair
    cases h with
    | call _ h => exact agree_call hb hnand hdff hsome h.length_eq (ih _ h (fair_arguments hnand hdff hsome hfair))
  case case9 =>
    intro want object name ih e' h hfair
    cases h with
    | @member _ object' _ h =>
      rw [expr, expr]
      exact (ih _ h hfair).bind fun x x' hx => agree_field hs hx.same object object' name
  case case10 =>
    intro want object r ih e' h hfair
    cases h with
    | select _ h =>
      rw [expr, expr]
      exact (ih _ h hfair).bind fun x x' hx => (agree_project hs hx.same r).bind fun w w' hw =>
        Together.pure (hw ▸ Like.refl _)
  case case11 =>
    intro p ps e as he has as' h hfair
    cases h with
    | cons hee hrest =>
      rw [List.length_cons, List.replicate_succ, Expr.underratesList, fair_or] at hfair
      rw [arguments, arguments]
      refine (he _ hee hfair.1).bind fun x x' hx => (agree_fitted hs hx.same p.width).bind fun w w' hw => ?_
      exact (has _ hrest hfair.2).bind fun ws ws' hws => Together.pure (congrArg₂ List.cons hw hws)
  case case12 =>
    intro as ps hne as' h _
    have hne' : ∀ p rest a as, ps = p :: rest → as' = a :: as → False := by
      intro p rest a as'' hps has
      subst has
      cases h with
      | cons _ _ => exact hne _ _ _ _ hps rfl
    rw [arguments.eq_2 _ scope ps as hne, arguments.eq_2 b scope' ps as' hne']
    exact Together.pure rfl

theorem agree_expr (hb : Bodies es m outer b) (hs : a.Scopes scope scope') {e e' : Expr}
    (h : e.Reread a.old a.name e') {want : Option Nat}
    (hfair : a.Fair (e.underrates a.name es m scope.outline want.isSome)) :
    a.Agree a.Like (expr (bodyIn es m outer) scope want e) (expr b scope' want e') :=
  (agree_expr_arguments hb hs).1 want e e' h hfair

/-! ## Statements -/

theorem agree_splice (hs : a.Scopes scope scope') {name : String} (hname : a.Spares name) (r : BitRange)
    (part current : Wire) : a.Agree a.Scopes (do
      if (current.fit (max current.width (r.hi + 1))).width < r.lo + part.width then
        throw (.fault .spliceOutOfRange)
      return scope.bind name (.wire ((current.fit (max current.width (r.hi + 1))).splice r.lo part))) (do
      if (current.fit (max current.width (r.hi + 1))).width < r.lo + part.width then
        throw (.fault .spliceOutOfRange)
      return scope'.bind name (.wire ((current.fit (max current.width (r.hi + 1))).splice r.lo part))) := by
  split
  · exact Agree.throw_bind _
  · exact Together.pure (hs.bind hname (Like.refl _))

theorem agree_assign (hb : Bodies es m outer b) (hs : a.Scopes scope scope') {st st' : Statement}
    (h : st.Reread a.old a.name st') (hname : a.Spares st.target.name)
    (hfair : a.Fair (st.underrates a.name es m scope.outline)) :
    a.Agree a.Scopes (assign (bodyIn es m outer) scope st) (assign b scope' st') := by
  have houtput : ∀ name, b.module.output? name = m.output? name := fun name => by
    rw [Module.output?, Module.output?, hb.outputs]
  unfold assign
  dsimp only [bodyIn]
  rw [h.target, houtput]
  cases hr : st.target.range with
  | none =>
    have hexpr : a.Fair (st.expr.underrates a.name es m scope.outline
        ((m.output? st.target.name).map Port.width).isSome) := by
      rw [Statement.underrates, hr, Option.isSome_none, Bool.false_or] at hfair
      rw [Option.isSome_map]
      exact hfair
    exact (agree_expr hb hs h.expr hexpr).bind fun x x' hx => Together.pure (hs.bind hname hx)
  | some r =>
    have hexpr : a.Fair (st.expr.underrates a.name es m scope.outline (some r.width).isSome) := by
      rw [Statement.underrates, hr, Option.isSome_some, Bool.true_or] at hfair
      exact hfair
    refine (agree_expr hb hs h.expr hexpr).bind fun x x' hx => ?_
    refine (agree_fitted hs hx.same r.width).bind fun part part' hpart => ?_
    subst hpart
    rcases hs.lookup st.target.name with ⟨hx, hy⟩ | ⟨old, old', hx, hy, hsame⟩
    · simp only [hx, hy, pure_bind]
      exact agree_splice hs hname r part _
    · simp only [hx, hy]
      refine (agree_materialize hs hsame.same _).bind fun current current' hcurrent => ?_
      subst hcurrent
      exact agree_splice hs hname r part current

/-- **Statements agree**, if none of them assigns the alias or the name, and no gate in them underrates the name. -/
theorem agree_assignAll (hb : Bodies es m outer b) {sts sts' : List Statement}
    (h : List.Forall₂ (Statement.Reread a.old a.name) sts sts') : ∀ {scope scope' : Scope Signal},
    a.Scopes scope scope' → (∀ st ∈ sts, a.Spares st.target.name) →
      a.Fair (underratesAll a.name es m scope.outline sts) →
        a.Agree a.Scopes (assignAll (bodyIn es m outer) scope sts) (assignAll b scope' sts') := by
  induction h with
  | nil => exact fun hs _ _ => Together.pure hs
  | @cons st st' sts sts' hst _ ih =>
    intro scope scope' hs hspares hfair
    obtain ⟨hhere, hrest⟩ := List.forall_mem_cons.1 hspares
    rw [underratesAll, fair_or] at hfair
    have hassign := agree_assign hb hs hst hhere hfair.1
    refine (Together.returns hassign (returns_outline_assign st)).bind fun next next' hnext => ih hnext.1 hrest ?_
    rw [hnext.2]
    exact hfair.2

/-! ## The end of a body -/

theorem agree_outputWire (hs : a.Scopes scope scope') (p : Port) :
    a.Agree Eq (outputWire b scope p) (outputWire b' scope' p) := by
  have hzeros : a.Agree Eq (pure (Wire.zeros p.width)) (pure (Wire.zeros p.width)) := Together.pure rfl
  unfold outputWire
  rcases hs.lookup p.name with ⟨hx, hy⟩ | ⟨x, y, hx, hy, hxy⟩
  · simp only [hx, hy]
    exact hzeros.warn rfl rfl
  · simp only [hx, hy]
    exact agree_fitted hs hxy.same p.width

theorem agree_outputs (hs : a.Scopes scope scope') (ps : List Port) :
    a.Agree Eq (outputs b scope ps) (outputs b' scope' ps) := by
  induction ps with
  | nil => exact Together.pure rfl
  | cons p ps ih =>
    rw [outputs_cons, outputs_cons]
    exact (agree_outputWire hs p).bind fun w w' hw => ih.bind fun ws ws' hws =>
      Together.pure (congrArg₂ (fun w ws => (p.name, w) :: ws) hw hws)

theorem agree_wiresOf (hs : a.Scopes scope scope') (name : String) (h : a.signal x = a.signal x') :
    a.Agree Eq (wiresOf b scope name x) (wiresOf b' scope' name x') := by
  have hsingle : ∀ {x x' : Signal}, a.signal x = a.signal x' → a.Agree Eq
      (do pure [(name, ← materialize b scope x none)]) (do pure [(name, ← materialize b' scope' x' none)]) :=
    fun hxx => (agree_materialize hs hxx none).bind fun w w' hw => Together.pure (by rw [hw])
  have hends := hs.signal_follow h
  have hsame := hs.follow h
  unfold wiresOf
  generalize follow scope x = u, follow scope' x' = v at hends hsame
  cases hsame with
  | forward => exact hsingle hends
  | refl u =>
    cases u with
    | bundle fields =>
      match fields with
      | [] => exact Together.pure rfl
      | [(_, w)] => exact Together.pure rfl
      | _ :: _ :: _ => exact Together.pure rfl
    | _ => exact hsingle hends

theorem agree_locals (hs : a.Scopes scope scope') {xs ys : List (String × Signal)}
    (h : (xs.map fun e => (e.1, a.signal e.2)) = ys.map fun e => (e.1, a.signal e.2)) :
    a.Agree Eq (locals b scope xs) (locals b' scope' ys) := by
  induction xs generalizing ys with
  | nil =>
    rw [List.map_nil, List.nil_eq, List.map_eq_nil_iff] at h
    rw [h]
    exact Together.pure rfl
  | cons e xs ih =>
    cases ys with
    | nil => cases h
    | cons d ys =>
      rw [List.map_cons, List.map_cons, List.cons.injEq, Prod.mk.injEq] at h
      obtain ⟨⟨hname, hsame⟩, hrest⟩ := h
      rw [locals_cons, locals_cons, hname]
      exact (agree_wiresOf hs d.1 hsame).bind fun ws ws' hws => (ih hrest).bind fun rest rest' hr =>
        Together.pure (congrArg₂ (· ++ ·) hws hr)

/-- Only warnings are made of slots without an end. -/
theorem agree_noteSelfDefined (module module' : String) (slots slots' : List (ForwardSlot × Option Bit)) :
    a.Agree (fun _ _ => True) (noteSelfDefined module slots) (noteSelfDefined module' slots') := by
  induction slots with
  | nil =>
    induction slots' with
    | nil => exact Together.pure trivial
    | cons e slots' ih =>
      obtain ⟨slot, _ | bit⟩ := e
      · exact ih.warn_right rfl
      · exact ih
  | cons e slots ih =>
    obtain ⟨slot, _ | bit⟩ := e
    · exact ih.warn_left rfl
    · exact ih

/-- **What the slots stand for at the end of the body is the same in both runs.** -/
theorem directBits_eq (hs : a.Scopes scope scope') {s t : State} (hst : a.States s t) :
    s.slots.map (finalBit scope) = t.slots.map (finalBit scope') := by
  have hself : ∀ (u : Scope Signal), a.Bound u → ∀ slots : Array ForwardSlot,
      slots.map (finalBit u) = (slots.map a.slot).map (finalBit u) := by
    intro u hu slots
    rw [Array.map_map]
    exact Array.map_congr_left fun slot _ => (finalBit_slot hu slot).symm
  rw [hself scope hs.bound, hself scope' hs.bound', hst.slots]
  exact Array.map_congr_left fun slot _ => hs.finalBit_eq rfl

theorem agree_resolveForwards (hs : a.Scopes scope scope') (inst : Instance) :
    a.Agree Eq (resolveForwards b scope inst) (resolveForwards b' scope' inst) := by
  refine together_get.bind fun s t hst => ?_
  simp only [directBits_eq hs hst, hst.slotBase, hst.slots_size, hst.nodes]
  split
  · refine (agree_noteSelfDefined _ _ _ _).bind fun _ _ _ =>
      (Together.modify fun s' t' hst' => ?_).bind fun _ _ _ => Together.pure rfl
    exact ⟨hst'.nextId, by rw [hst'.nodes], hst'.slotBase, hst'.slots, hst'.log⟩
  · exact Agree.throw_bind _

end Bodies

/-- A body of its own may replace something else. -/
theorem together_enclosed {α β : Type} {R : α → β → Prop} {x : Build α} {y : Build β} {a : Alias} (name : String)
    (h : Together (self name).States (fun s t => ∃ inner : Alias, inner.States s t) R x y) :
    a.Agree R (enclosed x) (enclosed y) := by
  unfold enclosed
  have henter : Together a.States (self name).States
      (fun o o' => o.1 = o'.1 ∧ o.2.1 = o'.2.1 ∧ o.2.2.map a.slot = o'.2.2.map a.slot)
      (modifyGet fun s => ((s.nodes, s.slotBase, s.slots),
        { s with nodes := #[], slotBase := s.slotBase + s.slots.size, slots := #[] }))
      (modifyGet fun s => ((s.nodes, s.slotBase, s.slots),
        { s with nodes := #[], slotBase := s.slotBase + s.slots.size, slots := #[] })) :=
    Together.modifyGet fun s t hst => by
      refine ⟨⟨hst.nodes, hst.slotBase, hst.slots⟩, hst.nextId, rfl, ?_, rfl, hst.log⟩
      simp only [hst.slotBase, hst.slots_size]
  refine henter.bind fun o o' ho => h.bind fun u v huv => ?_
  obtain ⟨nodes, slotBase, slots⟩ := o
  obtain ⟨nodes', slotBase', slots'⟩ := o'
  obtain ⟨hnodes, hbase, hslots⟩ := ho
  refine Together.bind (M := a.States) (Together.modify fun s t hst => ?_) fun _ _ _ => Together.pure huv
  obtain ⟨inner, hst⟩ := hst
  exact ⟨hst.nextId, congrArg₂ (· ++ ·) hnodes hst.nodes, hbase, hslots, hst.log⟩

end Alias

end NandHdl
