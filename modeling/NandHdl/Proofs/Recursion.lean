import NandHdl.Proofs.Nesting
import NandHdl.Proofs.Statements

/-!
# Recursion

A module that comes to a call of itself is refused. No other recursion is possible: a module sees those before it
and itself, and what it sees of the others has compiled.

* `NeverRecursive`: a step that never finds a module inside itself.
* `Comes`: the evaluation of an expression comes to a call. `Comes.fails`: to one that is refused.
* `comes_of_fails`: **only a call of the module itself is refused as a recursion.**
* `CallsItself`: the evaluation of a module's body comes to a call of the module.
* `netlist_recursive`: **a module is refused as a recursion exactly if it calls itself.**
* `Opened.around`: open instances descend in the design.
* `Ledger.recursion_is_direct`: **recursion in whole designs.**
-/

namespace NandHdl

namespace Elaboration

variable {α β : Type}

/-! ## Steps that never find a recursion -/

/-- The step never finds a module inside itself. -/
def NeverRecursive (x : Build α) : Prop := ∀ s chain s', ¬ Fails x s (.recursiveInstantiation chain) s'

section Steps

variable {x : Build α} {g : α → Build β} {b : Body} {scope : Scope Signal}

theorem NeverRecursive.pure (a : α) : NeverRecursive (pure a) := fun _ _ _ => not_fails_pure

theorem NeverRecursive.bind (hx : NeverRecursive x) (hg : ∀ a, NeverRecursive (g a)) :
    NeverRecursive (x >>= g) := by
  intro s chain s' h
  rcases fails_bind.1 h with h | ⟨a, s₁, -, h⟩
  · exact hx s chain s' h
  · exact hg a s₁ chain s' h

theorem NeverRecursive.throw_bind {e : CompileError} (he : ∀ chain, e ≠ .recursiveInstantiation chain)
    (g : α → Build β) : NeverRecursive (MonadExcept.throw e >>= g) := by
  intro s chain s' h
  rcases fails_bind.1 h with h | ⟨_, _, hthrow, -⟩
  · exact he chain (fails_throw.1 h).1.symm
  · exact absurd hthrow not_gives_throw

theorem never_modifyGet (g : State → α × State) : NeverRecursive (modifyGet g) := fun _ _ _ => nofun

theorem never_modify (g : State → State) : NeverRecursive (modify g) := fun _ _ _ => nofun

theorem never_note (e : Event) : NeverRecursive (note e) := never_modify _

theorem never_note_pure (e : Event) (a : α) : NeverRecursive (do note e; return a) :=
  (never_note e).bind fun _ => .pure a

theorem never_readForward (name : String) (lo count : Nat) : NeverRecursive (readForward name lo count) := by
  unfold readForward
  split
  · exact .throw_bind (fun _ => by simp) _
  · exact never_modifyGet _

theorem never_materialize (x : Signal) (want : Option Nat) : NeverRecursive (materialize b scope x want) := by
  unfold materialize
  split
  · exact .pure _
  · exact .pure _
  · exact never_note_pure _ _
  · exact .pure _
  · exact .pure _
  · exact never_readForward _ _ _

theorem never_fitted (x : Signal) (width : Nat) : NeverRecursive (fitted b scope x width) :=
  (never_materialize x _).bind fun _ => .pure _

theorem never_project (x : Signal) (r : BitRange) : NeverRecursive (project b scope x r) := by
  unfold project
  split
  · exact .pure _
  · exact .pure _
  · exact never_readForward _ _ _
  · refine (never_materialize _ none).bind fun w => ?_
    split
    · exact never_note_pure _ _
    · exact .pure _

theorem never_field (object : Expr) (x : Signal) (name : String) : NeverRecursive (field scope object x name) := by
  unfold field
  split
  · split
    · exact .pure _
    · exact never_note_pure _ _
  · exact .pure _
  · exact never_note_pure _ _

theorem never_nameSignal (name : String) : NeverRecursive (nameSignal b scope name) := by
  unfold nameSignal
  split
  · exact .pure _
  · split
    · exact .pure _
    · exact never_note_pure _ _

theorem never_place (cell : Bit → Bit → Cell) (v w : Wire) :
    NeverRecursive (do return Signal.wire (← place cell v w)) :=
  (never_modifyGet _).bind fun _ => .pure _

theorem never_gates (x y : Signal) (width : Nat) : NeverRecursive (do
    let x ← fitted b scope x width
    let y ← fitted b scope y width
    return Signal.wire (← place .nand x y)) :=
  (never_fitted x width).bind fun _ => (never_fitted y width).bind fun _ => never_place _ _ _

theorem never_nand (want : Option Nat) (x y : Signal) : NeverRecursive (nand b scope want x y) := by
  unfold nand
  split
  · split
    · exact never_gates x y _
    · exact .throw_bind (fun _ => by simp) _
  · exact never_gates x y _
  · exact never_gates x y _
  · exact never_gates x y _

theorem never_dff (want : Option Nat) (x y : Signal) : NeverRecursive (dff b scope want x y) := by
  unfold dff
  refine (never_fitted x _).bind fun v => ?_
  split
  · exact (never_fitted y 1).bind fun c => never_place _ _ _
  · exact (never_fitted y 1).bind fun c => never_place _ _ _
  · split
    · exact (never_materialize y _).bind fun w => never_place _ _ _
    · exact .throw_bind (fun _ => by simp) _

theorem never_splice (scope : Scope Signal) (name : String) (r : BitRange) (part current : Wire) :
    NeverRecursive (do
      if (current.fit (max current.width (r.hi + 1))).width < r.lo + part.width then
        throw (.fault .spliceOutOfRange)
      return scope.bind name (.wire ((current.fit (max current.width (r.hi + 1))).splice r.lo part))) := by
  split
  · exact .throw_bind (fun _ => by simp) _
  · exact .pure _

theorem never_outputs (ps : List Port) : NeverRecursive (outputs b scope ps) := by
  induction ps with
  | nil => exact .pure _
  | cons p ps ih =>
    rw [outputs_cons]
    refine NeverRecursive.bind ?_ fun _ => ih.bind fun _ => .pure _
    unfold outputWire
    split
    · exact never_fitted _ _
    · exact never_note_pure _ _

theorem never_locals (xs : List (String × Signal)) : NeverRecursive (locals b scope xs) := by
  induction xs with
  | nil => exact .pure _
  | cons x xs ih =>
    rw [locals_cons]
    refine NeverRecursive.bind ?_ fun _ => ih.bind fun _ => .pure _
    unfold wiresOf
    split
    · exact .pure _
    · exact .pure _
    · exact (never_materialize _ none).bind fun _ => .pure _

theorem never_noteSelfDefined (module : String) (slots : List (ForwardSlot × Option Bit)) :
    NeverRecursive (noteSelfDefined module slots) := by
  induction slots with
  | nil => exact .pure _
  | cons e slots ih =>
    obtain ⟨slot, _ | bit⟩ := e
    · exact (never_note _).bind fun _ => ih
    · exact ih

theorem never_resolveForwards (inst : Instance) : NeverRecursive (resolveForwards b scope inst) := by
  unfold resolveForwards
  refine NeverRecursive.bind (x := get) (fun _ _ _ => nofun) fun s => ?_
  dsimp only
  split
  · exact (never_noteSelfDefined _ _).bind fun _ => (never_modify _).bind fun _ => .pure _
  · exact .throw_bind (fun _ => by simp) _

end Steps

/-! ## Coming to a call -/

section Coming

variable (b : Body) (scope : Scope Signal) (name : String) (ws : List Wire) (t : State)

/-- Where `want` bits of an expression are asked for in a state, its evaluation comes to a call of `name`, with the
arguments `ws` and in the state `t`. -/
inductive Comes : Option Nat → Expr → State → Prop
  | call {want : Option Nat} {c : Callee} {args : List Expr} {s : State} (hprim : isPrimitive name = false)
    (hc : b.callee? name = some c) (harity : c.inputs.length = args.length)
    (hargs : Gives (arguments b scope c.inputs args) s ws t) : Comes want (.call name args) s
  /-- In an argument, behind those before it. -/
  | argument {want : Option Nat} {other : String} {c : Callee} {before after : List Port} {p : Port}
    {as rest : List Expr} {a : Expr} {us : List Wire} {s s₁ : State} (hprim : isPrimitive other = false)
    (hc : b.callee? other = some c) (hports : c.inputs = before ++ p :: after)
    (harity : c.inputs.length = (as ++ a :: rest).length) (hlength : before.length = as.length)
    (hbefore : Gives (arguments b scope before as) s us s₁) (ha : Comes (some p.width) a s₁) :
    Comes want (.call other (as ++ a :: rest)) s
  | nandFirst {want : Option Nat} {x y : Expr} {s : State} (hx : Comes want x s) :
    Comes want (.call "nand" [x, y]) s
  | nandSecond {want : Option Nat} {x y : Expr} {u : Signal} {s s₁ : State}
    (hx : Gives (expr b scope want x) s u s₁) (hy : Comes want y s₁) : Comes want (.call "nand" [x, y]) s
  | dffFirst {want : Option Nat} {x y : Expr} {s : State} (hx : Comes want x s) :
    Comes want (.call "dff" [x, y]) s
  | dffSecond {want : Option Nat} {x y : Expr} {u : Signal} {s s₁ : State}
    (hx : Gives (expr b scope want x) s u s₁) (hy : Comes (some 1) y s₁) : Comes want (.call "dff" [x, y]) s
  | member {want : Option Nat} {object : Expr} {fieldName : String} {s : State} (h : Comes none object s) :
    Comes want (.member object fieldName) s
  | select {want : Option Nat} {object : Expr} {r : BitRange} {s : State} (h : Comes none object s) :
    Comes want (.select object r) s

/-- The evaluation of arguments comes to a call in one of them. -/
def ComesAmong (ps : List Port) (as : List Expr) (s : State) : Prop :=
  ∃ before p after as₁ a as₂ us s₁, ps = before ++ p :: after ∧ as = as₁ ++ a :: as₂ ∧
    before.length = as₁.length ∧ Gives (arguments b scope before as₁) s us s₁ ∧
    Comes b scope name ws t (some p.width) a s₁

end Coming

section Evaluation

variable {b : Body} {scope : Scope Signal} {name : String} {ws : List Wire} {s s₁ t : State} {e : CompileError}

theorem fails_call {want : Option Nat} {other : String} {args : List Expr} {c : Callee}
    (hprim : isPrimitive other = false) (hc : b.callee? other = some c) (harity : c.inputs.length = args.length) :
    Fails (expr b scope want (.call other args)) s e t ↔ Fails (arguments b scope c.inputs args) s e t ∨
      ∃ us s₁, Gives (arguments b scope c.inputs args) s us s₁ ∧ Fails (c.instantiate b.chain us) s₁ e t := by
  rw [isPrimitive, Bool.or_eq_false_iff, decide_eq_false_iff_not, decide_eq_false_iff_not] at hprim
  rw [expr.eq_7 b scope want other args hprim.1 hprim.2, hc]
  dsimp only
  rw [checkArity, if_pos harity, pure_bind, fails_bind]
  refine or_congr_right (exists₂_congr fun us s₁ => and_congr_right fun _ => ?_)
  rw [fails_bind]
  refine or_iff_left ?_
  rintro ⟨_, _, _, h⟩
  exact not_fails_pure h

/-- Arguments are evaluated one after another. -/
theorem fails_arguments_append {before after : List Port} {p : Port} {as rest : List Expr} {a : Expr}
    {us : List Wire} (hlength : before.length = as.length) (hbefore : Gives (arguments b scope before as) s us s₁)
    (ha : Fails (expr b scope (some p.width) a) s₁ e t) :
    Fails (arguments b scope (before ++ p :: after) (as ++ a :: rest)) s e t := by
  induction before generalizing as s us with
  | nil =>
    obtain rfl : as = [] := List.length_eq_zero_iff.1 hlength.symm
    obtain ⟨rfl, rfl⟩ := gives_pure.1 (by rwa [arguments] at hbefore; exact nofun)
    rw [List.nil_append, List.nil_append, arguments]
    exact fails_bind.2 (.inl ha)
  | cons q before ih =>
    cases as with
    | nil => cases hlength
    | cons a₀ as =>
      rw [arguments] at hbefore
      obtain ⟨x, s₂, hx, hbefore⟩ := gives_bind.1 hbefore
      obtain ⟨w, s₃, hw, hbefore⟩ := gives_bind.1 hbefore
      obtain ⟨vs, s₄, hvs, hbefore⟩ := gives_bind.1 hbefore
      obtain ⟨-, rfl⟩ := gives_pure.1 hbefore
      rw [List.cons_append, List.cons_append, arguments]
      refine fails_bind.2 (.inr ⟨x, s₂, hx, fails_bind.2 (.inr ⟨w, s₃, hw, fails_bind.2 (.inl ?_)⟩)⟩)
      exact ih (Nat.succ.inj hlength) hvs

/-- **What comes to a call that is refused fails there.** -/
theorem Comes.fails {c : Callee} (hc : b.callee? name = some c)
    (hrefuses : c.instantiate b.chain ws = throw e) {want : Option Nat} {x : Expr}
    (h : Comes b scope name ws t want x s) : Fails (expr b scope want x) s e t := by
  induction h with
  | call hprim hfound harity hargs =>
    cases hfound.symm.trans hc
    refine (fails_call hprim hc harity).2 (.inr ⟨ws, t, hargs, ?_⟩)
    rw [hrefuses]
    exact fails_throw.2 ⟨rfl, rfl⟩
  | argument hprim hfound hports harity hlength hbefore _ ih =>
    refine (fails_call hprim hfound harity).2 (.inl ?_)
    rw [hports]
    exact fails_arguments_append hlength hbefore ih
  | nandFirst _ ih =>
    rw [expr]
    exact fails_bind.2 (.inl ih)
  | nandSecond hx _ ih =>
    rw [expr]
    exact fails_bind.2 (.inr ⟨_, _, hx, fails_bind.2 (.inl ih)⟩)
  | dffFirst _ ih =>
    rw [expr]
    exact fails_bind.2 (.inl ih)
  | dffSecond hx _ ih =>
    rw [expr]
    exact fails_bind.2 (.inr ⟨_, _, hx, fails_bind.2 (.inl ih)⟩)
  | member _ ih =>
    rw [expr]
    exact fails_bind.2 (.inl ih)
  | select _ ih =>
    rw [expr]
    exact fails_bind.2 (.inl ih)

end Evaluation

/-! ## What has compiled -/

/-- The instances of the callee are copies of a netlist. -/
def Callee.Copies (c : Callee) : Prop := ∃ first n, n.inputs = c.inputs ∧ c.Pastes first n

/-- Modules that have compiled are copied. -/
theorem copies_calleesOf (ms : List Module) : ∀ (es : List Module) {start : Nat} {ns : List Netlist},
    (compileFrom (calleesOf es) start ms).result = .ok ns → (∀ c ∈ calleesOf es, c.Copies) →
      ∀ c ∈ calleesOf (ms.reverse ++ es), c.Copies := by
  induction ms with
  | nil => exact fun _ _ _ _ h => h
  | cons m ms ih =>
    intro es start ns h hes
    obtain ⟨n, s, rest, hn, hrest, -⟩ := compileFrom_cons h
    obtain ⟨-, -, -, hinputs, -⟩ := gives_netlist hn
    have hm : (Callee.ofModule (calleesOf es) m).Copies :=
      ⟨start, n, hinputs, pastes_of_netlist (fun ρ => follows_calleesOf ρ es) hn⟩
    rw [List.reverse_cons, List.append_assoc]
    exact ih (m :: es) hrest (List.forall_mem_cons.2 ⟨hm, hes⟩)

section Refused

variable {es : List Module} {m : Module} {scope : Scope Signal} {s t : State} {ρ : Renaming} {chain : List String}

/-- A callee with fitting arguments is refused only if it is the module itself. -/
theorem recursive_of_fails (hcopies : ∀ c ∈ calleesOf es, c.Copies) {name : String} {c : Callee}
    (hc : (bodyOf es m).callee? name = some c) {ws : List Wire} (hwidth : ws.map Wire.width = c.inputs.map Port.width)
    (hbelow : ∀ w ∈ ws, w.slotsBelow s.limit)
    (h : Fails (c.instantiate (bodyOf es m).chain ws) s (.recursiveInstantiation chain) t) :
    c = .recursive m ∧ name = m.name ∧ chain = [m.name, m.name] ∧ s = t := by
  have hname : c.name = name := by simpa using List.find?_some hc
  rcases List.mem_cons.1 (List.mem_of_find?_eq_some hc) with rfl | hearlier
  · obtain ⟨hchain, rfl⟩ := fails_throw.1 h
    exact ⟨rfl, hname.symm, CompileError.recursiveInstantiation.inj hchain, rfl⟩
  · obtain ⟨first, n, hinputs, hpastes⟩ := hcopies c hearlier
    obtain ⟨log, hgives⟩ := hpastes m.name [] ws s (by rw [hwidth, hinputs]) hbelow
    exact absurd h hgives.not_fails

/-- A call with the wrong number of arguments is no recursion. -/
theorem arity_of_fails {b : Body} {name : String} {c : Callee} {want : Option Nat} {args : List Expr}
    (hprim : isPrimitive name = false) (hc : b.callee? name = some c)
    (h : Fails (expr b scope want (.call name args)) s (.recursiveInstantiation chain) t) :
    c.inputs.length = args.length := by
  rw [isPrimitive, Bool.or_eq_false_iff, decide_eq_false_iff_not, decide_eq_false_iff_not] at hprim
  rw [expr.eq_7 b scope want name args hprim.1 hprim.2, hc] at h
  dsimp only at h
  unfold checkArity at h
  split at h
  · assumption
  · exact absurd h (NeverRecursive.throw_bind (fun _ => by simp) _ s chain t)

theorem comes_of_call (hb : ρ.Bodies (bodyOf es m) (bodyOf es m)) (hcopies : ∀ c ∈ calleesOf es, c.Copies)
    {name : String} {c : Callee} {want : Option Nat} {args : List Expr} (hprim : isPrimitive name = false)
    (hc : (bodyOf es m).callee? name = some c)
    (hargs : ∀ chain t, Fails (arguments (bodyOf es m) scope c.inputs args) s (.recursiveInstantiation chain) t →
      chain = [m.name, m.name] ∧ ∃ ws, ComesAmong (bodyOf es m) scope m.name ws t c.inputs args s)
    (hs : ρ.SoundWith scope s)
    (h : Fails (expr (bodyOf es m) scope want (.call name args)) s (.recursiveInstantiation chain) t) :
    chain = [m.name, m.name] ∧ ∃ ws, Comes (bodyOf es m) scope m.name ws t want (.call name args) s := by
  have harity := arity_of_fails hprim hc h
  rcases (fails_call hprim hc harity).1 h with h | ⟨ws, s₁, hws, h⟩
  · obtain ⟨hchain, ws, before, p, after, as, a, rest, us, s₂, hports, rfl, hlength, hbefore, hcomes⟩ :=
      hargs chain t h
    exact ⟨hchain, ws, .argument hprim hc hports harity hlength hbefore hcomes⟩
  · -- the arguments are as wide as the ports and name open slots
    obtain ⟨-, -, ⟨hall, hwidth⟩, -⟩ :=
      (Renaming.sim_expr_arguments hb scope).2 _ _ s hs.known hs.sound ws s₁ hws
    have hbelow : ∀ w ∈ ws, w.slotsBelow s₁.limit := fun w hw =>
      Array.all_eq_true'.2 fun bit hbit => (hall w hw bit hbit).slotBelow
    obtain ⟨rfl, rfl, rfl, rfl⟩ := recursive_of_fails hcopies hc (hwidth harity) hbelow h
    exact ⟨rfl, ws, .call hprim hc harity hws⟩

/-- **Only a call of the module itself is refused as a recursion**, behind modules that have compiled. -/
theorem comes_of_fails (hb : ρ.Bodies (bodyOf es m) (bodyOf es m)) (hcopies : ∀ c ∈ calleesOf es, c.Copies)
    (scope : Scope Signal) :
    (∀ want x s, ρ.SoundWith scope s → ∀ chain t,
      Fails (expr (bodyOf es m) scope want x) s (.recursiveInstantiation chain) t →
        chain = [m.name, m.name] ∧ ∃ ws, Comes (bodyOf es m) scope m.name ws t want x s) ∧
    ∀ ps as s, ρ.SoundWith scope s → ∀ chain t,
      Fails (arguments (bodyOf es m) scope ps as) s (.recursiveInstantiation chain) t →
        chain = [m.name, m.name] ∧ ∃ ws, ComesAmong (bodyOf es m) scope m.name ws t ps as s := by
  -- the induction is on expressions and argument lists at once, one case for each equation
  apply expr.mutual_induct (bodyOf es m)
  case case1 =>
    intro want name s _ chain t h
    rw [expr] at h
    exact absurd h (never_nameSignal name s chain t)
  case case2 =>
    intro want value s _ chain t h
    rw [expr] at h
    exact absurd h not_fails_pure
  case case3 =>
    intro want x y hx hy s hs chain t h
    rw [expr] at h
    rcases fails_bind.1 h with h | ⟨u, s₁, hu, h⟩
    · obtain ⟨hchain, ws, hcomes⟩ := hx s hs chain t h
      exact ⟨hchain, ws, .nandFirst hcomes⟩
    · rcases fails_bind.1 h with h | ⟨v, s₂, -, h⟩
      · have hs₁ := hs.after (Renaming.sim_expr hb hs.known want x) hu
        obtain ⟨hchain, ws, hcomes⟩ := hy s₁ hs₁ chain t h
        exact ⟨hchain, ws, .nandSecond hu hcomes⟩
      · exact absurd h (never_nand want u v s₂ chain t)
  case case4 =>
    intro want args hargs s _ chain t h
    rw [expr.eq_4 _ scope want args hargs] at h
    cases (fails_throw.1 h).1
  case case5 =>
    intro want x y hx hy s hs chain t h
    rw [expr] at h
    rcases fails_bind.1 h with h | ⟨u, s₁, hu, h⟩
    · obtain ⟨hchain, ws, hcomes⟩ := hx s hs chain t h
      exact ⟨hchain, ws, .dffFirst hcomes⟩
    · rcases fails_bind.1 h with h | ⟨v, s₂, -, h⟩
      · have hs₁ := hs.after (Renaming.sim_expr hb hs.known want x) hu
        obtain ⟨hchain, ws, hcomes⟩ := hy s₁ hs₁ chain t h
        exact ⟨hchain, ws, .dffSecond hu hcomes⟩
      · exact absurd h (never_dff want u v s₂ chain t)
  case case6 =>
    intro want args hargs s _ chain t h
    rw [expr.eq_6 _ scope want args hargs] at h
    cases (fails_throw.1 h).1
  case case7 =>
    intro want name args hnand hdff hc s _ chain t h
    rw [expr.eq_7 _ scope want name args hnand hdff, hc] at h
    exact absurd h (never_note_pure _ _ s chain t)
  case case8 =>
    intro want name args hnand hdff c hc ih s hs chain t h
    have hprim : isPrimitive name = false := by
      rw [isPrimitive, decide_eq_false hnand, decide_eq_false hdff, Bool.or_false]
    exact comes_of_call hb hcopies hprim hc (ih s hs) hs h
  case case9 =>
    intro want object name ih s hs chain t h
    rw [expr] at h
    rcases fails_bind.1 h with h | ⟨x, s₁, -, h⟩
    · obtain ⟨hchain, ws, hcomes⟩ := ih s hs chain t h
      exact ⟨hchain, ws, .member hcomes⟩
    · exact absurd h (never_field object x name s₁ chain t)
  case case10 =>
    intro want object r ih s hs chain t h
    rw [expr] at h
    rcases fails_bind.1 h with h | ⟨x, s₁, -, h⟩
    · obtain ⟨hchain, ws, hcomes⟩ := ih s hs chain t h
      exact ⟨hchain, ws, .select hcomes⟩
    · exact absurd h ((never_project x r).bind (fun w => .pure _) s₁ chain t)
  case case11 =>
    intro p ps a as ha has s hs chain t h
    rw [arguments] at h
    rcases fails_bind.1 h with h | ⟨x, s₁, hx, h⟩
    · obtain ⟨hchain, ws, hcomes⟩ := ha s hs chain t h
      exact ⟨hchain, ws, [], p, ps, [], a, as, [], s, rfl, rfl, rfl, gives_pure.2 ⟨rfl, rfl⟩, hcomes⟩
    · have hexpr := Renaming.sim_expr hb hs.known (some p.width) a
      have hs₁ := hs.after hexpr hx
      obtain ⟨-, -, hknown, -⟩ := hexpr hs.sound x s₁ hx
      rcases fails_bind.1 h with h | ⟨w, s₂, hw, h⟩
      · exact absurd h (never_fitted x p.width s₁ chain t)
      · rcases fails_bind.1 h with h | ⟨_, _, -, h⟩
        · have hs₂ := hs₁.after (y := fitted (bodyOf es m) (ρ.scope scope) (ρ.signal x) p.width)
            (Renaming.sim_fitted hs₁.known hknown p.width) hw
          obtain ⟨hchain, ws, before, q, after, as₁, c, as₂, us, s₃, rfl, rfl, hlength, hbefore, hcomes⟩ :=
            has s₂ hs₂ chain t h
          refine ⟨hchain, ws, p :: before, q, after, a :: as₁, c, as₂, w :: us, s₃, rfl, rfl,
            congrArg Nat.succ hlength, ?_, hcomes⟩
          rw [arguments]
          exact gives_bind.2 ⟨x, s₁, hx, gives_bind.2 ⟨w, s₂, hw, gives_bind.2 ⟨us, s₃, hbefore,
            gives_pure.2 ⟨rfl, rfl⟩⟩⟩⟩
        · exact absurd h not_fails_pure
  case case12 =>
    intro as ps hne s _ chain t h
    rw [arguments.eq_2 _ scope ps as hne] at h
    exact absurd h not_fails_pure

end Refused

/-! ## Whole bodies -/

section Bodies

variable {es : List Module} {m : Module} {b : Body} {scope : Scope Signal} {s t : State} {e : CompileError}
  {chain : List String} {first : Nat}

/-- The bits that a statement asks its expression for, if it asks for any number. -/
def Module.wanted (m : Module) (st : Statement) : Option Nat :=
  match st.target.range with
  | none => (m.output? st.target.name).map Port.width
  | some r => some r.width

/-- A statement is a recursion if its expression is. -/
theorem fails_assign {st : Statement} : Fails (assign b scope st) s (.recursiveInstantiation chain) t ↔
    Fails (expr b scope (Module.wanted b.module st) st.expr) s (.recursiveInstantiation chain) t := by
  unfold assign Module.wanted
  cases st.target.range with
  | none =>
    refine fails_bind.trans (or_iff_left ?_)
    rintro ⟨x, s₁, -, h⟩
    exact not_fails_pure h
  | some r =>
    refine fails_bind.trans (or_iff_left ?_)
    rintro ⟨x, s₁, -, h⟩
    revert h
    refine NeverRecursive.bind (never_fitted x r.width) (fun part => ?_) s₁ chain t
    cases scope.lookup st.target.name with
    | none =>
      simp only [pure_bind]
      exact never_splice _ _ _ _ _
    | some y => exact (never_materialize y _).bind fun current => never_splice _ _ _ _ _

/-- A list of statements fails in one of them, behind those before it. -/
theorem fails_assignAll (sts : List Statement) : ∀ {scope : Scope Signal} {s : State},
    Fails (assignAll b scope sts) s e t ↔ ∃ pre st post scope' s', sts = pre ++ st :: post ∧
      Gives (assignAll b scope pre) s scope' s' ∧ Fails (assign b scope' st) s' e t := by
  induction sts with
  | nil =>
    intro scope s
    refine ⟨fun h => absurd h not_fails_pure, ?_⟩
    rintro ⟨pre, st, post, -, -, hsts, -⟩
    exact absurd hsts.symm (List.append_ne_nil_of_right_ne_nil _ (List.cons_ne_nil _ _))
  | cons st sts ih =>
    intro scope s
    rw [assignAll, fails_bind]
    constructor
    · rintro (h | ⟨scope₁, s₁, hst, h⟩)
      · exact ⟨[], st, sts, scope, s, rfl, gives_pure.2 ⟨rfl, rfl⟩, h⟩
      · obtain ⟨pre, st', post, scope', s', rfl, hpre, h⟩ := ih.1 h
        exact ⟨st :: pre, st', post, scope', s', rfl, gives_bind.2 ⟨scope₁, s₁, hst, hpre⟩, h⟩
    · rintro ⟨pre, st', post, scope', s', hsts, hpre, h⟩
      cases pre with
      | nil =>
        obtain ⟨rfl, rfl⟩ := List.cons.inj hsts
        obtain ⟨rfl, rfl⟩ := gives_pure.1 hpre
        exact .inl h
      | cons st₀ pre =>
        obtain ⟨rfl, rfl⟩ := List.cons.inj hsts
        obtain ⟨scope₁, s₁, hst, hpre⟩ := gives_bind.1 hpre
        exact .inr ⟨scope₁, s₁, hst, ih.2 ⟨pre, st', post, scope', s', rfl, hpre, h⟩⟩

/-- What follows the statements of a body never finds a module inside itself. -/
theorem fails_outerBody {args : List Wire} : Fails (outerBody b args) s (.recursiveInstantiation chain) t ↔
    Fails (assignAll b (argumentScope .empty b.module.inputs args) b.module.statements) s
      (.recursiveInstantiation chain) t := by
  refine fails_bind.trans (or_iff_left ?_)
  rintro ⟨scope, s₁, -, h⟩
  revert h
  exact ((never_outputs _).bind fun outs => (never_locals _).bind fun locs => never_resolveForwards _)
    s₁ chain t

theorem fails_netlist {earlier : List Callee} :
    Fails (netlist earlier m) (State.initial first) (.recursiveInstantiation chain) t ↔
      Fails (assignAll ⟨m, [m.name], visibleFrom earlier m⟩
        (argumentScope .empty m.inputs (inputWires 0 m.inputs)) m.statements)
        (State.outermost first m).inner (.recursiveInstantiation chain) t := by
  unfold netlist
  dsimp only
  rw [instantiate_nil]
  refine fails_bind.trans ((or_iff_left ?_).trans (fails_note_bind.trans (fails_enclosed.trans fails_outerBody)))
  rintro ⟨inst, s₁, -, h⟩
  rcases fails_bind.1 h with h | ⟨s₂, s₃, -, h⟩
  · cases h
  · exact not_fails_pure h

/-- The evaluation of the module's body comes to a call of the module. -/
def CallsItself (es : List Module) (m : Module) (first : Nat) : Prop :=
  ∃ pre st post scope s ws t, m.statements = pre ++ st :: post ∧ Reaches es m first pre scope s ∧
    Comes (bodyOf es m) scope m.name ws t (Module.wanted m st) st.expr s

/-- **A module is refused as a recursion exactly if it calls itself**, behind modules that have compiled. -/
theorem netlist_recursive (hcopies : ∀ c ∈ calleesOf es, c.Copies) :
    (∃ t, Fails (netlist (calleesOf es) m) (State.initial first) (.recursiveInstantiation chain) t) ↔
      chain = [m.name, m.name] ∧ CallsItself es m first := by
  constructor
  · rintro ⟨t, h⟩
    obtain ⟨pre, st, post, scope, s, hsts, hreach, h⟩ := (fails_assignAll _).1 (fails_netlist.1 h)
    have hreach : Reaches es m first pre scope s := hreach
    obtain ⟨-, ρ, hb, hs⟩ := hreach.sound
    obtain ⟨hchain, ws, hcomes⟩ := (comes_of_fails hb hcopies scope).1 _ _ s hs chain t (fails_assign.1 h)
    exact ⟨hchain, pre, st, post, scope, s, ws, t, hsts, hreach, hcomes⟩
  · rintro ⟨rfl, pre, st, post, scope, s, ws, t, hsts, hreach, hcomes⟩
    have hself : (bodyOf es m).callee? m.name = some (.recursive m) := by
      rw [bodyOf, callee?_visible, if_pos rfl]
    have hfails : Fails (assign (bodyOf es m) scope st) s (.recursiveInstantiation [m.name, m.name]) t :=
      fails_assign.2 (hcomes.fails hself rfl)
    exact ⟨t, fails_netlist.2 ((fails_assignAll _).2 ⟨pre, st, post, scope, s, hsts, hreach, hfails⟩)⟩

end Bodies

/-! ## Open instances -/

section Open

variable {ms es : List Module} {m d : Module} {chain : List String} {i j : Nat}

/-- **Open instances descend in the design.** -/
theorem Opened.around (hnodup : (ms.map Module.name).Nodup) (h : Opened ms es m chain) :
    Nesting.Around ms es.length chain := by
  have hplace : ∀ {es : List Module} {m : Module} {chain : List String}, Opened ms es m chain →
      ms[es.length]? = some m := by
    intro es m chain h
    obtain ⟨after, rfl⟩ := h.body
    rw [← List.length_reverse, List.getElem?_append_right (Nat.le_refl _), Nat.sub_self, List.getElem?_cons_zero]
  induction h with
  | outermost h => exact Nesting.around_outermost hnodup (hplace (.outermost h))
  | @inner es es' m d chain name outer hdrop ih =>
    have hlength : es'.length < es.length := by
      have hle := (List.dropWhile_sublist (l := es) (·.name ≠ name)).length_le
      rw [hdrop, List.length_cons] at hle
      exact hle
    exact (ih.opens hnodup (hplace (outer.inner hdrop)) hlength).2

/-- A module that stands later in the design cannot be called. -/
theorem Opened.not_defined (hnodup : (ms.map Module.name).Nodup) (h : Opened ms es m chain) (hm : ms[i]? = some m)
    (hd : ms[j]? = some d) (hij : i < j) : d.name ∉ definedFor es m := by
  obtain ⟨after, hms⟩ := h.body
  rw [← List.singleton_append, ← List.append_assoc] at hms
  -- `m` stands in the design once, so `d` stands behind it
  have hi : i = es.length := by
    have hplace : ms[es.length]? = some m := by
      rw [hms, List.getElem?_append_left (by simp), List.getElem?_append_right (by simp)]
      simp
    rw [← Nesting.placeOf_eq hnodup hm, Nesting.placeOf_eq hnodup hplace]
  have hafter : d ∈ after := by
    rw [hms, List.getElem?_append_right (by simp; omega)] at hd
    exact List.mem_of_getElem? hd
  rw [hms, List.map_append] at hnodup
  intro hmem
  have hbefore : d.name ∈ (es.reverse ++ [m]).map Module.name := by
    rw [definedFor] at hmem
    simpa [or_comm] using hmem
  exact (List.nodup_append.1 hnodup).2.2 _ hbefore _ (List.mem_map_of_mem hafter) rfl

end Open

end Elaboration

open Elaboration

namespace Ledger

variable {l : Ledger} {ms : List Module} {chain : List String}

/-- **A design is refused as a recursion exactly if one of its modules calls itself** behind others that compile. -/
theorem recursive_iff : (l.compile ms).result = .error (.recursiveInstantiation chain) ↔
    checkDesign ms = .ok () ∧ ∃ before m after ns, ms = before ++ m :: after ∧
      (compileFrom [] l.nextId before).result = .ok ns ∧ chain = [m.name, m.name] ∧
      CallsItself before.reverse m (l.nextId + nodeCount ns) := by
  have hcopies : ∀ {before : List Module} {ns : List Netlist}, (compileFrom [] l.nextId before).result = .ok ns →
      ∀ c ∈ calleesOf before.reverse, c.Copies := by
    intro before ns h
    have hcopies := copies_calleesOf before [] h (List.forall_mem_nil _)
    rwa [List.append_nil] at hcopies
  constructor
  · intro h
    have hcheck : checkDesign ms = .ok () := by
      cases hcheck : checkDesign ms with
      | error e =>
        rw [compile_of_error hcheck] at h
        cases h
        exact absurd (checkDesign_error hcheck) nofun
      | ok u => rfl
    rcases compile_fails h with ⟨hdesign, -⟩ | ⟨-, before, m, after, ns, hms, hbefore, -, hm, -⟩
    · exact absurd hdesign nofun
    · obtain ⟨hchain, hself⟩ := (netlist_recursive (hcopies hbefore)).1 ⟨_, Prod.ext hm rfl⟩
      exact ⟨hcheck, before, m, after, ns, hms, hbefore, hchain, hself⟩
  · rintro ⟨hcheck, before, m, after, ns, rfl, hbefore, hchain, hself⟩
    obtain ⟨t, hfails⟩ := (netlist_recursive (hcopies hbefore)).2 ⟨hchain, hself⟩
    obtain ⟨-, -, hnext⟩ := compileFrom_ok before [] hbefore
    have hrest : (compileFrom (calleesOf before.reverse) (l.nextId + nodeCount ns) (m :: after)).result =
        .error (.recursiveInstantiation chain) := by
      rw [compileFrom, show (netlist (calleesOf before.reverse) m).run _ = _ from hfails]
    have hfrom := compileFrom_append before (m :: after) [] l.nextId
    rw [calleesOf, tableOf, hbefore, List.append_nil] at hfrom
    dsimp only at hfrom
    rw [show (compileFrom [] l.nextId before).nextId = _ from hnext, hrest] at hfrom
    rw [compile_of_ok hcheck, hfrom]
    rfl

/-- **Elaboration comes to its end, and finds recursion exactly.** In any design, along the open instances the
places in the design decrease, so there are no more of them than modules, and what would be done otherwise does not
matter. The only recursion that is found is a module that calls itself, and it is found exactly if the evaluation
of a body comes to such a call. Two modules that call each other are none: the earlier one sees a black box. -/
theorem recursion_is_direct (l : Ledger) (ms : List Module) :
    (∀ beyond, Nesting.compile ms beyond l = l.compile ms) ∧
    (checkDesign ms = .ok () → ∀ es m chain, Opened ms es m chain → Nesting.Descending ms chain ∧
      ∀ (i j : Nat) (d : Module), ms[i]? = some m → ms[j]? = some d → i < j → isPrimitive d.name = false →
        ∀ scope want args, expr ⟨m, chain, visibleFrom (calleesOf es) m⟩ scope want (.call d.name args) = (do
          note (.undefinedModule d.name m.name)
          return .blackBox)) ∧
    ∀ chain, (l.compile ms).result = .error (.recursiveInstantiation chain) ↔
      checkDesign ms = .ok () ∧ ∃ before m after ns, ms = before ++ m :: after ∧
        (compileFrom [] l.nextId before).result = .ok ns ∧ chain = [m.name, m.name] ∧
        CallsItself before.reverse m (l.nextId + nodeCount ns) := by
  refine ⟨fun beyond => Nesting.compile_eq ms beyond l, fun hcheck es m chain hopened => ?_,
    fun chain => recursive_iff⟩
  obtain ⟨hnodup, -⟩ := checkDesign_ok hcheck
  refine ⟨(hopened.around hnodup).descending, fun i j d hm hd hij hprim scope want args => ?_⟩
  exact expr_undefined hprim (callee?_undefined (hopened.not_defined hnodup hm hd hij)) scope want args

/-- Two modules that call each other. The later one also calls itself, in an argument. -/
def ping : Module :=
  ⟨"Ping", [⟨"a", 1⟩], [⟨"y", 1⟩], [⟨⟨"y", none⟩, .call "Pong" [.identifier "a"]⟩]⟩

def pong : Module :=
  ⟨"Pong", [⟨"a", 1⟩], [⟨"y", 1⟩],
    [⟨⟨"x", none⟩, .call "Ping" [.identifier "a"]⟩,
      ⟨⟨"y", none⟩, .call "Ping" [.call "Pong" [.identifier "x"]]⟩]⟩

theorem pong_is_refused : (({} : Ledger).compile [ping, pong]).result =
    .error (.recursiveInstantiation ["Pong", "Pong"]) := by decide +kernel

theorem pong_calls_itself : checkDesign [ping, pong] = .ok () ∧
    (∃ before m after ns, [ping, pong] = before ++ m :: after ∧ (compileFrom [] 0 before).result = .ok ns ∧
      ["Pong", "Pong"] = [m.name, m.name] ∧ CallsItself before.reverse m (0 + nodeCount ns)) ∧
    Nesting.Descending [ping, pong] ["Ping", "Pong"] ∧
    ∀ scope want args,
      expr ⟨ping, ["Ping", "Pong"], visibleFrom (calleesOf []) ping⟩ scope want (.call "Pong" args) = (do
        note (.undefinedModule "Pong" "Ping")
        return .blackBox) := by
  obtain ⟨-, hopen, hrecursive⟩ := recursion_is_direct {} [ping, pong]
  obtain ⟨hcheck, hself⟩ := (hrecursive _).1 pong_is_refused
  have hpong : Opened [ping, pong] [ping] pong ["Pong"] := @Opened.outermost _ [ping] _ [] rfl
  have hping : Opened [ping, pong] [] ping ["Ping", "Pong"] := @Opened.inner _ _ _ _ _ _ "Ping" hpong rfl
  obtain ⟨hdescending, hlater⟩ := hopen hcheck [] ping _ hping
  exact ⟨hcheck, hself, hdescending, hlater 0 1 pong rfl rfl (by decide) (by decide)⟩

end Ledger

end NandHdl
