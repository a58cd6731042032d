import NandHdl.Proofs.Degrading
import NandHdl.Proofs.Foreseen

/-!
# The statements of a body, one after another

* `Reaches`: what is bound after the first statements of a module, and the state then.
* `reaches_snoc`: one statement more.
* `Reaches.unassigned`: what is not assigned is not bound, inputs apart.
* `Reaches.sound`: what is bound can be named.
* `Prophecy.present`, `stayOpen_expr`: slots that are open stay open.
* `exists_reaches`: **every statement of a compiled design is reached.**
* `Reaches.stayOpen`: the end of the body from there.
-/

namespace NandHdl

namespace Elaboration

/-- After the statements `sts` of the module `m`, behind the modules `es`, elaboration is in the state `s` with
the bindings `scope`. Nodes are numbered from `first` on. -/
def Reaches (es : List Module) (m : Module) (first : Nat) (sts : List Statement) (scope : Scope Signal)
    (s : State) : Prop :=
  Gives (assignAll (bodyOf es m) (argumentScope .empty m.inputs (inputWires 0 m.inputs)) sts)
    (State.outermost first m).inner scope s

section Reaching

variable {es : List Module} {m : Module} {first : Nat} {pre post : List Statement} {st : Statement} {b : Body}
  {scope scope' : Scope Signal} {s s' : State}

theorem gives_assignAll_append : Gives (assignAll b scope (pre ++ post)) s scope' s' ↔
    ∃ mid s₁, Gives (assignAll b scope pre) s mid s₁ ∧ Gives (assignAll b mid post) s₁ scope' s' := by
  induction pre generalizing scope s with
  | nil =>
    constructor
    · exact fun h => ⟨scope, s, gives_pure.2 ⟨rfl, rfl⟩, h⟩
    · rintro ⟨mid, s₁, hmid, h⟩
      obtain ⟨rfl, rfl⟩ := gives_pure.1 hmid
      exact h
  | cons st pre ih =>
    rw [List.cons_append, assignAll, assignAll, gives_bind]
    simp only [gives_bind, ih]
    constructor
    · rintro ⟨next, s₁, hnext, mid, s₂, hmid, h⟩
      exact ⟨mid, s₂, ⟨next, s₁, hnext, hmid⟩, h⟩
    · rintro ⟨mid, s₂, ⟨next, s₁, hnext, hmid⟩, h⟩
      exact ⟨next, s₁, hnext, mid, s₂, hmid, h⟩

/-- One statement more. -/
theorem reaches_snoc : Reaches es m first (pre ++ [st]) scope' s' ↔
    ∃ scope s, Reaches es m first pre scope s ∧ Gives (assign (bodyOf es m) scope st) s scope' s' := by
  refine gives_assignAll_append.trans (exists₂_congr fun scope s => and_congr_right fun _ => ?_)
  constructor
  · intro h
    obtain ⟨next, s₁, hnext, h⟩ := gives_bind.1 h
    obtain ⟨rfl, rfl⟩ := gives_pure.1 h
    exact hnext
  · exact fun h => gives_bind.2 ⟨scope', s', h, gives_pure.2 ⟨rfl, rfl⟩⟩

/-- The arguments are bound as wires. -/
theorem wire_of_argumentScope {name : String} {x : Signal} {ps : List Port} {ws : List Wire}
    (h : (argumentScope scope ps ws).lookup name = some x) :
    (∃ w, x = .wire w) ∨ scope.lookup name = some x := by
  induction ps generalizing scope ws with
  | nil => exact .inr h
  | cons p ps ih =>
    cases ws with
    | nil => exact .inr h
    | cons w ws =>
      rcases ih h with hwire | hbound
      · exact .inl hwire
      · rw [Scope.lookup_bind] at hbound
        split at hbound
        · exact .inl ⟨_, (Option.some.inj hbound).symm⟩
        · exact .inr hbound

/-- A name that is not assigned yet is not bound, or it is bound to the wire of an input. -/
theorem Reaches.unassigned (h : Reaches es m first pre scope s) {name : String}
    (hpre : name ∉ pre.map (·.target.name)) :
    scope.lookup name = none ∨ ∃ w, scope.lookup name = some (.wire w) := by
  rw [lookup_assignAll pre h hpre]
  cases hx : (argumentScope .empty m.inputs (inputWires 0 m.inputs)).lookup name with
  | none => exact .inl rfl
  | some x =>
    rcases wire_of_argumentScope hx with ⟨w, rfl⟩ | hbound
    · exact .inr ⟨w, rfl⟩
    · cases hbound

/-- No slots lie below the body, and what is bound can be named in the state that is reached. -/
theorem Reaches.sound (h : Reaches es m first pre scope s) : s.slotBase = 0 ∧
    ∃ ρ : Renaming, ρ.Bodies (bodyOf es m) (bodyOf es m) ∧ ρ.SoundWith scope s := by
  obtain ⟨ρ, hfirst, hwidth⟩ := exists_renaming first (m.inputs.map Port.width).sum
  have hb : ρ.Bodies (bodyOf es m) (bodyOf es m) :=
    bodies_visible (follows_calleesOf ρ es) m (List.cons_ne_nil m.name []) (List.cons_ne_nil m.name [])
  have hstart := Renaming.all_start (known_inputWires (s := (State.outermost first m).inner) hwidth) m.inputs
  obtain ⟨hgrow, hs, hscope, -⟩ := Renaming.sim_assignAll hb pre hstart (sound_outermost hfirst) scope s h
  exact ⟨hgrow.slotBase, ρ, hb, hs, hscope⟩

/-- A prophecy that knows the present bindings only. It is good for what does not depend on the end. -/
def Prophecy.present (scope : Scope Signal) : Prophecy where
  last := scope
  slots := #[]
  bit c := if c.slotBelow 0 then c else .const false
  kept _ hc := if_pos hc
  settles c := by
    split
    · assumption
    · rfl
  slot k x hk := by
    rw [Array.getElem?_empty] at hk
    cases hk

theorem Prophecy.Knows.present (scope : Scope Signal) :
    (Prophecy.present scope).Knows ⟨(Prophecy.present scope).final, []⟩ scope := ⟨rfl, fun _ _ hx _ => hx⟩

/-- Slots that are open stay open while an expression is elaborated. -/
theorem stayOpen_expr {ρ : Renaming} (hb : ρ.Bodies b b) (hcalls : ∀ c ∈ b.callees, c.Copying)
    (hs : ρ.SoundWith scope s) {want : Option Nat} {e : Expr} {x : Signal}
    (h : Gives (expr b scope want e) s x s') : StayOpen s.slots s'.slots :=
  (Prophecy.foretold_expr hb hcalls (.present scope) hs want e x s' h).1

variable {l : Ledger} {ms : List Module} {lib : Library}

/-- The body of a module of a compiled design comes to its end. -/
theorem exists_openBody (h : (l.compile ms).result = .ok lib) {k : Nat} (hm : ms[k]? = some m) :
    ∃ last inst t, Gives (openBody (bodyOf (ms.take k).reverse m) (inputWires 0 m.inputs))
        (State.outermost (l.nextId + nodeCount (lib.netlists.take k).reverse) m).inner (last, inst) t ∧
      NoneDangling last t inst := by
  obtain ⟨n, hn⟩ := exists_netlist h hm
  obtain ⟨u, hu⟩ := (instances_are_copies h hm hn).own
  obtain ⟨i, v, hrun, -⟩ := outerBody_of_netlist hu
  rw [outerBody_eq] at hrun
  obtain ⟨⟨last, inst⟩, t, hopen, hresolve⟩ := gives_bind.1 hrun
  exact ⟨last, inst, t, hopen, noneDangling_of_gives hresolve⟩

/-- **Every statement of a compiled design is reached.** -/
theorem exists_reaches (h : (l.compile ms).result = .ok lib) {k : Nat} (hm : ms[k]? = some m)
    (hbody : m.statements = pre ++ post) :
    ∃ scope s, Reaches (ms.take k).reverse m (l.nextId + nodeCount (lib.netlists.take k).reverse) pre scope s := by
  obtain ⟨last, inst, t, hopen, -⟩ := exists_openBody h hm
  obtain ⟨_, s₁, hassign, -⟩ := gives_bind.1 hopen
  have hassign : Reaches _ m _ m.statements _ s₁ := hassign
  rw [hbody] at hassign
  obtain ⟨scope, s, hreach, -⟩ := gives_assignAll_append.1 hassign
  exact ⟨scope, s, hreach⟩

/-- **What is open after some statements is open at the end of the body**, where no slot is left dangling. -/
theorem Reaches.stayOpen {k : Nat} (h : (l.compile ms).result = .ok lib) (hm : ms[k]? = some m)
    (hbody : m.statements = pre ++ post)
    (hreach : Reaches (ms.take k).reverse m (l.nextId + nodeCount (lib.netlists.take k).reverse) pre scope s) :
    ∃ last inst t, Gives (openBody (bodyOf (ms.take k).reverse m) (inputWires 0 m.inputs))
        (State.outermost (l.nextId + nodeCount (lib.netlists.take k).reverse) m).inner (last, inst) t ∧
      NoneDangling last t inst ∧ s.slotBase = 0 ∧ t.slotBase = 0 ∧ StayOpen s.slots t.slots := by
  obtain ⟨last, inst, t, hopen, hnone⟩ := exists_openBody h hm
  refine ⟨last, inst, t, hopen, hnone, ?_⟩
  obtain ⟨_, s₁, hassign, hrest⟩ := gives_bind.1 hopen
  obtain ⟨outs, s₂, houts, hrest⟩ := gives_bind.1 hrest
  obtain ⟨locs, _, hlocs, hrest⟩ := gives_bind.1 hrest
  obtain ⟨heq, rfl⟩ := gives_pure.1 hrest
  cases heq
  -- the rest of the body goes on from the state that is reached
  have hassign : Reaches _ m _ m.statements last s₁ := hassign
  rw [hbody] at hassign
  obtain ⟨scope', s', hreach', hpost⟩ := gives_assignAll_append.1 hassign
  obtain ⟨rfl, rfl⟩ := Gives.unique hreach hreach'
  obtain ⟨hbase, ρ, hb, hs⟩ := hreach.sound
  obtain ⟨hkept, -⟩ := Prophecy.foretold_assignAll (p := .present last) hb
    (copying_visible (copying_calleesOf h k) m) post hs hpost
  obtain ⟨hgrow, -⟩ := Renaming.sim_assignAll hb post hs.known hs.sound last s₁ hpost
  obtain ⟨honly, -⟩ := Prophecy.shows_outputs (.present last) m.outputs outs s₂ houts
  have hend := honly.trans (onlySlots_locals hlocs)
  exact ⟨hbase, hend.slotBase.trans (hgrow.slotBase.trans hbase), hkept.trans hend.kept⟩

end Reaching

end Elaboration

end NandHdl
