import Mathlib
import NandHdl.Elaboration.Compile
import NandHdl.Proofs.Bindings

/-!
# Runs of elaboration

* `Gives`: a step of elaboration succeeds with this result and this state.
* `gives_bind`: the successful runs of a sequence.
* `Fails`: a step fails with this error. `fails_bind`: the first of two steps fails, or the second one does.
* `Wire.All`, `Signal.All`, `Scope.All`: a property of all bits.
* `Signal.map`, `Scope.map`: other bits in place of the bits.
* `follow_replace`, `follow_map`: following names looks at no bit.
* `outputs_cons`, `locals_cons`: what a body offers, one name after another.
* `tableOf`, `calleesOf`: what the modules before a module give, the last one first.
* `callee?_visible`: what a body may call.
* `Scope.Within`: only names that a module knows are bound.
-/

namespace NandHdl

/-! ## All bits -/

section All

variable {P Q : Bit → Prop} {w : Wire}

/-- All bits of a wire have the property. -/
def Wire.All (P : Bit → Prop) (w : Wire) : Prop := ∀ b ∈ w.bits, P b

/-- All bits of a signal have the property. -/
def Signal.All (P : Bit → Prop) : Signal → Prop
  | .wire w => w.All P
  | .bundle fields => ∀ f ∈ fields, f.2.All P
  | _ => True

/-- All bits of all bindings have the property. -/
def Scope.All (P : Bit → Prop) (scope : Scope Signal) : Prop := ∀ e ∈ scope.newestFirst, e.2.All P

/-- All bits that a cell reads have the property. -/
def Cell.All (P : Bit → Prop) (c : Cell) : Prop := ∀ b ∈ c.inputs, P b

theorem Wire.All.imp (h : ∀ b, P b → Q b) (hw : w.All P) : w.All Q := fun b hb => h b (hw b hb)

theorem Signal.All.imp {s : Signal} (h : ∀ b, P b → Q b) (hs : s.All P) : s.All Q := by
  cases s with
  | wire w => exact Wire.All.imp h hs
  | bundle fields => exact fun f hf => (hs f hf).imp h
  | _ => trivial

theorem Scope.All.imp {scope : Scope Signal} (h : ∀ b, P b → Q b) (hs : scope.All P) : scope.All Q :=
  fun e he => (hs e he).imp h

theorem Cell.All.imp {c : Cell} (h : ∀ b, P b → Q b) (hc : c.All P) : c.All Q :=
  fun b hb => h b (hc b hb)

theorem Wire.All.bitOrZero (h0 : P (.const false)) (hw : w.All P) (i : Nat) : P (w.bitOrZero i) := by
  rw [Wire.bitOrZero, Array.getD_eq_getD_getElem?]
  cases h : w.bits[i]? with
  | none => exact h0
  | some b => exact hw b (Array.mem_of_getElem? h)

theorem Wire.all_ofFn {n : Nat} {f : Nat → Bit} (h : ∀ i < n, P (f i)) : (Wire.ofFn n f).All P := by
  intro b hb
  obtain ⟨i, rfl⟩ := Array.mem_ofFn.1 hb
  exact h i i.isLt

theorem Wire.all_zeros (h0 : P (.const false)) (n : Nat) : (Wire.zeros n).All P := by
  intro b hb
  rw [Array.eq_of_mem_replicate hb]
  exact h0

theorem Wire.all_constant (h : ∀ v, P (.const v)) (value n : Nat) : (Wire.constant value n).All P :=
  Wire.all_ofFn fun _ _ => h _

theorem Wire.All.fit (h0 : P (.const false)) (hw : w.All P) (n : Nat) : (w.fit n).All P :=
  Wire.all_ofFn fun i _ => hw.bitOrZero h0 i

theorem Wire.All.extract (h0 : P (.const false)) (hw : w.All P) (lo n : Nat) : (w.extract lo n).All P :=
  Wire.all_ofFn fun i _ => hw.bitOrZero h0 (lo + i)

theorem Wire.All.splice {part : Wire} (h0 : P (.const false)) (hw : w.All P) (hp : part.All P) (lo : Nat) :
    (w.splice lo part).All P := by
  refine Wire.all_ofFn fun i _ => ?_
  split
  · exact hp.bitOrZero h0 _
  · exact hw.bitOrZero h0 i

theorem Signal.All.wire? {s : Signal} (hs : s.All P) (h : s.wire? = some w) : w.All P := by
  unfold Signal.wire? at h
  split at h
  · cases h; exact hs
  · cases h; exact hs (_, w) (List.mem_singleton.2 rfl)
  · cases h

theorem Signal.All.bitOrZero {s : Signal} (h : ∀ v, P (.const v)) (hs : s.All P) (i : Nat) :
    P (s.bitOrZero i) := by
  unfold Signal.bitOrZero
  split
  · exact h _
  · split
    · next w hw => exact (hs.wire? hw).bitOrZero (h false) i
    · exact h false

theorem Scope.all_empty : Scope.empty.All P := nofun

theorem Scope.All.lookup {scope : Scope Signal} {name : String} {s : Signal} (hscope : scope.All P)
    (h : scope.lookup name = some s) : s.All P := hscope _ (Scope.mem_of_lookup h)

theorem Scope.All.bind {scope : Scope Signal} {s : Signal} (hscope : scope.All P) (hs : s.All P)
    (name : String) : (scope.bind name s).All P := by
  intro e he
  rcases List.mem_cons.1 he with rfl | he
  · exact hs
  · exact hscope e he

theorem Scope.All.without {scope : Scope Signal} (hscope : scope.All P) (name : String) :
    (scope.without name).All P := fun e he => hscope e (List.mem_filter.1 he).1

theorem Scope.All.latest {scope : Scope Signal} (h : scope.All P) : ∀ e ∈ scope.latest, e.2.All P :=
  fun e he => h e (Scope.mem_of_mem_latest he)

/-- Following names leads to bits of the scope. -/
theorem Signal.All.follow {scope : Scope Signal} {s : Signal} (hscope : scope.All P) (hs : s.All P) :
    (follow scope s).All P := by
  unfold NandHdl.follow
  -- the fuel is that of the first scope, which loses a name with every step
  generalize scope.newestFirst.length = fuel
  induction fuel generalizing scope s with
  | zero => exact hs
  | succ fuel ih =>
    cases s with
    | forward name =>
      cases h : scope.lookup name with
      | none => simp only [followWithin, h]; trivial
      | some t =>
        simp only [followWithin, h]
        exact ih (hscope.without name) (hscope.lookup h)
    | _ => exact hs

end All

/-! ## Other bits -/

section Map

variable {f : Bit → Bit}

/-- The signal with `f` applied to every bit. -/
def Signal.map (f : Bit → Bit) : Signal → Signal
  | .wire w => .wire (w.map f)
  | .bundle fields => .bundle (fields.map fun e => (e.1, e.2.map f))
  | s => s

/-- The scope with `f` applied to every value. -/
def Scope.map {α β : Type} (f : α → β) (scope : Scope α) : Scope β :=
  ⟨scope.newestFirst.map fun e => (e.1, f e.2)⟩

theorem Wire.bitOrZero_map (h0 : f (.const false) = .const false) (w : Wire) (i : Nat) :
    (w.map f).bitOrZero i = f (w.bitOrZero i) := by
  rw [Wire.bitOrZero, Wire.bitOrZero, Wire.map, Array.getD_eq_getD_getElem?, Array.getD_eq_getD_getElem?,
    Array.getElem?_map]
  cases w.bits[i]? with
  | none => exact h0.symm
  | some b => rfl

theorem Wire.map_ofFn (n : Nat) (g : Nat → Bit) : (Wire.ofFn n g).map f = Wire.ofFn n fun i => f (g i) := by
  rw [Wire.map, Wire.ofFn, Wire.ofFn]
  congr 1
  exact Array.map_ofFn ..

theorem Wire.map_zeros (h0 : f (.const false) = .const false) (n : Nat) :
    (Wire.zeros n).map f = Wire.zeros n := by
  rw [Wire.map, Wire.zeros, Array.map_replicate, h0]

theorem Wire.map_constant (h : ∀ v, f (.const v) = .const v) (value n : Nat) :
    (Wire.constant value n).map f = Wire.constant value n := by
  rw [Wire.constant, Wire.map_ofFn]
  simp only [h]

theorem Wire.map_fit (h0 : f (.const false) = .const false) (w : Wire) (n : Nat) :
    (w.fit n).map f = (w.map f).fit n := by
  rw [Wire.fit, Wire.map_ofFn, Wire.fit]
  congr 1
  funext i
  exact (Wire.bitOrZero_map h0 w i).symm

theorem Wire.map_extract (h0 : f (.const false) = .const false) (w : Wire) (lo n : Nat) :
    (w.extract lo n).map f = (w.map f).extract lo n := by
  rw [Wire.extract, Wire.extract, Wire.map_ofFn]
  simp only [Wire.bitOrZero_map h0]

theorem Wire.map_splice (h0 : f (.const false) = .const false) (w part : Wire) (lo : Nat) :
    (w.splice lo part).map f = (w.map f).splice lo (part.map f) := by
  rw [Wire.splice, Wire.map_ofFn, Wire.splice, Wire.width_map, Wire.width_map]
  congr 1
  funext i
  split
  · exact (Wire.bitOrZero_map h0 part _).symm
  · exact (Wire.bitOrZero_map h0 w i).symm

theorem Wire.All.map {P : Bit → Prop} {w : Wire} (h : w.All fun b => P (f b)) : (w.map f).All P := by
  intro b hb
  obtain ⟨c, hc, rfl⟩ := Array.mem_map.1 hb
  exact h c hc

theorem Cell.inputs_map (c : Cell) : (c.map f).inputs = c.inputs.map f := by
  cases c <;> rfl

theorem Cell.All.map {P : Bit → Prop} {c : Cell} (h : c.All fun b => P (f b)) : (c.map f).All P := by
  intro b hb
  rw [Cell.inputs_map] at hb
  obtain ⟨d, hd, rfl⟩ := List.mem_map.1 hb
  exact h d hd

theorem Cell.map_map {g : Bit → Bit} (c : Cell) : (c.map f).map g = c.map fun b => g (f b) := by
  cases c <;> rfl

theorem Wire.map_map {g : Bit → Bit} (w : Wire) : (w.map f).map g = w.map fun b => g (f b) := by
  rw [Wire.map, Wire.map, Wire.map, Array.map_map]
  rfl

theorem Wire.map_congr {g : Bit → Bit} {w : Wire} (h : w.All fun b => f b = g b) : w.map f = w.map g := by
  rw [Wire.map, Wire.map, Array.map_congr_left h]

theorem Cell.map_congr {g : Bit → Bit} {c : Cell} (h : c.All fun b => f b = g b) : c.map f = c.map g := by
  cases c with
  | nand a b => rw [Cell.map, Cell.map, h a (by simp [Cell.inputs]), h b (by simp [Cell.inputs])]
  | dff d clk => rw [Cell.map, Cell.map, h d (by simp [Cell.inputs]), h clk (by simp [Cell.inputs])]

theorem Signal.wire?_map (s : Signal) : (s.map f).wire? = s.wire?.map (Wire.map f) := by
  cases s with
  | bundle fields =>
    match fields with
    | [] => rfl
    | [_] => rfl
    | _ :: _ :: _ => rfl
  | _ => rfl

theorem Signal.bitOrZero_map (h : ∀ v, f (.const v) = .const v) (s : Signal) (i : Nat) :
    (s.map f).bitOrZero i = f (s.bitOrZero i) := by
  cases s with
  | wire w => exact Wire.bitOrZero_map (h false) w i
  | bundle fields =>
    match fields with
    | [] => exact (h false).symm
    | [(_, w)] => exact Wire.bitOrZero_map (h false) w i
    | _ :: _ :: _ => exact (h false).symm
  | _ => exact (h _).symm

theorem Signal.naturalWidth_map (s : Signal) : (s.map f).naturalWidth = s.naturalWidth := by
  cases s <;> rfl

theorem Scope.lookup_map {α β : Type} (g : α → β) (scope : Scope α) (name : String) :
    (scope.map g).lookup name = (scope.lookup name).map g := by
  obtain ⟨bs⟩ := scope
  simp only [Scope.lookup, Scope.map]
  induction bs with
  | nil => rfl
  | cons b bs ih =>
    simp only [List.map_cons, Scope.lookupIn, ih]
    split <;> rfl

theorem Scope.without_map {α β : Type} (g : α → β) (scope : Scope α) (name : String) :
    (scope.map g).without name = (scope.without name).map g := by
  simp only [Scope.without, Scope.map, List.filter_map]
  rfl

theorem Scope.map_bind {α β : Type} (g : α → β) (scope : Scope α) (name : String) (value : α) :
    (scope.bind name value).map g = (scope.map g).bind name (g value) := rfl

theorem Scope.update_map {α β : Type} (g : α → β) (name : String) (value : α) (found : List (String × α)) :
    Scope.update name (g value) (found.map fun e => (e.1, g e.2)) =
      (Scope.update name value found).map fun e => (e.1, g e.2) := by
  induction found with
  | nil => rfl
  | cons e found ih =>
    rw [List.map_cons, Scope.update, Scope.update, ih]
    split <;> rfl

theorem Scope.latest_map {α β : Type} (g : α → β) (scope : Scope α) :
    (scope.map g).latest = scope.latest.map fun e => (e.1, g e.2) := by
  have hfold : ∀ (es : List (String × α)) (found : List (String × α)),
      (es.map fun e => (e.1, g e.2)).foldl (fun found b => Scope.update b.1 b.2 found)
        (found.map fun e => (e.1, g e.2)) =
      (es.foldl (fun found b => Scope.update b.1 b.2 found) found).map fun e => (e.1, g e.2) := by
    intro es
    induction es with
    | nil => exact fun _ => rfl
    | cons e es ih =>
      intro found
      rw [List.map_cons, List.foldl_cons, List.foldl_cons, ← ih, ← Scope.update_map]
  have h := hfold scope.newestFirst.reverse []
  rw [List.map_reverse] at h
  exact h

/-- What is no name read early stays as it is. -/
theorem followWithin_of_ne {s : Signal} (h : ∀ name, s ≠ .forward name) (fuel : Nat) (scope : Scope Signal) :
    followWithin fuel scope s = s := by
  cases s with
  | forward name => exact absurd rfl (h name)
  | _ => cases fuel <;> rfl

/-- Following names is the same with other signals in place of those that are no such names. -/
theorem follow_replace {g : Signal → Signal} (hg : ∀ s name, g s = .forward name ↔ s = .forward name)
    (scope : Scope Signal) (s : Signal) : follow (scope.map g) (g s) = g (follow scope s) := by
  unfold follow
  rw [show (scope.map g).newestFirst.length = scope.newestFirst.length from List.length_map _]
  -- one fuel for both, so that the induction leaves it alone
  generalize scope.newestFirst.length = fuel
  induction fuel generalizing scope s with
  | zero => rfl
  | succ fuel ih =>
    by_cases hs : ∃ name, s = .forward name
    · obtain ⟨name, rfl⟩ := hs
      rw [(hg _ name).2 rfl]
      simp only [followWithin, Scope.lookup_map]
      cases scope.lookup name with
      | none => exact ((hg _ name).2 rfl).symm
      | some t =>
        rw [Option.map_some, Scope.without_map]
        exact ih (scope.without name) t
    · have hne : ∀ name, s ≠ .forward name := fun name h => hs ⟨name, h⟩
      rw [followWithin_of_ne hne, followWithin_of_ne fun name h => hne name ((hg s name).1 h)]

theorem follow_map (scope : Scope Signal) (s : Signal) :
    follow (scope.map (Signal.map f)) (s.map f) = (follow scope s).map f :=
  follow_replace (fun s name => by cases s <;> simp [Signal.map]) scope s

theorem knownWidth_map (scope : Scope Signal) (s : Signal) :
    knownWidth (scope.map (Signal.map f)) (s.map f) = knownWidth scope s := by
  rw [knownWidth, knownWidth, follow_map, Signal.wire?_map, Option.map_map]
  congr 1
  funext w
  exact Wire.width_map f w

end Map

/-! ## Runs -/

namespace Elaboration

variable {α β : Type}

/-- The number of the first slot that is not open. -/
def State.limit (s : State) : Nat := s.slotBase + s.slots.size

/-- From state `s` the step succeeds with result `a` and state `s'`. -/
def Gives (x : Build α) (s : State) (a : α) (s' : State) : Prop := ExceptT.run x s = (.ok a, s')

@[simp] theorem gives_pure {a b : α} {s s' : State} : Gives (pure a) s b s' ↔ b = a ∧ s' = s := by
  change (Except.ok a, s) = (Except.ok b, s') ↔ _
  simp only [Prod.mk.injEq, Except.ok.injEq]
  exact and_congr eq_comm eq_comm

/-- A failure keeps its state, and otherwise the second step goes on from there. -/
theorem run_bind (x : Build α) (g : α → Build β) (s : State) :
    ExceptT.run (x >>= g) s = match ExceptT.run x s with
      | (.ok a, s') => ExceptT.run (g a) s'
      | (.error e, s') => (.error e, s') := by
  change ExceptT.bindCont g (ExceptT.run x s).1 (ExceptT.run x s).2 = _
  rcases ExceptT.run x s with ⟨_ | a, s'⟩ <;> rfl

theorem gives_bind {x : Build α} {g : α → Build β} {b : β} {s s'' : State} :
    Gives (x >>= g) s b s'' ↔ ∃ a s', Gives x s a s' ∧ Gives (g a) s' b s'' := by
  rw [Gives, run_bind]
  constructor
  · intro h
    cases hx : ExceptT.run x s with
    | mk r s' =>
      rw [hx] at h
      cases r with
      | error e => cases h
      | ok a => exact ⟨a, s', hx, h⟩
  · rintro ⟨a, s', hx, hg⟩
    rw [Gives] at hx
    rw [hx]
    exact hg

theorem not_gives_throw {e : CompileError} {a : α} {s s' : State} : ¬ Gives (throw e : Build α) s a s' := by
  intro h
  cases h

theorem gives_modifyGet {g : State → α × State} {a : α} {s s' : State} :
    Gives (modifyGet g : Build α) s a s' ↔ g s = (a, s') := by
  change (Except.ok (g s).1, (g s).2) = (Except.ok a, s') ↔ _
  rw [Prod.mk.injEq, Except.ok.injEq, ← Prod.mk.injEq]

theorem gives_modify {g : State → State} {u : Unit} {s s' : State} :
    Gives (modify g : Build Unit) s u s' ↔ s' = g s := by
  change (Except.ok (), g s) = (Except.ok u, s') ↔ _
  rw [Prod.mk.injEq, eq_comm (b := s')]
  exact ⟨fun h => h.2, fun h => ⟨rfl, h⟩⟩

theorem gives_get {a s s' : State} : Gives (get : Build State) s a s' ↔ a = s ∧ s' = s := by
  change (Except.ok s, s) = (Except.ok a, s') ↔ _
  rw [Prod.mk.injEq, Except.ok.injEq, eq_comm (b := a), eq_comm (b := s')]

/-- A run has one outcome. -/
theorem Gives.unique {x : Build α} {a b : α} {s s' s'' : State} (h : Gives x s a s')
    (h' : Gives x s b s'') : a = b ∧ s' = s'' := by
  rw [Gives] at h h'
  rw [h, Prod.mk.injEq, Except.ok.injEq] at h'
  exact h'

theorem gives_note {e : Event} {u : Unit} {s s' : State} :
    Gives (note e) s u s' ↔ s' = { s with log := e :: s.log } := gives_modify

/-- From state `s` the step fails with an error and leaves state `s'`. -/
def Fails (x : Build α) (s : State) (e : CompileError) (s' : State) : Prop := ExceptT.run x s = (.error e, s')

section Failures

variable {x : Build α} {g : α → Build β} {s s' : State} {e e' : CompileError}

theorem not_fails_pure {a : α} : ¬ Fails (pure a) s e s' := nofun

theorem fails_throw : Fails (throw e : Build α) s e' s' ↔ e' = e ∧ s' = s := by
  change (Except.error e, s) = (Except.error e', s') ↔ _
  simp only [Prod.mk.injEq, Except.error.injEq]
  exact and_congr eq_comm eq_comm

/-- The first of two steps fails, or the second one does behind it. -/
theorem fails_bind : Fails (x >>= g) s e s' ↔
    Fails x s e s' ∨ ∃ a s₁, Gives x s a s₁ ∧ Fails (g a) s₁ e s' := by
  rw [Fails, run_bind]
  cases hx : ExceptT.run x s with
  | mk r s₁ =>
    cases r with
    | error e₁ =>
      constructor
      · intro h
        cases h
        exact .inl hx
      · rintro (h | ⟨a, s₂, h, -⟩)
        · cases hx.symm.trans h
          rfl
        · cases hx.symm.trans h
    | ok a =>
      refine ⟨fun h => .inr ⟨a, s₁, hx, h⟩, ?_⟩
      rintro (h | ⟨a', s₂, h, hg⟩)
      · cases hx.symm.trans h
      · cases hx.symm.trans h
        exact hg

/-- A step that gives a result does not fail. -/
theorem Gives.not_fails {a : α} {s₁ : State} (h : Gives x s a s₁) : ¬ Fails x s e s' := fun hfails => by
  rw [Gives, hfails] at h
  cases h

theorem fails_note_bind {event : Event} {x : Build α} :
    Fails (do note event; x) s e s' ↔ Fails x { s with log := event :: s.log } e s' := by
  refine fails_bind.trans ⟨?_, fun h => .inr ⟨(), _, gives_note.2 rfl, h⟩⟩
  rintro (h | ⟨u, s₁, hnote, h⟩)
  · cases h
  · cases gives_note.1 hnote
    exact h

end Failures

/-! ## What a finished body offers -/

/-- The wire of one output. -/
def outputWire (b : Body) (scope : Scope Signal) (p : Port) : Build Wire :=
  match scope.lookup p.name with
  | some s => fitted b scope s p.width
  | none => do
    note (.unassignedOutput p.name b.module.name)
    pure (.zeros p.width)

theorem outputs_cons (b : Body) (scope : Scope Signal) (p : Port) (ps : List Port) :
    outputs b scope (p :: ps) = (do
      let w ← outputWire b scope p
      return (p.name, w) :: (← outputs b scope ps)) := by
  rw [outputs]
  unfold outputWire
  cases scope.lookup p.name with
  | some s => rfl
  | none => simp only [bind_assoc, pure_bind]

/-- The wires that one binding names. -/
def wiresOf (b : Body) (scope : Scope Signal) (name : String) (x : Signal) :
    Build (List (String × Wire)) :=
  match follow scope x with
  | .bundle [(_, w)] => pure [(name, w)]
  | .bundle fields => pure (fields.map fun f => (name ++ "." ++ f.1, f.2))
  | s => do pure [(name, ← materialize b scope s none)]

theorem locals_cons (b : Body) (scope : Scope Signal) (name : String) (x : Signal)
    (xs : List (String × Signal)) : locals b scope ((name, x) :: xs) = (do
      let here ← wiresOf b scope name x
      return here ++ (← locals b scope xs)) := by
  rw [locals]
  unfold wiresOf
  cases follow scope x with
  | bundle fields =>
    match fields with
    | [] => rfl
    | [_] => rfl
    | _ :: _ :: _ => rfl
  | _ => simp only [bind_assoc, pure_bind]

end Elaboration

/-! ## The modules before a module -/

section Tables

variable {α : Type}

/-- What `make` gives for each of the modules `es`, the last one first, from what it gives for those before
that module. -/
def tableOf (make : List α → Module → α) : List Module → List α
  | [] => []
  | m :: es => make (tableOf make es) m :: tableOf make es

/-- The modules `es` as a later one sees them. -/
def Elaboration.calleesOf (es : List Module) : List Elaboration.Callee :=
  tableOf Elaboration.Callee.ofModule es

/-- A name stands for the last module that has it. -/
theorem find?_tableOf (make : List α → Module → α) (nameOf : α → String)
    (hname : ∀ table m, nameOf (make table m) = m.name) (es : List Module) (name : String) :
    (tableOf make es).find? (nameOf · = name) =
      match es.dropWhile (·.name ≠ name) with
      | [] => none
      | d :: es' => some (make (tableOf make es') d) := by
  induction es with
  | nil => rfl
  | cons m es ih =>
    rw [tableOf, List.find?_cons, hname, List.dropWhile_cons]
    by_cases h : m.name = name
    · simp [h]
    · simpa [h] using ih

end Tables

namespace Elaboration

/-- A name is that of the module itself or stands for the last module before it that has it. -/
theorem callee?_visible {es : List Module} {m : Module} {chain : List String} (name : String) :
    Body.callee? ⟨m, chain, visibleFrom (calleesOf es) m⟩ name =
      if m.name = name then some (Callee.recursive m)
      else match es.dropWhile (·.name ≠ name) with
        | [] => none
        | d :: es' => some (Callee.ofModule (calleesOf es') d) := by
  have htable := find?_tableOf Callee.ofModule Callee.name (fun _ _ => rfl) es name
  rw [Body.callee?, visibleFrom, List.find?_cons, calleesOf, htable]
  by_cases h : m.name = name
  · rw [if_pos h, show decide ((Callee.recursive m).name = name) = true from decide_eq_true h]
  · rw [if_neg h, show decide ((Callee.recursive m).name = name) = false from decide_eq_false h]
    rfl

end Elaboration

/-! ## The names that are bound -/

section Within

variable {m : Module}

/-- Only inputs and names that the module assigns are bound. -/
def Scope.Within {α : Type} (m : Module) (scope : Scope α) : Prop :=
  ∀ e ∈ scope.newestFirst, e.1 ∈ m.inputs.map Port.name ∨ m.assigns e.1

theorem Scope.Within.bind {α : Type} {scope : Scope α} (h : scope.Within m) {name : String}
    (hname : m.assigns name) (value : α) : (scope.bind name value).Within m :=
  List.forall_mem_cons.2 ⟨.inr hname, h⟩

/-- A body starts with its inputs bound. -/
theorem Elaboration.within_argumentScope (m : Module) : ∀ (ps : List Port) (scope : Scope Signal) (ws : List Wire),
    (∀ p ∈ ps, p ∈ m.inputs) → scope.Within m → (argumentScope scope ps ws).Within m := by
  intro ps
  induction ps with
  | nil => exact fun _ _ _ h => h
  | cons p ps ih =>
    intro scope ws hps hscope
    cases ws with
    | nil => exact hscope
    | cons w ws =>
      obtain ⟨hp, hrest⟩ := List.forall_mem_cons.1 hps
      exact ih _ ws hrest (List.forall_mem_cons.2 ⟨.inl (List.mem_map_of_mem hp), hscope⟩)

end Within

end NandHdl
