import NandHdl.Proofs.Instance

/-!
# Elaboration with its accesses checked

Elaboration can keep all nodes of a module in one row, and the forward slots of all open bodies in another one. A body
then remembers where its own part of either row starts, and counts from there. Here every place is checked before it is
used, and so is every subtraction: whatever is out of range makes the whole run fail. So does a width of 0, be it that
of a wire or one that is asked for.

* `Guarded.Step`: a step of elaboration that fails as a whole where an access is out of range.
* `minus?`, `rowFrom?`, `Wire.overwrite?`: subtractions, ends of rows, and parts of wires.
* `chase?`, `Bit.resolve?`: chains of slots, counted from the start of a body.
* `Guarded.materialize`, `Guarded.project`: the ways of reading a signal.
* `Guarded.expr`, `Guarded.assign`, `Guarded.instantiate`: expressions, statements and instances.
* `Guarded.compile`: a whole design.
-/

namespace NandHdl

/-! ## Single accesses -/

/-- The difference of two numbers, if it is one. -/
def minus? (n k : Nat) : Option Nat := if k ≤ n then some (n - k) else none

/-- A row from a place on, which may be its end. -/
def rowFrom? {α : Type} (row : Array α) (start : Nat) : Option (Array α) :=
  if start ≤ row.size then some (row.extract start) else none

/-- The wire with bits `lo` to `hi` replaced, by as many. -/
def Wire.overwrite? (w : Wire) (lo hi : Nat) (part : Wire) : Option Wire :=
  if lo ≤ hi ∧ hi < w.width ∧ part.width = hi - lo + 1 then some (w.splice lo part) else none

/-- Follows a bit through slots numbered from `base` on, like `chase`. Every slot is looked up. -/
def chase? (base : Nat) (direct : Array Bit) : Nat → Bit → Option (Option Bit)
  | fuel, .forward n =>
    if n < base then some (some (.forward n))
    else
      match fuel with
      | 0 => some none
      | fuel + 1 => do chase? base direct fuel (← direct[← minus? n base]?)
  | _, b => some (some b)

/-- Replaces slot `base + i` by the end of its chain. The slot is looked up. -/
def Bit.resolve? (base : Nat) (ends : Array (Option Bit)) : Bit → Option Bit
  | forward n => if n < base then some (forward n) else do return (← ends[← minus? n base]?).getD (const false)
  | b => some b

def Wire.mapM? (f : Bit → Option Bit) (w : Wire) : Option Wire := do return ⟨(← w.bits.toList.mapM f).toArray⟩

def Cell.mapM? (f : Bit → Option Bit) : Cell → Option Cell
  | nand a b => do return nand (← f a) (← f b)
  | dff d clk => do return dff (← f d) (← f clk)

namespace Signal

/-- The wires that a signal is made of. -/
def wires : Signal → List Wire
  | wire w => [w]
  | bundle fields => fields.map Prod.snd
  | _ => []

/-- No wire of the signal is empty. -/
def Wide (x : Signal) : Prop := ∀ w ∈ x.wires, 0 < w.width

instance (x : Signal) : Decidable x.Wide := inferInstanceAs (Decidable (∀ w ∈ x.wires, 0 < w.width))

end Signal

namespace Elaboration

namespace Guarded

/-! ## Steps -/

/-- The state of elaboration in two rows: all nodes of the module, and the forward slots of all open bodies. -/
structure Rows where
  nextId : Nat
  nodes : Array Node
  slots : Array ForwardSlot
  log : List Event

/-- A step of elaboration, which has no outcome at all where an access is out of range. -/
abbrev Step := ExceptT CompileError (StateT Rows Option)

section Steps

variable {α : Type}

def access (a : Option α) : Step α := ExceptT.mk fun s => a.map fun a => (.ok a, s)

def require (p : Prop) [Decidable p] : Step Unit := access (if p then some () else none)

/-- No wire is empty. -/
def wide (w : Wire) : Step Wire := do
  require (0 < w.width)
  return w

/-- No bits are never asked for, and no wire of a signal is empty. -/
def asked (want : Option Nat) (x : Step Signal) : Step Signal := do
  require (want ≠ some 0)
  let s ← x
  require s.Wide
  return s

def note (e : Event) : Step Unit := modify fun s => { s with log := e :: s.log }

/-- Adds one node for each pair of bits. -/
def place (cell : Bit → Bit → Cell) (a b : Wire) : Step Wire :=
  modifyGet fun s =>
    let cells := Array.zipWith cell a.bits b.bits
    (.ofFn cells.size fun i => .node (s.nextId + i),
      { s with
        nodes := s.nodes ++ cells.mapIdx fun i c => ⟨s.nextId + i, c⟩
        nextId := s.nextId + cells.size })

/-- Opens slots for bits `lo` to `hi` of a name, none if there are no such bits. -/
def readForward (name : String) (lo hi : Nat) : Step Wire :=
  modifyGet fun s =>
    (.ofFn (hi + 1 - lo) fun i => .forward (s.slots.size + i),
      { s with slots := s.slots ++ Array.ofFn fun i : Fin (hi + 1 - lo) => ⟨name, lo + i⟩ })

end Steps

/-! ## Signals -/

section Signals

variable (m : Module) (scope : Scope Signal)

def materialize (x : Signal) (want : Option Nat) : Step Wire := do
  require (want ≠ some 0)
  match follow scope x with
  | .wire w => wide w
  | .bundle [(_, w)] => wide w
  | .bundle fields => do
    note (.bundleAsWire fields.length m.name)
    wide (.zeros (want.getD 1))
  | .literal value => wide (.constant value (want.getD (bitLength value)))
  | .blackBox => wide (.zeros (want.getD 1))
  | .forward name => do wide (← readForward name 0 (← access (minus? (want.getD 1) 1)))

def fitted (x : Signal) (width : Nat) : Step Wire := do
  let w ← materialize m scope x (some width)
  wide (w.fit width)

def project (x : Signal) (r : BitRange) : Step Wire := do
  let past ← access (minus? r.hi r.lo)
  match follow scope x with
  | .literal value => wide (.ofFn (past + 1) fun i => .const (value.testBit (r.lo + i)))
  | .blackBox => wide (.zeros (past + 1))
  | .forward name => do wide (← readForward name r.lo r.hi)
  | x => do
    let w ← materialize m scope x none
    if w.width ≤ r.hi then note (.bitOutOfRange r.hi w.width m.name)
    wide (w.extract r.lo (past + 1))

def field (object : Expr) (x : Signal) (name : String) : Step Signal :=
  match follow scope x with
  | .bundle fields =>
    match fields.find? (·.1 = name) with
    | some f => return .wire f.2
    | none => do
      note (.noSuchField name object)
      return .blackBox
  | .blackBox => return .blackBox
  | _ => do
    note (.noInstance object name)
    return .blackBox

def nameSignal (name : String) : Step Signal :=
  match scope.lookup name with
  | some x => return x
  | none =>
    if m.assigns name then return .forward name
    else do
      note (.undefinedName name m.name)
      return .blackBox

def nand (want : Option Nat) (x y : Signal) : Step Signal := do
  let width ← match knownWidth scope x, knownWidth scope y with
    | some w, some v => if w = v then pure w else throw (.widthMismatch "nand" w v)
    | some w, none => pure w
    | none, some v => pure v
    | none, none => pure (want.getD (max x.naturalWidth y.naturalWidth))
  let x ← fitted m scope x width
  let y ← fitted m scope y width
  return .wire (← place .nand x y)

/-- The first bit of a clock that is shared by all bits of data is looked up. -/
def dff (want : Option Nat) (d clk : Signal) : Step Signal := do
  let width := (knownWidth scope d).getD (want.getD d.naturalWidth)
  let d' ← fitted m scope d width
  let clk' ← match knownWidth scope clk with
    | none | some 1 => do
      let c ← fitted m scope clk 1
      let bit ← access (c.bit? 0)
      pure (.ofFn width fun _ => bit)
    | some w =>
      if w = width then materialize m scope clk (some width) else throw (.widthMismatch "dff" width w)
  return .wire (← place .dff d' clk')

end Signals

/-! ## Expressions and statements -/

/-- A module that can be instantiated, with all accesses checked. -/
structure Callee where
  name : String
  inputs : List Port
  instantiate : List String → List Wire → Step (List (String × Wire))

structure Body where
  module : Module
  chain : List String
  callees : List Callee

def checkArity (name : String) (expected found : Nat) : Step Unit :=
  if expected = found then return () else throw (.arity name expected found)

mutual

def expr (b : Body) (scope : Scope Signal) (want : Option Nat) : Expr → Step Signal
  | .identifier name => asked want (nameSignal b.module scope name)
  | .number value => asked want (return .literal value)
  | .call "nand" args =>
    match args with
    | [x, y] => asked want do
      let x ← expr b scope want x
      let y ← expr b scope want y
      nand b.module scope want x y
    | args => throw (.arity "nand" 2 args.length)
  | .call "dff" args =>
    match args with
    | [d, clk] => asked want do
      let d ← expr b scope want d
      let clk ← expr b scope (some 1) clk
      dff b.module scope want d clk
    | args => throw (.arity "dff" 2 args.length)
  | .call name args =>
    match b.callees.find? (·.name = name) with
    | none => asked want do
      note (.undefinedModule name b.module.name)
      return .blackBox
    | some callee => asked want do
      checkArity name callee.inputs.length args.length
      let wires ← arguments b scope callee.inputs args
      return .bundle (← callee.instantiate b.chain wires)
  | .member object name => asked want do field scope object (← expr b scope none object) name
  | .select object range => asked want do
    return .wire (← project b.module scope (← expr b scope none object) range)

def arguments (b : Body) (scope : Scope Signal) : List Port → List Expr → Step (List Wire)
  | p :: ps, a :: as => do
    let s ← expr b scope (some p.width) a
    let w ← fitted b.module scope s p.width
    return w :: (← arguments b scope ps as)
  | _, _ => return []

end

/-- The wire with some bits replaced, which is widened to hold them. -/
def replaceBits (current : Wire) (r : BitRange) (part : Wire) : Step Wire := do
  let current := if current.width < r.hi + 1 then current.fit (r.hi + 1) else current
  wide (← access (current.overwrite? r.lo r.hi part))

def assign (b : Body) (scope : Scope Signal) (st : Statement) : Step (Scope Signal) := do
  let name := st.target.name
  let declared := (b.module.output? name).map Port.width
  match st.target.range with
  | none => return scope.bind name (← expr b scope declared st.expr)
  | some r =>
    let past ← access (minus? r.hi r.lo)
    let x ← expr b scope (some (past + 1)) st.expr
    let part ← fitted b.module scope x (past + 1)
    let current ← match scope.lookup name with
      | some x => materialize b.module scope x (declared <|> some (r.hi + 1))
      | none => wide (.zeros (max (declared.getD (r.hi + 1)) (r.hi + 1)))
    return scope.bind name (.wire (← replaceBits current r part))

def assignAll (b : Body) : Scope Signal → List Statement → Step (Scope Signal)
  | scope, [] => return scope
  | scope, st :: sts => do assignAll b (← assign b scope st) sts

/-! ## Instances -/

section Ends

variable (m : Module) (scope : Scope Signal)

def outputWire (p : Port) : Step Wire :=
  match scope.lookup p.name with
  | some x => fitted m scope x p.width
  | none => do
    note (.unassignedOutput p.name m.name)
    wide (.zeros p.width)

def outputs : List Port → Step (List (String × Wire))
  | [] => return []
  | p :: ps => do
    let w ← outputWire m scope p
    return (p.name, w) :: (← outputs ps)

def wiresOf (name : String) (x : Signal) : Step (List (String × Wire)) :=
  match follow scope x with
  | .bundle [(_, w)] => return [(name, w)]
  | .bundle fields => return fields.map fun f => (name ++ "." ++ f.1, f.2)
  | x => do return [(name, ← materialize m scope x none)]

def locals : List (String × Signal) → Step (List (String × Wire))
  | [] => return []
  | (name, x) :: rest => do
    let here ← wiresOf m scope name x
    return here ++ (← locals rest)

def noteSelfDefined (module : String) : List (ForwardSlot × Option Bit) → Step Unit
  | [] => return ()
  | (slot, none) :: rest => do
    note (.selfDefined slot.name module)
    noteSelfDefined module rest
  | (_, some _) :: rest => noteSelfDefined module rest

/-- Wires with all slots of the open body replaced. -/
def resolveWires (base : Nat) (ends : Array (Option Bit)) (ws : List (String × Wire)) :
    Option (List (String × Wire)) :=
  ws.mapM fun w => do return (w.1, ← w.2.mapM? (Bit.resolve? base ends))

/-- Replaces the slots from `slotStart` on in the nodes from `nodeStart` on, and in what the body offers. Slots are
counted from `slotStart`. -/
def resolveForwards (nodeStart slotStart : Nat) (inst : Instance) : Step Instance := do
  let s ← get
  let own ← access (rowFrom? s.slots slotStart)
  let direct := own.map (finalBit scope)
  let ends ← access (direct.toList.mapM (chase? slotStart direct (direct.size + 1)))
  noteSelfDefined m.name (own.toList.zip ends)
  let opened ← access (rowFrom? s.nodes nodeStart)
  let cells ← access (opened.toList.mapM fun n => do
    return ⟨n.id, ← n.cell.mapM? (Bit.resolve? slotStart ends.toArray)⟩)
  let outs ← access (resolveWires slotStart ends.toArray inst.outputs)
  let locs ← access (resolveWires slotStart ends.toArray inst.locals)
  modify fun s => { s with nodes := s.nodes.extract 0 nodeStart ++ cells.toArray }
  return ⟨outs, locs⟩

end Ends

/-- A body up to where its forward reads are resolved: the scope at its end, and what it offers. -/
def openBody (b : Body) (outermost : Bool) (args : List Wire) : Step (Scope Signal × Instance) := do
  let inputs := argumentScope .empty b.module.inputs args
  require (∀ e ∈ inputs.newestFirst, e.2.Wide)
  let scope ← assignAll b inputs b.module.statements
  let outs ← outputs b.module scope b.module.outputs
  let locs ← if outermost then locals b.module scope scope.latest else pure []
  return (scope, ⟨outs, locs⟩)

/-- A body from the end of the rows on. Afterwards its slots are dropped. -/
def enclosed (m : Module) (opened : Step (Scope Signal × Instance)) : Step Instance := do
  let start ← get
  let r ← opened
  let inst ← resolveForwards m r.1 start.nodes.size start.slots.size r.2
  modify fun s => { s with slots := s.slots.extract 0 start.slots.size }
  return inst

def instantiate (callees : List Callee) (m : Module) (outer : List String) (args : List Wire) : Step Instance := do
  note (.instantiating (← access (minus? (m.name :: outer).length 1)) m.name)
  enclosed m (openBody ⟨m, m.name :: outer, callees⟩ outer.isEmpty args)

/-! ## Designs -/

def Callee.recursive (m : Module) : Callee where
  name := m.name
  inputs := m.inputs
  instantiate chain _ := throw (.recursiveInstantiation (m.name :: chain).reverse)

def visibleFrom (earlier : List Callee) (m : Module) : List Callee := Callee.recursive m :: earlier

def Callee.ofModule (earlier : List Callee) (m : Module) : Callee where
  name := m.name
  inputs := m.inputs
  instantiate chain args := return (← Guarded.instantiate (visibleFrom earlier m) m chain args).outputs

def netlist (earlier : List Callee) (m : Module) : Step Netlist := do
  let wires := inputWires 0 m.inputs
  let inst ← instantiate (visibleFrom earlier m) m [] wires
  let inputs := (m.inputs.map Port.name).zip wires
  return {
    name := m.name
    inputs := m.inputs
    outputs := m.outputs.zip (inst.outputs.map Prod.snd)
    nodes := (← get).nodes
    signals := ((NameTable.empty.insertAll inputs).insertAll inst.locals).insertAll inst.outputs }

/-- Elaborates modules in order. There is no outcome if an access is out of range in any of them. -/
def compileFrom : List Callee → Nat → List Module → Option (Outcome (List Netlist))
  | _, nextId, [] => some ⟨.ok [], nextId, []⟩
  | earlier, nextId, m :: ms => do
    match ← (netlist earlier m).run ⟨nextId, #[], #[], []⟩ with
    | (.error e, s) => return ⟨.error e, nextId, s.log.reverse⟩
    | (.ok n, s) =>
      let report := Event.compiled m.name n.nodes.size nextId s.nextId
      let rest ← compileFrom (Callee.ofModule earlier m :: earlier) s.nextId ms
      return ⟨rest.result.map (n :: ·), rest.nextId, s.log.reverse ++ report :: rest.log⟩

/-- Compiles a design with all accesses checked. -/
def compile (l : Ledger) (ms : List Module) : Option Ledger.Outcome :=
  match checkDesign ms with
  | .error e => some ⟨.error e, l, []⟩
  | .ok () => do
    let r ← compileFrom [] l.nextId ms
    return ⟨r.result.map Library.mk, ⟨r.nextId⟩, r.log⟩

end Guarded

end Elaboration

end NandHdl
