import NandHdl.Elaboration.Forward
import NandHdl.Event

/-!
# Elaborating a body

Elaboration takes a module apart: it runs through the statements in order and
keeps what each name stands for; every call of a primitive adds nodes, one a
bit, and every call of a module adds all nodes of a fresh instance of it. What
makes no sense but is no structural error stands for 0 and is reported.

* `Build`: node numbers, nodes, forward slots and reports, next to errors.
* `Callee`: a module that can be instantiated.
* `expr`, `assign`: what an expression stands for, and what a statement binds.
* `instantiate`: a body from its arguments to its outputs, forward reads resolved.
-/

namespace NandHdl

/-- A condition that elaboration relies on and checks, which well-formed modules never violate. -/
inductive Fault
  /-- A forward read of no bits. -/
  | emptyRead
  /-- A bit that names a forward slot which nobody opened. -/
  | danglingSlot
  /-- A partial assignment outside the wire it changes. -/
  | spliceOutOfRange
deriving DecidableEq, Repr

def Fault.message : Fault → String
  | emptyRead => "a name is read with no bits"
  | danglingSlot => "a bit refers to an unknown forward read"
  | spliceOutOfRange => "a partial assignment leaves its wire"

/-- What prevents elaboration. -/
inductive CompileError
  | noModules
  | duplicateModule (name : String)
  | duplicatePort (module port : String)
  /-- The instances that are open, outermost first, and the one that is open already. -/
  | recursiveInstantiation (chain : List String)
  | arity (name : String) (expected found : Nat)
  | widthMismatch (primitive : String) (first second : Nat)
  | indexOutOfRange (module : String) (index : Nat)
  | fault (f : Fault)
deriving DecidableEq, Repr

def CompileError.message : CompileError → String
  | noModules => "No modules found"
  | duplicateModule name => s!"Duplicate module: {name}"
  | duplicatePort m port => s!"Duplicate port {port} in module {m}"
  | recursiveInstantiation chain => "Recursive instantiation: " ++ " -> ".intercalate chain
  | arity name expected found => s!"{name} expects {expected} arguments, found {found}"
  | widthMismatch primitive w0 w1 => s!"Width mismatch in {primitive}: {w0} bits vs {w1} bits"
  | indexOutOfRange m i => s!"Bit index {i} out of range in module {m}"
  | fault f => "Elaboration failed: " ++ f.message

namespace Elaboration

/-- The state of elaboration: the next node number, the nodes and the forward slots of the open body,
the number of its first slot, and the reports so far, the latest first. -/
structure State where
  nextId : Nat
  nodes : Array Node
  slotBase : Nat
  slots : Array ForwardSlot
  log : List Event

/-- A step of elaboration. Node numbers and reports outlive an error. -/
abbrev Build := ExceptT CompileError (StateM State)

/-- A module that can be instantiated: its inputs, and what an instance adds and outputs, given the
names of the open instances, innermost first, and the arguments. -/
structure Callee where
  name : String
  inputs : List Port
  instantiate : List String → List Wire → Build (List (String × Wire))

/-- What stays the same while a body is elaborated: the module, the open instances, innermost first
and this one included, and the modules it may call. -/
structure Body where
  module : Module
  chain : List String
  callees : List Callee

/-- The module of a given name, if the body may call it. -/
def Body.callee? (b : Body) (name : String) : Option Callee := b.callees.find? (·.name = name)

/-- Reports an event. -/
def note (e : Event) : Build Unit := modify fun s => { s with log := e :: s.log }

/-- Adds one node for each pair of bits, and returns their outputs. -/
def place (cell : Bit → Bit → Cell) (a b : Wire) : Build Wire :=
  modifyGet fun s =>
    let cells := Array.zipWith cell a.bits b.bits
    (.ofFn cells.size fun i => .node (s.nextId + i),
      { s with
        nodes := s.nodes ++ cells.mapIdx fun i c => ⟨s.nextId + i, c⟩
        nextId := s.nextId + cells.size })

/-- Opens slots for bits `lo` to `lo + count - 1` of a name that a later statement assigns. -/
def readForward (name : String) (lo count : Nat) : Build Wire := do
  if count = 0 then throw (.fault .emptyRead)
  modifyGet fun s =>
    let first := s.slotBase + s.slots.size
    (.ofFn count fun i => .forward (first + i),
      { s with slots := s.slots ++ Array.ofFn fun i : Fin count => ⟨name, lo + i⟩ })

/-- The wire that a signal is where `want` bits are asked for, if any number is. A signal with a width
of its own keeps it. -/
def materialize (b : Body) (scope : Scope Signal) (s : Signal) (want : Option Nat) : Build Wire :=
  match follow scope s with
  | .wire w => return w
  | .bundle [(_, w)] => return w
  | .bundle fields => do
    note (.bundleAsWire fields.length b.module.name)
    return .zeros (want.getD 1)
  | .literal value => return .constant value (want.getD (bitLength value))
  | .blackBox => return .zeros (want.getD 1)
  | .forward name => readForward name 0 (want.getD 1)

/-- The wire that a signal is where exactly `width` bits are used. -/
def fitted (b : Body) (scope : Scope Signal) (s : Signal) (width : Nat) : Build Wire :=
  return (← materialize b scope s (some width)).fit width

/-- Some bits of a signal. Bits past its end are 0. -/
def project (b : Body) (scope : Scope Signal) (s : Signal) (r : BitRange) : Build Wire :=
  match follow scope s with
  | .literal value => return .ofFn r.width fun i => .const (value.testBit (r.lo + i))
  | .blackBox => return .zeros r.width
  | .forward name => readForward name r.lo r.width
  | s => do
    let w ← materialize b scope s none
    if w.width ≤ r.hi then note (.bitOutOfRange r.hi w.width b.module.name)
    return w.extract r.lo r.width

/-- An output of an instance. -/
def field (scope : Scope Signal) (object : Expr) (s : Signal) (name : String) : Build Signal :=
  match follow scope s with
  | .bundle fields =>
    match fields.find? (·.1 = name) with
    | some f => return .wire f.2
    | none => do
      note (.noSuchField name object)
      return .blackBox
  | .blackBox => return .blackBox
  | _ => do
    note (.noInstance object name)
    return .blackBox

/-- What a name stands for. -/
def nameSignal (b : Body) (scope : Scope Signal) (name : String) : Build Signal :=
  match scope.lookup name with
  | some s => return s
  | none =>
    if b.module.assigns name then return .forward name
    else do
      note (.undefinedName name b.module.name)
      return .blackBox

/-- NAND gates for two operands of one width. An operand without a width takes the other's; if neither
has one, both take the width asked for, or else the larger of their natural ones. -/
def nand (b : Body) (scope : Scope Signal) (want : Option Nat) (x y : Signal) : Build Signal := do
  let width ← match knownWidth scope x, knownWidth scope y with
    | some w, some v => if w = v then pure w else throw (.widthMismatch "nand" w v)
    | some w, none => pure w
    | none, some v => pure v
    | none, none => pure (want.getD (max x.naturalWidth y.naturalWidth))
  let x ← fitted b scope x width
  let y ← fitted b scope y width
  return .wire (← place .nand x y)

/-- Flip-flops for data and a clock that is either one bit, shared by all, or as wide as the data. -/
def dff (b : Body) (scope : Scope Signal) (want : Option Nat) (d clk : Signal) : Build Signal := do
  let width := (knownWidth scope d).getD (want.getD d.naturalWidth)
  let d' ← fitted b scope d width
  let clk' ← match knownWidth scope clk with
    | none | some 1 => do
      let c ← fitted b scope clk 1
      pure (.ofFn width fun _ => c.bitOrZero 0)
    | some w =>
      if w = width then materialize b scope clk (some width) else throw (.widthMismatch "dff" width w)
  return .wire (← place .dff d' clk')

/-- Refuses a call with the wrong number of arguments. -/
def checkArity (name : String) (expected found : Nat) : Build Unit :=
  if expected = found then return () else throw (.arity name expected found)

mutual

/-- What an expression stands for where `want` bits are asked for, if any number is. -/
def expr (b : Body) (scope : Scope Signal) (want : Option Nat) : Expr → Build Signal
  | .identifier name => nameSignal b scope name
  | .number value => return .literal value
  | .call "nand" args =>
    match args with
    | [x, y] => do
      let x ← expr b scope want x
      let y ← expr b scope want y
      nand b scope want x y
    | args => throw (.arity "nand" 2 args.length)
  | .call "dff" args =>
    match args with
    | [d, clk] => do
      let d ← expr b scope want d
      let clk ← expr b scope (some 1) clk
      dff b scope want d clk
    | args => throw (.arity "dff" 2 args.length)
  | .call name args =>
    match b.callee? name with
    | none => do
      note (.undefinedModule name b.module.name)
      return .blackBox
    | some callee => do
      checkArity name callee.inputs.length args.length
      let wires ← arguments b scope callee.inputs args
      return .bundle (← callee.instantiate b.chain wires)
  | .member object name => do field scope object (← expr b scope none object) name
  | .select object range => do return .wire (← project b scope (← expr b scope none object) range)

/-- Arguments, each fitted to its port. -/
def arguments (b : Body) (scope : Scope Signal) : List Port → List Expr → Build (List Wire)
  | p :: ps, a :: as => do
    let s ← expr b scope (some p.width) a
    let w ← fitted b scope s p.width
    return w :: (← arguments b scope ps as)
  | _, _ => return []

end

/-- The scope after a statement. A partial assignment widens the name to hold the range, fills it with
zeros if it is new, and replaces the range. -/
def assign (b : Body) (scope : Scope Signal) (st : Statement) : Build (Scope Signal) := do
  let name := st.target.name
  let declared := (b.module.output? name).map Port.width
  match st.target.range with
  | none => return scope.bind name (← expr b scope declared st.expr)
  | some r =>
    let s ← expr b scope (some r.width) st.expr
    let part ← fitted b scope s r.width
    let least := declared.getD (r.hi + 1)
    let current ← match scope.lookup name with
      | some s => materialize b scope s (some least)
      | none => pure (.zeros least)
    let current := current.fit (max current.width (r.hi + 1))
    if current.width < r.lo + part.width then throw (.fault .spliceOutOfRange)
    return scope.bind name (.wire (current.splice r.lo part))

/-- The scope after a list of statements. -/
def assignAll (b : Body) : Scope Signal → List Statement → Build (Scope Signal)
  | scope, [] => return scope
  | scope, st :: sts => do assignAll b (← assign b scope st) sts

/-- The outputs of a finished body, each fitted to its port. -/
def outputs (b : Body) (scope : Scope Signal) : List Port → Build (List (String × Wire))
  | [] => return []
  | p :: ps => do
    let w ← match scope.lookup p.name with
      | some s => fitted b scope s p.width
      | none => do
        note (.unassignedOutput p.name b.module.name)
        pure (.zeros p.width)
    return (p.name, w) :: (← outputs b scope ps)

/-- The named wires of a finished body. An instance with one output is a wire under its own name, one
with several gives a wire for each. -/
def locals (b : Body) (scope : Scope Signal) : List (String × Signal) → Build (List (String × Wire))
  | [] => return []
  | (name, s) :: rest => do
    let here ← match follow scope s with
      | .bundle [(_, w)] => pure [(name, w)]
      | .bundle fields => pure (fields.map fun f => (name ++ "." ++ f.1, f.2))
      | s => do pure [(name, ← materialize b scope s none)]
    return here ++ (← locals b scope rest)

/-- What an instance offers: its outputs, and the wires named in its body if it is outermost. -/
structure Instance where
  outputs : List (String × Wire)
  locals : List (String × Wire)

/-- Reports the slots whose chain has no end. -/
def noteSelfDefined (module : String) : List (ForwardSlot × Option Bit) → Build Unit
  | [] => return ()
  | (slot, none) :: rest => do
    note (.selfDefined slot.name module)
    noteSelfDefined module rest
  | (_, some _) :: rest => noteSelfDefined module rest

/-- Replaces the forward slots of the open body by what they stand for at its end. -/
def resolveForwards (b : Body) (scope : Scope Signal) (inst : Instance) : Build Instance := do
  let s ← get
  let base := s.slotBase
  let limit := base + s.slots.size
  let direct := s.slots.map (finalBit scope)
  let wired (ws : List (String × Wire)) : Bool := ws.all (·.2.slotsBelow limit)
  unless direct.all (·.slotBelow limit) && s.nodes.all (·.cell.slotsBelow limit) &&
      wired inst.outputs && wired inst.locals do
    throw (.fault .danglingSlot)
  let ends := chaseAll base direct
  noteSelfDefined b.module.name (s.slots.zip ends).toList
  let resolved := fun ws : List (String × Wire) => ws.map fun w => (w.1, w.2.map (Bit.resolve base ends))
  modify fun s =>
    { s with nodes := s.nodes.map fun n => ⟨n.id, n.cell.map (Bit.resolve base ends)⟩ }
  return ⟨resolved inst.outputs, resolved inst.locals⟩

/-- Elaborates inside a new body with nodes and slots of its own. Afterwards its nodes follow those of
the outer body, and its slots are gone. -/
def enclosed {α : Type} (inner : Build α) : Build α := do
  let (nodes, slotBase, slots) ← modifyGet fun s =>
    ((s.nodes, s.slotBase, s.slots),
      { s with nodes := #[], slotBase := s.slotBase + s.slots.size, slots := #[] })
  let a ← inner
  modify fun s => { s with nodes := nodes ++ s.nodes, slotBase := slotBase, slots := slots }
  return a

/-- The scope in which a body starts: the inputs, each bound to its argument. -/
def argumentScope : Scope Signal → List Port → List Wire → Scope Signal
  | scope, p :: ps, w :: ws => argumentScope (scope.bind p.name (.wire (w.fit p.width))) ps ws
  | scope, _, _ => scope

/-- An instance of a module, given the modules it may call, the open instances and the arguments. -/
def instantiate (callees : List Callee) (m : Module) (outer : List String) (args : List Wire) :
    Build Instance := do
  note (.instantiating outer.length m.name)
  let b : Body := ⟨m, m.name :: outer, callees⟩
  enclosed do
    let scope ← assignAll b (argumentScope .empty m.inputs args) m.statements
    let outs ← outputs b scope m.outputs
    let locs ← if outer.isEmpty then locals b scope scope.latest else pure []
    resolveForwards b scope ⟨outs, locs⟩

end Elaboration

end NandHdl
