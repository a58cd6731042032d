import NandHdl.Simulation.Order
import NandHdl.Simulation.Ram

/-!
# Simulation

A circuit runs in ticks. In each, the gates are evaluated over and over until
nothing changes; then every flip-flop whose clock rose since the tick before
captures its data, all at once; then the memory, if one is attached, is written
and read.

* `Simulator.settle`: at most `settleLimit` passes over the gates.
* `Simulator.capture`: the flip-flops of one tick.
* `Simulator.step`, `Simulator.run`, `Simulator.reset`: ticks.
* `Simulator.setInput`, `Simulator.output`, `Simulator.wire`: pins and named wires.
* `Simulator.attach`: joins the memory to the circuit.
-/

namespace NandHdl

/-- A name that a simulation does not have. -/
inductive SimulationError
  | noSuchInput (name : String)
  | noSuchOutput (name : String)
  | noSuchWire (name : String)
  | noSuchModule (name : String)
  | noSuchBusPin (name : String)
deriving DecidableEq, Repr

def SimulationError.message : SimulationError → String
  | noSuchInput name => "No such input: " ++ name
  | noSuchOutput name => "No such output: " ++ name
  | noSuchWire name => "No such wire: " ++ name
  | noSuchModule name => "No such module: " ++ name
  | noSuchBusPin name => "Ram bus pin not found: " ++ name

/-- The most passes over the gates in one tick. -/
def settleLimit : Nat := 100

/-- A netlist made ready to run. -/
structure Circuit where
  name : String
  /-- In the order in which they are evaluated. -/
  gates : List Gate
  flops : List Flop
  inputs : NameTable Pin
  outputs : List (String × List Source)
  signals : NameTable (List Source)
  nodeCount : Nat
  inputWidth : Nat

/-- A netlist made ready to run. Unknown nodes are reported. -/
def Circuit.ofNetlist (n : Netlist) : Logged Event Circuit := do
  let nodes := n.nodes.toList
  let places := Wiring.places nodes
  let (gates, flops) ← Wiring.cells n.name places 0 nodes
  let outputs ← Wiring.namedSources n.name places (n.outputs.map fun o => (o.1.name, o.2))
  let signals ← Wiring.namedSources n.name places n.signals.entries
  Logged.note (.simulating n.name gates.length flops.length n.inputWidth)
  return {
    name := n.name
    gates := GateOrder.orderGates gates
    flops := flops
    inputs := NameTable.empty.insertAll (Pin.ofPorts 0 n.inputs)
    outputs := outputs
    signals := NameTable.empty.insertAll signals
    nodeCount := n.nodes.size
    inputWidth := n.inputWidth }

/-- The wires that join the memory to the circuit. -/
structure Bus where
  addr : List Source
  writeEnable : List Source
  writeData : List Source
  readData : Pin
deriving DecidableEq, Repr

/-- A running circuit. -/
structure Simulator where
  circuit : Circuit
  /-- The last output of every gate and the stored bit of every flip-flop. -/
  values : Array Bool
  /-- The input bits. -/
  pins : Array Bool
  /-- The clock of every flip-flop at the last tick. -/
  clocks : List Bool
  ticks : Nat
  ram : Ram
  bus : Option Bus

/-- The bit at a source. -/
def Source.read (values pins : Array Bool) : Source → Bool
  | node i => values.getD i false
  | input i => pins.getD i false
  | const b => b

/-- The output that a gate ought to have. -/
def Gate.output (values pins : Array Bool) (g : Gate) : Bool :=
  !(g.a.read values pins && g.b.read values pins)

/-- One pass over the gates. The second part tells whether anything changed. -/
def passOver (pins : Array Bool) (gates : List Gate) (values : Array Bool) : Array Bool × Bool :=
  gates.foldl (fun (values, changed) g =>
    let v := g.output values pins
    if values.getD g.out false = v then (values, changed) else (values.setIfInBounds g.out v, true))
    (values, false)

/-- How settling ended: the bits, and the number of passes if the last one changed nothing. -/
structure Settled where
  values : Array Bool
  passes : Option Nat
deriving DecidableEq, Repr

/-- Passes over the gates until one changes nothing, at most `limit` times. -/
def settleWithin (pins : Array Bool) (gates : List Gate) : Nat → Array Bool → Settled
  | 0, values => ⟨values, none⟩
  | limit + 1, values =>
    let (values, changed) := passOver pins gates values
    if changed then
      let s := settleWithin pins gates limit values
      ⟨s.values, s.passes.map (· + 1)⟩
    else ⟨values, some 1⟩

/-- The number whose bits, the least significant one first, are given. -/
def ofBits : List Bool → Nat
  | [] => 0
  | b :: bs => b.toNat + 2 * ofBits bs

/-- Puts the bits of a word on a pin, 0 past the end of the word. -/
def Pin.drive (p : Pin) (value : Nat) (pins : Array Bool) : Array Bool :=
  (List.range p.width).foldl
    (fun pins i => pins.setIfInBounds (p.offset + i) (i < wordBits && value.testBit i)) pins

namespace Simulator

/-- A netlist that has not run yet, with a given memory. -/
def ofNetlist (n : Netlist) (ram : Ram) : Logged Event Simulator := do
  let c ← Circuit.ofNetlist n
  return {
    circuit := c
    values := Array.replicate c.nodeCount false
    pins := Array.replicate c.inputWidth false
    clocks := c.flops.map fun _ => false
    ticks := 0
    ram := ram
    bus := none }

/-- A module of a library, or its last one if none is named. -/
def ofLibrary (l : Library) (top : Option String) (ram : Ram) :
    Except SimulationError (Logged Event Simulator) :=
  match top with
  | some name =>
    match l.get? name with
    | some n => .ok (ofNetlist n ram)
    | none => .error (.noSuchModule name)
  | none =>
    match l.main? with
    | some n => .ok (ofNetlist n ram)
    | none => .error (.noSuchModule "(main)")

variable (s : Simulator)

def name : String := s.circuit.name

/-- The bit at a source. -/
def read (x : Source) : Bool := x.read s.values s.pins

/-- The number on a wire, as far as it fits a word. -/
def value (xs : List Source) : Nat := ofBits ((xs.take wordBits).map s.read)

/-- Drives an input pin. -/
def setInput (name : String) (value : Nat) : Except SimulationError Simulator :=
  match s.circuit.inputs.get? name with
  | some p => .ok { s with pins := p.drive value s.pins }
  | none => .error (.noSuchInput name)

/-- The value of an output. -/
def output (name : String) : Except SimulationError Nat :=
  match s.circuit.outputs.find? (·.1 = name) with
  | some o => .ok (s.value o.2)
  | none => .error (.noSuchOutput name)

/-- The value of a named signal. -/
def wire (name : String) : Except SimulationError Nat :=
  match s.circuit.signals.get? name with
  | some xs => .ok (s.value xs)
  | none => .error (.noSuchWire name)

/-- The value of an output or else of a named signal. -/
def peek (name : String) : Except SimulationError Nat :=
  match s.output name with
  | .ok v => .ok v
  | .error _ => s.wire name

/-- Every named signal and its value. -/
def snapshot : List (String × Nat) := s.circuit.signals.entries.map fun e => (e.1, s.value e.2)

/-- The result of settling, before it is stored. -/
def settled : Settled := settleWithin s.pins s.circuit.gates settleLimit s.values

/-- Evaluates the gates until nothing changes. -/
def settle : Logged Event Simulator := do
  let r := s.settled
  Logged.note (match r.passes with
    | some n => .settled s.name n
    | none => .unsettled s.name settleLimit)
  return { s with values := r.values }

/-- Lets every flip-flop whose clock rose capture its data. -/
def capture : Simulator :=
  let flops := s.circuit.flops
  let clocks := flops.map fun f => s.read f.clk
  let data := flops.map fun f => s.read f.d
  let values := (flops.zip (s.clocks.zip (clocks.zip data))).foldl
    (fun values (f, before, now, d) => if !before && now then values.setIfInBounds f.out d else values)
    s.values
  { s with values := values, clocks := clocks }

/-- Puts the addressed byte on the read pin of an attached memory. -/
def driveReadData : Simulator :=
  match s.bus with
  | none => s
  | some b => { s with pins := b.readData.drive (s.ram.read (s.value b.addr)).toNat s.pins }

/-- Writes an attached memory if it is enabled, then reads it. -/
def serviceBus : Logged Event Simulator :=
  match s.bus with
  | none => return s
  | some b =>
    if (s.value b.writeEnable).testBit 0 then do
      let addr := s.value b.addr
      let byte := UInt8.ofNat (s.value b.writeData)
      Logged.note (.ramWritten s.name addr byte.toNat)
      return { s with ram := s.ram.write addr byte }.driveReadData
    else return s.driveReadData

/-- One tick. -/
def step : Logged Event Simulator := do
  let s := { s with ticks := s.ticks + 1 }
  Logged.note (.tick s.name s.ticks)
  let s ← s.settle
  s.capture.serviceBus

/-- Ticks after those logged so far. -/
def runAfter : Nat → Logged Event Simulator → Logged Event Simulator
  | 0, x => x
  | n + 1, x => runAfter n (x >>= step)

/-- `n` ticks. -/
def run (n : Nat) : Logged Event Simulator := runAfter n (pure s)

/-- Clears the flip-flops and the clocks seen, settles, and puts the addressed byte of an attached memory on its
read pin. The memory and all other pins stay. -/
def reset : Logged Event Simulator := do
  let s := { s with
    values := Array.replicate s.values.size false
    clocks := s.clocks.map fun _ => false
    ticks := 0 }
  return (← s.settle).driveReadData

/-- Loads an image to the start of the memory. -/
def loadImage (image : Array UInt8) : Logged Event Simulator :=
  return { s with ram := ← s.ram.load image }.driveReadData

def writeRam (addr : Nat) (byte : UInt8) : Simulator := { s with ram := s.ram.write addr byte }.driveReadData

/-- The sources of an output or else of a named signal. -/
def busSources (name : String) : Except SimulationError (List Source) :=
  match s.circuit.outputs.find? (·.1 = name) with
  | some o => .ok o.2
  | none =>
    match s.circuit.signals.get? name with
    | some xs => .ok xs
    | none => .error (.noSuchBusPin name)

/-- The wires of a bus. The first name that is missing is the error. -/
def busOf (names : BusNames) : Except SimulationError Bus := do
  let addr ← s.busSources names.addr
  let writeEnable ← s.busSources names.writeEnable
  let writeData ← s.busSources names.writeData
  match s.circuit.inputs.get? names.readData with
  | some p => return ⟨addr, writeEnable, writeData, p⟩
  | none => throw (.noSuchBusPin names.readData)

/-- Joins the memory to the circuit. Three of its wires may be any named ones, the last is an input. -/
def attach (names : BusNames) : Except SimulationError (Logged Event Simulator) := do
  let bus ← s.busOf names
  return do
    Logged.note (.busAttached s.name names.text)
    return { s with bus := some bus }.driveReadData

/-- Joins the memory if the circuit has wires of the usual names, and tells whether it had. -/
def attachDefault : Logged Event (Simulator × Bool) :=
  match s.attach {} with
  | .ok x => return (← x, true)
  | .error e => do
    Logged.note (.noBus s.name e.message)
    return (s, false)

/-- Blanks in front of a text up to `width` characters. -/
def padLeft (width : Nat) (t : String) : String :=
  String.ofList (List.replicate (width - t.length) ' ') ++ t

/-- A number in base sixteen behind its mark. -/
def hexText (n : Nat) : String := "0x" ++ Text.hex n

/-- The state as a table of its signals. -/
def text : String :=
  s!"Simulator({s.name}) at tick {s.ticks}\n" ++
    String.join (s.snapshot.map fun e => "    " ++ padLeft 10 (hexText e.2) ++ "   " ++ e.1 ++ "\n")

end Simulator

end NandHdl
