import NandHdl.Simulation.Simulator

/-!
# Operations

A simulation is driven by operations, each of which has an answer.

* `Operation`: all that can be asked of a simulation.
* `View`: the values that can be seen.
* `Simulator.perform`: an operation's answer, and the simulation afterwards. One
  that is refused leaves the simulation as it was.
-/

namespace NandHdl

/-- What can be asked of a simulation. The last six only look. -/
inductive Operation
  | setInput (name : String) (value : Nat)
  | step
  | run (ticks : Nat)
  | reset
  | loadImage (image : Array UInt8)
  | writeRam (addr : Nat) (byte : UInt8)
  | attach (names : BusNames)
  | attachDefault
  | output (name : String)
  | wire (name : String)
  | readRam (addr : Nat)
  | memory
  | names
  | table
deriving DecidableEq, Repr

/-- The values that can be seen from outside. -/
structure View where
  ticks : Nat
  signals : List (String × Nat)
  outputs : List (String × Nat)
deriving DecidableEq, Repr

/-- The answer to an operation. -/
inductive Answer
  | view (v : View)
  | refused (e : SimulationError)
  /-- Whether the memory could be joined. -/
  | joined (yes : Bool)
  | number (n : Nat)
  | byte (b : UInt8)
  | memory (size : Nat) (text : String)
  | names (module : String) (inputs outputs signals : List String)
  | text (t : String)
deriving DecidableEq, Repr

/-- The answer that a value or its absence is. -/
def Answer.ofValue : Except SimulationError Nat → Answer
  | .ok n => .number n
  | .error e => .refused e

namespace Simulator

variable (s : Simulator)

/-- The values that can be seen. Of outputs with one name the first is shown. -/
def view : View where
  ticks := s.ticks
  signals := s.snapshot
  outputs := s.circuit.outputs.map fun o => (o.1, (s.output o.1).toOption.getD 0)

/-- What is seen after an operation, and the simulation. -/
def seen : Simulator × Answer := (s, .view s.view)

/-- What is seen after an operation that can be refused, and the simulation. -/
def seenOr : Except SimulationError (Logged Event Simulator) → Logged Event (Simulator × Answer)
  | .ok x => seen <$> x
  | .error e => return (s, .refused e)

/-- Performs an operation. -/
def perform : Operation → Logged Event (Simulator × Answer)
  | .setInput name value => s.seenOr ((s.setInput name value).map pure)
  | .step => seen <$> s.step
  | .run n => seen <$> s.run n
  | .reset => seen <$> s.reset
  | .loadImage image => seen <$> s.loadImage image
  | .writeRam addr byte => return (s.writeRam addr byte).seen
  | .attach names => s.seenOr (s.attach names)
  | .attachDefault => (fun r => (r.1, .joined r.2)) <$> s.attachDefault
  | .output name => return (s, .ofValue (s.output name))
  | .wire name => return (s, .ofValue (s.wire name))
  | .readRam addr => return (s, .byte (s.ram.read addr))
  | .memory => return (s, .memory s.ram.size s.ram.text)
  | .names =>
    return (s, .names s.name s.circuit.inputs.names (s.circuit.outputs.map Prod.fst) s.circuit.signals.names)
  | .table => return (s, .text s.text)

/-- Performs operations one after another. -/
def performAll : Simulator → List Operation → Logged Event (Simulator × List Answer)
  | s, [] => return (s, [])
  | s, op :: ops => do
    let (s, a) ← s.perform op
    let (s, as) ← performAll s ops
    return (s, a :: as)

end Simulator

end NandHdl
