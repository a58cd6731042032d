import NandHdl.Bench.Command
import NandHdl.Simulation.Simulator

/-!
# Sessions

A session runs commands on a simulation of one module of a library, and counts
failed assertions.

* `Session.exec`: one command. An error leaves the session as it was.
* `Run`: a script on its way. It stops where a line from the prompt is wanted.
* `Run.start`, `Run.feed`: from one such place to the next.
* `Run.feedAll`: a run to its end, given all lines there are.
-/

namespace NandHdl

/-- Files by their names; `none` if one cannot be read. -/
abbrev Files := String → Option ByteArray

/-- What a command fails at. -/
inductive SessionError
  | simulation (e : SimulationError)
  | unreadable (path : String)
deriving DecidableEq, Repr

def SessionError.message : SessionError → String
  | simulation e => e.message
  | unreadable path => "Cannot read " ++ path

/-- What a session has to say. -/
inductive Output
  /-- A line of its own. -/
  | line (text : String)
  /-- The prompt, behind which a line is read. -/
  | prompt (text : String)
  /-- What is wrong with a line read there. -/
  | badLine (fault : CommandFault)
  /-- What the command of a line read there failed at. -/
  | failed (e : SessionError)
  | event (e : Event)

/-- How to go on after a command. -/
inductive Flow
  | next
  | prompt
  | quit
deriving DecidableEq, Repr

/-- A simulation under the control of a bench. -/
structure Session where
  library : Library
  simulator : Simulator
  failures : Nat

namespace Session

/-- What a command leaves: the session, and how to go on or what it failed at. -/
abbrev Reply := Session × Except SessionError Flow

/-- Prints a line. -/
def say (text : String) : Logged Output Unit := Logged.note (.line text)

/-- Runs the simulation, passing on what is reported. -/
def simulate {α : Type} (x : Logged Event α) : Logged Output α := x.mapLog .event

variable (s : Session)

/-- The next command follows. -/
def go : Logged Output Reply := return (s, .ok .next)

/-- The next command follows, with a new state of the simulation. -/
def goWith (simulator : Simulator) : Logged Output Reply := go { s with simulator := simulator }

/-- The command fails. -/
def fail (e : SessionError) : Logged Output Reply := return (s, .error e)

/-- A number in both bases. -/
def bothBases (n : Nat) : String := s!"{n} (" ++ Simulator.hexText n ++ ")"

/-- Prints a byte of memory. -/
def byteText (addr : Nat) (byte : UInt8) : String :=
  "RAM[0x" ++ Text.hexPadded 2 addr ++ "] => 0x" ++ Text.hexPadded 2 byte.toNat

/-- The lines that list all wires. -/
def listing (sim : Simulator) : List String :=
  s!"{sim.name} at tick {sim.ticks}" ::
    sim.snapshot.map fun e => "    " ++ Simulator.padLeft 16 e.1 ++ " = " ++ bothBases e.2

/-- Simulates another module, which takes over the memory. -/
def setTop (name : String) : Logged Output Reply :=
  match Simulator.ofLibrary s.library (some name) s.simulator.ram with
  | .error e => s.fail (.simulation e)
  | .ok x => do
    let sim ← simulate x
    let (sim, _) ← simulate sim.attachDefault
    say ("TOP " ++ name)
    s.goWith sim

/-- Compares a wire with a value. -/
def check (name : String) (value : Nat) : Logged Output Reply :=
  match s.simulator.peek name with
  | .error e => s.fail (.simulation e)
  | .ok actual =>
    if actual = value then do
      say s!"ASSERT {name} == {value}"
      s.go
    else do
      say (s!"Assertion failed: {name} is " ++ bothBases actual ++ ", expected " ++ bothBases value)
      go { s with failures := s.failures + 1 }

/-- Prints lines. -/
def sayAll : List String → Logged Output Unit
  | [] => return ()
  | l :: ls => do
    say l
    sayAll ls

/-- Runs a command. -/
def exec (files : Files) : Command → Logged Output Reply
  | .top name => s.setTop name
  | .poke name value => do
    say s!"POKE {name} <= {value}"
    match s.simulator.setInput name value with
    | .ok sim => s.goWith sim
    | .error e => s.fail (.simulation e)
  | .peek name =>
    match s.simulator.peek name with
    | .ok v => do
      say (s!"PEEK {name} => " ++ bothBases v)
      s.go
    | .error e => s.fail (.simulation e)
  | .step => do s.goWith (← simulate s.simulator.step)
  | .run cycles => do s.goWith (← simulate (s.simulator.run cycles))
  | .reset => do
    say "RESET"
    s.goWith (← simulate s.simulator.reset)
  | .assert name value => s.check name value
  | .showAll => do
    sayAll (listing s.simulator)
    s.go
  | .rom file => do
    say ("ROM " ++ file)
    match files file with
    | some image => do
      Logged.note (.event (.imageLoaded image.size file))
      s.goWith (← simulate (s.simulator.loadImage image.data))
    | none => s.fail (.unreadable file)
  | .ram none => do
    say s.simulator.ram.text
    s.go
  | .ram (some addr) => do
    say (byteText addr (s.simulator.ram.read addr))
    s.go
  | .debug => return (s, .ok .prompt)
  | .quit => return (s, .ok .quit)

/-- The line asked for at the prompt. -/
def promptText : String := s.simulator.name ++ "> "

end Session

/-- The file that keeps the lines typed at the prompt: the one that is set, if any, or the usual one. -/
def historyFile (setting : Option String) : String :=
  match setting with
  | none | some "" => ".wire_history"
  | some path => path

/-- How a run ends. -/
inductive Ending
  /-- The script is done. -/
  | done
  /-- It was told to stop. -/
  | quit
  | failed (e : SessionError)
deriving DecidableEq, Repr

/-- A run, and what is left of it: the rest of its script behind a prompt, or nothing. -/
structure Run where
  session : Session
  state : List (Nat × Command) ⊕ Ending

namespace Run

/-- A run that waits at the prompt. -/
def waiting (s : Session) (rest : List (Nat × Command)) : Logged Output Run := do
  Logged.note (.prompt s.promptText)
  return ⟨s, .inl rest⟩

/-- A run that is over. -/
def ended (s : Session) (e : Ending) : Logged Output Run := return ⟨s, .inr e⟩

/-- Runs commands up to the first that opens the prompt or ends the run. -/
def proceed (files : Files) : Session → List (Nat × Command) → Logged Output Run
  | s, [] => ended s .done
  | s, (n, c) :: rest => do
    Logged.note (.event (.benchLine n c.text))
    let (s, flow) ← s.exec files c
    match flow with
    | .error e => ended s (.failed e)
    | .ok .quit => ended s .quit
    | .ok .prompt => waiting s rest
    | .ok .next => proceed files s rest

/-- Starts a script. -/
def start (files : Files) (s : Session) (bench : Bench) : Logged Output Run := proceed files s bench.commands

/-- Runs a single command. -/
def single (files : Files) (s : Session) (c : Command) : Logged Output Run := do
  let (s, flow) ← s.exec files c
  match flow with
  | .error e => ended s (.failed e)
  | .ok .quit => ended s .quit
  | .ok .prompt => waiting s []
  | .ok .next => ended s .done

/-- What a line at the prompt does. A line that is no command or fails is complained about. -/
def answer (files : Files) (s : Session) (rest : List (Nat × Command)) (line : String) :
    Logged Output Run :=
  match Command.ofLine line with
  | .error fault => do
    Logged.note (.badLine fault)
    waiting s rest
  | .ok none => waiting s rest
  | .ok (some .debug) => proceed files s rest
  | .ok (some c) => do
    let (s, flow) ← s.exec files c
    match flow with
    | .error e => do
      Logged.note (.failed e)
      waiting s rest
    | .ok .quit => ended s .quit
    | .ok _ => waiting s rest

/-- Hands a run the next line, or the end of all lines. A run that waits for none stays as it is. -/
def feed (files : Files) (r : Run) (line : Option String) : Logged Output Run :=
  match r.state, line with
  | .inr _, _ => return r
  | .inl _, none => ended r.session .quit
  | .inl rest, some l => answer files r.session rest l

/-- Hands a run all lines there are. -/
def feedAll (files : Files) : Run → List String → Logged Output Run
  | r, [] => r.feed files none
  | r, l :: ls => do feedAll files (← r.feed files (some l)) ls

/-- The run waits for a line. -/
def isWaiting (r : Run) : Bool := r.state.isLeft

/-- The ending of a run that is over. -/
def ending (r : Run) : Ending :=
  match r.state with
  | .inl _ => .quit
  | .inr e => e

end Run

end NandHdl
