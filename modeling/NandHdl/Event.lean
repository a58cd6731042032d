import NandHdl.Design.Printer
import NandHdl.Text.Quoted

/-!
# Events

What is worth telling about a run besides its result. An event is a value;
whoever asked for the run decides which levels are shown.

* `Event.level`, `Event.message`: how an event is reported.
-/

namespace NandHdl

/-- How urgent an event is. -/
inductive Level
  | warn | info | debug | trace
deriving DecidableEq, Repr

namespace Level

def name : Level → String
  | warn => "WARN"
  | info => "INFO"
  | debug => "DEBUG"
  | trace => "TRACE"

/-- The less urgent, the higher. -/
def rank : Level → Nat
  | warn => 0
  | info => 1
  | debug => 2
  | trace => 3

end Level

/-- What happened. `module` is the name of the module it happened in. -/
inductive Event
  | moduleRead (name : String) (statements : Nat)
  | designRead (modules : Nat)
  | instantiating (depth : Nat) (name : String)
  | compiled (module : String) (nodes firstId nextId : Nat)
  | undefinedName (name module : String)
  | undefinedModule (callee module : String)
  | noSuchField (field : String) (object : Expr)
  | noInstance (object : Expr) (field : String)
  | bundleAsWire (outputs : Nat) (module : String)
  | bitOutOfRange (bit width : Nat) (module : String)
  | unassignedOutput (port module : String)
  | selfDefined (name module : String)
  | unknownNode (module : String) (id : Nat)
  | simulating (module : String) (nands dffs inputBits : Nat)
  | tick (module : String) (number : Nat)
  | settled (module : String) (passes : Nat)
  | unsettled (module : String) (passes : Nat)
  | busAttached (module bus : String)
  | noBus (module reason : String)
  | ramWritten (module : String) (addr byte : Nat)
  | imageTruncated (size kept : Nat)
  | imageLoaded (size : Nat) (path : String)
  | benchLine (line : Nat) (command : String)
deriving Repr

namespace Event

def level : Event → Level
  | moduleRead .. | instantiating .. | busAttached .. | noBus .. | ramWritten .. => .debug
  | designRead .. | compiled .. | simulating .. | imageLoaded .. => .info
  | tick .. | settled .. | benchLine .. => .trace
  | undefinedName .. | undefinedModule .. | noSuchField .. | noInstance .. | bundleAsWire ..
  | bitOutOfRange .. | unassignedOutput .. | selfDefined .. | unknownNode .. | unsettled ..
  | imageTruncated .. => .warn

def message : Event → String
  | moduleRead name n => s!"Parsed module {name} ({n} statements)"
  | designRead n => s!"Parsed {n} modules"
  | instantiating depth name => String.join (List.replicate depth "  ") ++ s!"instantiate {name}"
  | compiled m n first next => s!"Compiled {m}: {n} nodes (ids {first}..{next})"
  | undefinedName name m => s!"Undefined name {name} in {m}; using 0"
  | undefinedModule callee m => s!"Undefined module {callee} called from {m}; its outputs are 0"
  | noSuchField field object => s!"No output named {field} in {object.text}; using 0"
  | noInstance object field => s!"{object.text} is not a module instance, so it has no field {field}; using 0"
  | bundleAsWire n m => s!"An instance with {n} outputs is used as a single wire in {m}; using 0"
  | bitOutOfRange bit width m =>
    s!"Bit {bit} is out of range for a {width} bit wire in {m}; missing bits are 0"
  | unassignedOutput port m => s!"Output {port} of {m} is never assigned"
  | selfDefined name m => s!"{name} in {m} is defined only in terms of itself; using 0"
  | unknownNode m id => s!"{m}: node {id} is not part of this netlist; using 0"
  | simulating m nands dffs bits => s!"Simulating {m}: {nands} nands, {dffs} dffs, {bits} input bits"
  | tick m n => s!"{m}: tick {n}"
  | settled m passes => s!"{m}: settled after {passes} passes"
  | unsettled m passes => s!"{m}: did not settle after {passes} passes"
  | busAttached m bus => s!"{m}: ram bus attached ({bus})"
  | noBus m reason => s!"{m}: no ram bus ({reason})"
  | ramWritten m addr byte =>
    m ++ ": ram[0x" ++ Text.hexPadded 2 addr ++ "] <= 0x" ++ Text.hexPadded 2 byte
  | imageTruncated size kept => s!"Ram: image of {size} bytes truncated to {kept}"
  | imageLoaded size path => s!"Loaded {size} bytes from {path}"
  | benchLine line command => s!"testbench line {line}: {command}"

/-- The event is at least as urgent as `limit`. -/
def shownAt (limit : Level) (e : Event) : Bool := e.level.rank ≤ limit.rank

/-- The line that reports an event. -/
def line (e : Event) : String := e.level.name ++ " " ++ e.message

end Event

end NandHdl
