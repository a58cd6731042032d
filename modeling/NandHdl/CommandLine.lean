import NandHdl.Bench.Session
import NandHdl.Design.Interchange
import NandHdl.Netlist.Interchange
import NandHdl.Toolchain

/-!
# The command line

A source file is compiled and run under a bench: the one that is named, or the
one beside the source file, or the prompt if there is none. The syntax tree or
the netlists are printed instead if asked for.

* `Invocation.ofArgs?`: what the arguments ask for.
* `Invocation.launch`: everything up to the first prompt.
* `Launch.exit`: how a finished run ends the program.
-/

namespace NandHdl

/-- What the program is asked to do. -/
structure Invocation where
  source : String
  bench : Option String := none
  top : Option String := none
  rom : Option String := none
  dumpAst : Bool := false
  dumpNetlist : Bool := false
  debug : Bool := false
deriving DecidableEq, Repr

namespace Invocation

/-- The arguments read so far. -/
structure Draft where
  source : Option String := none
  bench : Option String := none
  top : Option String := none
  rom : Option String := none
  dumpAst : Bool := false
  dumpNetlist : Bool := false
  debug : Bool := false

/-- Sets what may be given only once. -/
def once {α : Type} (old : Option α) (new : α) : Option (Option α) :=
  match old with
  | none => some (some new)
  | some _ => none

/-- Raises a flag that may be given only once. -/
def flag (old : Bool) : Option Bool := if old then none else some true

namespace Draft

/-- Takes the file name. -/
def take (p : Draft) (name : String) : Option Draft := do
  return { p with source := ← once p.source name }

/-- Takes an option and its value. -/
def takeOption (p : Draft) (name value : String) : Option Draft :=
  match name with
  | "--tb" => do return { p with bench := ← once p.bench value }
  | "--top" => do return { p with top := ← once p.top value }
  | "--rom" => do return { p with rom := ← once p.rom value }
  | _ => none

/-- Takes an option that has no value. -/
def takeFlag (p : Draft) (name : String) : Option Draft :=
  match name with
  | "--dump-ast" => do return { p with dumpAst := ← flag p.dumpAst }
  | "--dump-netlist" => do return { p with dumpNetlist := ← flag p.dumpNetlist }
  | "--debug" | "-d" => do return { p with debug := ← flag p.debug }
  | _ => none

/-- Takes file names only. -/
def takeNames : Draft → List String → Option Draft
  | p, [] => some p
  | p, a :: as => do takeNames (← p.take a) as

/-- The argument is an option. A lone dash is a file name. -/
def isOption (arg : String) : Bool := arg.startsWith "-" && arg ≠ "-"

/-- The name and the value of an option written in one piece. -/
def splitOption? (arg : String) : Option (String × String) :=
  let cs := arg.toList
  match cs.dropWhile (· ≠ '=') with
  | _ :: value => some (String.ofList (cs.takeWhile (· ≠ '=')), String.ofList value)
  | [] => none

/-- Takes all arguments. -/
def takeAll : Draft → List String → Option Draft
  | p, [] => some p
  | p, [a] =>
    if a = "--" then some p
    else if isOption a then
      match splitOption? a with
      | some (name, value) => p.takeOption name value
      | none => p.takeFlag a
    else p.take a
  | p, a :: b :: rest =>
    if a = "--" then takeNames p (b :: rest)
    else if isOption a then
      match splitOption? a with
      | some (name, value) => do takeAll (← p.takeOption name value) (b :: rest)
      | none =>
        match p.takeFlag a with
        | some p => takeAll p (b :: rest)
        | none => if isOption b then none else do takeAll (← p.takeOption a b) rest
    else do takeAll (← p.take a) (b :: rest)

end Draft

/-- What the arguments ask for, if they make sense. -/
def ofArgs? (args : List String) : Option Invocation := do
  let p ← Draft.takeAll {} args
  return {
    source := ← p.source
    bench := p.bench
    top := p.top
    rom := p.rom
    dumpAst := p.dumpAst
    dumpNetlist := p.dumpNetlist
    debug := p.debug }

end Invocation

/-! ## File names -/

namespace FileName

/-- A folder, read backwards, without the slashes at its end and the dots there that only repeat it. -/
def bareFolder : List Char → List Char
  | '/' :: cs => bareFolder cs
  | '.' :: '/' :: cs => bareFolder cs
  | cs => cs

/-- A name as the folder it is in and the last part. The folder ends in one slash, if it is not empty. -/
def split (name : String) : String × String :=
  let back := name.toList.reverse
  let folder :=
    match back.dropWhile (· ≠ '/') with
    | [] => []
    | slashes => '/' :: bareFolder slashes
  (String.ofList folder.reverse, String.ofList (back.takeWhile (· ≠ '/')).reverse)

/-- The last part without its extension. A dot in front starts no extension. -/
def stem (last : String) : String :=
  let back := last.toList.reverse
  match back.dropWhile (· ≠ '.') with
  | [] => last
  | [_] => last
  | _ :: front => String.ofList front.reverse

/-- The bench that belongs to a source file: in the same folder, under the same name. -/
def benchBeside? (source : String) : Option String :=
  let (folder, last) := split source
  if last = "" ∨ last = "." ∨ last = ".." then none else some (folder ++ stem last ++ ".tb")

end FileName

/-! ## Running -/

/-- What ends the program with a failure. -/
inductive ProgramError
  | unreadable (path : String)
  | source (e : SourceError)
  | bench (e : BenchError)
  | session (e : SessionError)
  | assertions (failures : Nat)
deriving DecidableEq, Repr

def ProgramError.text : ProgramError → String
  | unreadable path => "Error: " ++ (SessionError.unreadable path).message
  | source e => "Compilation failed: " ++ e.text
  | bench e => "Error: " ++ e.text
  | session e => "Error: " ++ e.message
  | assertions n => s!"{n} assertions failed."

/-- Whether the program failed at a system call, which is told in the system's own words. -/
def ProgramError.isSystem : ProgramError → Bool
  | unreadable _ => true
  | session (.unreadable _) => true
  | _ => false

/-- The program after its start: done, or running. -/
inductive Launch
  | ended (error : Option ProgramError)
  | running (r : Run)

namespace Launch

/-- How a launch ends the program once its run is over. -/
def exit : Launch → Option ProgramError
  | ended e => e
  | running r =>
    match r.ending with
    | .failed e => some (.session e)
    | _ => if r.session.failures = 0 then none else some (.assertions r.session.failures)

/-- Hands a running program all lines there are. -/
def feedAll (files : Files) (lines : List String) : Launch → Logged Output Launch
  | ended e => return ended e
  | running r => return running (← r.feedAll files lines)

end Launch

namespace Invocation

/-- A text file. -/
def readText (files : Files) (path : String) : Except ProgramError String :=
  match (files path).bind String.fromUTF8? with
  | some t => .ok t
  | none => .error (.unreadable path)

/-- The bench beside the source file, if there is one. -/
def besideFile? (files : Files) (inv : Invocation) : Option String :=
  (FileName.benchBeside? inv.source).filter fun path => (files path).isSome

/-- The bench file to use. -/
def benchFile? (files : Files) (inv : Invocation) : Option String := inv.bench.or (inv.besideFile? files)

/-- The bench to run, after telling which one it is. -/
def chooseBench (files : Files) (inv : Invocation) : Logged Output (Except ProgramError Bench) :=
  match inv.benchFile? files with
  | none => do
    Session.say "No testbench file"
    return .ok .promptOnly
  | some path => do
    Session.say ("Using testbench file: " ++ path)
    match readText files path with
    | .error e => return .error e
    | .ok text => return (Bench.ofText text).mapError .bench

/-- A simulator with its memory loaded and joined. -/
def prepare (files : Files) (inv : Invocation) (library : Library) :
    Logged Output (Except ProgramError Simulator) :=
  match Simulator.ofLibrary library inv.top (.zeros Ram.defaultSize) with
  | .error e => return .error (.session (.simulation e))
  | .ok x => do
    let sim ← Session.simulate x
    let loaded ← match inv.rom with
      | none => pure (Except.ok sim)
      | some path =>
        match files path with
        | none => pure (.error (ProgramError.unreadable path))
        | some image => do
          Logged.note (.event (.imageLoaded image.size path))
          pure (.ok (← Session.simulate (sim.loadImage image.data)))
    match loaded with
    | .error e => return .error e
    | .ok sim => return .ok (← Session.simulate sim.attachDefault).1

/-- Starts the bench of a compiled design. -/
def startBench (files : Files) (inv : Invocation) (library : Library) : Logged Output Launch := do
  match ← inv.chooseBench files with
  | .error e => return .ended (some e)
  | .ok bench =>
    match ← inv.prepare files library with
    | .error e => return .ended (some e)
    | .ok sim => return .running (← Run.start files ⟨library, sim, 0⟩ bench)

/-- Everything up to the first prompt. -/
def launch (files : Files) (inv : Invocation) : Logged Output Launch :=
  match readText files inv.source with
  | .error e => return .ended (some e)
  | .ok text => do
    match ← Session.simulate (readSource text) with
    | .error e => return .ended (some (.source e))
    | .ok modules =>
      if inv.dumpAst then do
        Session.say (designToJson modules).pretty
        return .ended none
      else
        match ← Session.simulate (compileModules modules) with
        | .error e => return .ended (some (.source (.compile e)))
        | .ok library =>
          if inv.dumpNetlist then do
            Session.say library.toJson.pretty
            return .ended none
          else inv.startBench files library

/-- The files that the arguments name or imply. -/
def files (inv : Invocation) : List String :=
  inv.source :: ((FileName.benchBeside? inv.source).toList ++ inv.bench.toList ++ inv.rom.toList)

/-- The files that the commands of the bench name. -/
def benchFiles (inv : Invocation) (files : Files) : List String :=
  match (inv.benchFile? files).map (readText files) with
  | some (.ok text) =>
    match Bench.ofText text with
    | .ok b => b.files
    | .error _ => []
  | _ => []

/-- How to call the program. -/
def usage : String :=
  "Usage: nandhdl FILE [--tb BENCH] [--top MODULE] [--rom IMAGE] [--dump-ast] [--dump-netlist] [--debug]"

end Invocation

end NandHdl
