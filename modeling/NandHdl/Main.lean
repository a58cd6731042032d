import NandHdl.CommandLine
import NandHdl.Text.Typed

/-!
# The program

Reads files and lines, prints what the library says, and decides nothing.
-/

namespace NandHdl

/-- The contents of those files that can be read. -/
def readFiles (paths : List String) : IO (List (String × ByteArray)) :=
  paths.filterMapM fun (path : String) => do
    try
      return some (path, ← IO.FS.readBinFile path)
    catch _ =>
      return none

/-- Files of known contents. -/
def filesIn (known : List (String × ByteArray)) : Files := fun path => known.lookup path

/-- Prints one thing on its way. -/
def printOutput (limit : Level) (o : Output) : IO Unit :=
  match o with
  | .line text => IO.println text
  | .prompt text => do
    IO.print text
    (← IO.getStdout).flush
  | .badLine fault => IO.eprintln fault.message
  | .failed e => IO.eprintln e.message
  | .event e => if e.shownAt limit then IO.eprintln e.line else return ()

/-- A line typed on standard input. -/
def readLine : IO (Option String) := do
  let line ← (← IO.getStdin).getLine
  return (Text.typedLines line).head?

/-- Hands lines to a run for as long as it waits for them. -/
partial def converse (limit : Level) (known : List (String × ByteArray)) (r : Run) : IO Run := do
  if r.isWaiting then
    let line ← readLine
    let more ← readFiles (line.map Command.filesOfLine).toList.flatten
    let known := more ++ known
    let next := r.feed (filesIn known) line
    next.log.forM (printOutput limit)
    converse limit known next.value
  else
    return r

/-- How much is reported. -/
def reportLevel (inv : Invocation) : IO Level := do
  let setting := (← IO.getEnv "LEVEL").getD ""
  return if inv.debug ∨ setting = "DEBUG" then .debug else if setting = "TRACE" then .trace else .info

/-- Runs the program and returns its exit code. -/
def runProgram (inv : Invocation) : IO UInt32 := do
  let limit ← reportLevel inv
  let own ← readFiles inv.files
  let known := own ++ (← readFiles (inv.benchFiles (filesIn own)))
  let start := inv.launch (filesIn known)
  start.log.forM (printOutput limit)
  let launch ← match start.value with
    | .ended e => pure (Launch.ended e)
    | .running r => Launch.running <$> converse limit known r
  match launch.exit with
  | none => return 0
  | some e => do
    IO.eprintln e.text
    return 1

end NandHdl

def main (args : List String) : IO UInt32 :=
  match NandHdl.Invocation.ofArgs? args with
  | some inv => NandHdl.runProgram inv
  | none => do
    IO.eprintln NandHdl.Invocation.usage
    return 2
