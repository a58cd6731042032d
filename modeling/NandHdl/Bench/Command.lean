import NandHdl.Text.Numeral
import NandHdl.Text.Words

/-!
# Bench commands

A bench is a script that drives a simulation, one command a line. A comment
runs from `#` or `;` to the end of its line, and lines without words are passed
over.

* `Command.ofLine`: the command of a line.
* `Command.text`: how a command is written.
* `Bench.ofText`: all commands of a script with their lines, or the first line
  that is none.
-/

namespace NandHdl

/-- What a bench can ask for. -/
inductive Command
  /-- Simulate another module. -/
  | top (name : String)
  /-- Drive an input. -/
  | poke (name : String) (value : Nat)
  /-- Print a wire. -/
  | peek (name : String)
  | step
  | run (cycles : Nat)
  | reset
  /-- Count a failure unless a wire has a value. -/
  | assert (name : String) (value : Nat)
  /-- Print all wires. -/
  | showAll
  /-- Load a file into memory. -/
  | rom (file : String)
  /-- Print a byte of memory, or all of it. -/
  | ram (addr : Option Nat)
  /-- Read commands from the prompt. -/
  | debug
  | quit
deriving DecidableEq, Repr

/-- What is wrong with a line. -/
inductive CommandFault
  | wrongArguments (keyword : String) (found : Nat)
  | unknownCommand (keyword : String)
  | invalidValue (text : String)
deriving DecidableEq, Repr

def CommandFault.message : CommandFault → String
  | wrongArguments keyword found => s!"Wrong number of arguments to {keyword}: {found}"
  | unknownCommand keyword => "Unknown command: " ++ keyword
  | invalidValue text => "Invalid value: " ++ text

namespace Command

/-- The words that start a command. -/
def keywords : List String :=
  ["top", "poke", "peek", "step", "run", "reset", "assert", "show", "rom", "ram", "debug", "quit", "exit"]

/-- The value that a word spells. -/
def valueOf (word : String) : Except CommandFault Nat :=
  match Numeral.value? word with
  | some v => .ok v
  | none => .error (.invalidValue word)

/-- The command of a keyword and its arguments. -/
def build (keyword : String) (args : List String) : Except CommandFault Command :=
  match keyword, args with
  | "top", [name] => .ok (top name)
  | "poke", [name, value] => (valueOf value).map (poke name)
  | "peek", [name] => .ok (peek name)
  | "step", [] => .ok step
  | "run", [] => .ok (run 1)
  | "run", [cycles] => (valueOf cycles).map run
  | "reset", [] => .ok reset
  | "assert", [name, value] => (valueOf value).map (assert name)
  | "show", [] => .ok showAll
  | "rom", [file] => .ok (rom file)
  | "ram", [] => .ok (ram none)
  | "ram", [addr] => (valueOf addr).map fun a => ram (some a)
  | "debug", [] => .ok debug
  | "quit", [] => .ok quit
  | "exit", [] => .ok quit
  | keyword, args =>
    .error (if keyword ∈ keywords then .wrongArguments keyword args.length else .unknownCommand keyword)

/-- The line in front of its comment. -/
def uncommented (line : List Char) : List Char := line.takeWhile fun c => c ≠ '#' ∧ c ≠ ';'

/-- The command of a line, if the line has words. -/
def ofLine (line : String) : Except CommandFault (Option Command) :=
  match Text.words (uncommented line.toList) with
  | [] => .ok none
  | keyword :: args => (build keyword args).map some

/-- The file that a command reads. -/
def file? : Command → Option String
  | rom file => some file
  | _ => none

/-- The files that the command of a line reads. -/
def filesOfLine (line : String) : List String :=
  match ofLine line with
  | .ok (some c) => c.file?.toList
  | _ => []

/-- How a command is written. -/
def text : Command → String
  | top name => "top " ++ name
  | poke name value => s!"poke {name} {value}"
  | peek name => "peek " ++ name
  | step => "step"
  | run cycles => s!"run {cycles}"
  | reset => "reset"
  | assert name value => s!"assert {name} {value}"
  | showAll => "show"
  | rom file => "rom " ++ file
  | ram none => "ram"
  | ram (some addr) => s!"ram {addr}"
  | debug => "debug"
  | quit => "quit"

end Command

/-- The first line of a script that is no command, and why. -/
structure BenchError where
  line : Nat
  fault : CommandFault
deriving DecidableEq, Repr

def BenchError.message (e : BenchError) : String := e.fault.message

def BenchError.text (e : BenchError) : String := s!"testbench line {e.line}: " ++ e.message

/-- Commands and the lines they stand on. -/
structure Bench where
  commands : List (Nat × Command)
deriving DecidableEq, Repr

namespace Bench

/-- The commands of lines, the first of which has number `n`. -/
def commandsFrom : Nat → List String → Except BenchError (List (Nat × Command))
  | _, [] => .ok []
  | n, line :: rest =>
    match Command.ofLine line with
    | .error fault => .error ⟨n, fault⟩
    | .ok none => commandsFrom (n + 1) rest
    | .ok (some c) => (commandsFrom (n + 1) rest).map ((n, c) :: ·)

/-- The commands of a script. -/
def ofText (source : String) : Except BenchError Bench := (commandsFrom 1 (Text.lines source)).map Bench.mk

/-- The files that the commands read. -/
def files (b : Bench) : List String := b.commands.filterMap fun c => c.2.file?

/-- The script that only opens the prompt. -/
def promptOnly : Bench := ⟨[(0, .debug)]⟩

end Bench

end NandHdl
