import NandHdl.Elaboration.Body

/-!
# Compiling a design

The modules of a design are elaborated in order. A module may call those before
it; its own name is known too, but calling it is an error.

* `checkDesign`: what is wrong with a design before any elaboration.
* `Ledger.compile`: the netlists of a design. Node numbers go on from where the
  last successful module left them.
-/

namespace NandHdl

namespace Elaboration

/-- The first name that also occurs before it. -/
def firstRepeated? : List String → List String → Option String
  | _, [] => none
  | seen, n :: ns => if n ∈ seen then some n else firstRepeated? (n :: seen) ns

/-- Checks what can be seen in a module alone, given the names of the modules before it. -/
def checkModule (seen : List String) (m : Module) : Except CompileError Unit :=
  if m.name ∈ seen then .error (.duplicateModule m.name)
  else
    match firstRepeated? [] (m.ports.map Port.name) with
    | some port => .error (.duplicatePort m.name port)
    | none => if widthLimit < m.maxIndex then .error (.indexOutOfRange m.name m.maxIndex) else .ok ()

/-- Checks modules one after another. -/
def checkModules : List String → List Module → Except CompileError Unit
  | _, [] => .ok ()
  | seen, m :: ms => do
    checkModule seen m
    checkModules (m.name :: seen) ms

/-- Checks a design: it has modules, their names differ, the ports of each have different names, and no
width or bit number is too large. -/
def checkDesign (modules : List Module) : Except CompileError Unit :=
  if modules.isEmpty then .error .noModules else checkModules [] modules

/-- A module as seen from inside itself: calling it is an error. -/
def Callee.recursive (m : Module) : Callee where
  name := m.name
  inputs := m.inputs
  instantiate chain _ := throw (.recursiveInstantiation (m.name :: chain).reverse)

/-- The modules that `m` may call, given those before it. -/
def visibleFrom (earlier : List Callee) (m : Module) : List Callee := Callee.recursive m :: earlier

/-- A module as seen from later ones. -/
def Callee.ofModule (earlier : List Callee) (m : Module) : Callee where
  name := m.name
  inputs := m.inputs
  instantiate chain args := return (← Elaboration.instantiate (visibleFrom earlier m) m chain args).outputs

/-- The inputs of a module as wires, which lie one after another from bit `offset` on. -/
def inputWires : Nat → List Port → List Wire
  | _, [] => []
  | offset, p :: ps => .ofFn p.width (fun i => .input (offset + i)) :: inputWires (offset + p.width) ps

/-- The netlist of a module. A name stands for its output before its local wire, and for that before
its input. -/
def netlist (earlier : List Callee) (m : Module) : Build Netlist := do
  let wires := inputWires 0 m.inputs
  let inst ← instantiate (visibleFrom earlier m) m [] wires
  let inputs := (m.inputs.map Port.name).zip wires
  return {
    name := m.name
    inputs := m.inputs
    outputs := m.outputs.zip (inst.outputs.map Prod.snd)
    nodes := (← get).nodes
    signals := ((NameTable.empty.insertAll inputs).insertAll inst.locals).insertAll inst.outputs }

/-- The state before a module is elaborated. -/
def State.initial (nextId : Nat) : State := ⟨nextId, #[], 0, #[], []⟩

/-- The outcome for the rest of a design: the netlists or the first error, the next node number, and
the reports in order. -/
structure Outcome (α : Type) where
  result : Except CompileError α
  nextId : Nat
  log : List Event

/-- Elaborates modules in order, given those before them. -/
def compileFrom : List Callee → Nat → List Module → Outcome (List Netlist)
  | _, nextId, [] => ⟨.ok [], nextId, []⟩
  | earlier, nextId, m :: ms =>
    match (netlist earlier m).run (State.initial nextId) with
    | (.error e, s) => ⟨.error e, nextId, s.log.reverse⟩
    | (.ok n, s) =>
      let report := Event.compiled m.name n.nodes.size nextId s.nextId
      let rest := compileFrom (Callee.ofModule earlier m :: earlier) s.nextId ms
      ⟨rest.result.map (n :: ·), rest.nextId, s.log.reverse ++ report :: rest.log⟩

end Elaboration

/-- The numbers handed out to nodes so far. -/
structure Ledger where
  nextId : Nat := 0
deriving DecidableEq, Repr

namespace Ledger

/-- The outcome of compiling a design: its netlists or what is wrong with it, the ledger afterwards and
the reports. -/
structure Outcome where
  result : Except CompileError Library
  ledger : Ledger
  log : List Event

/-- Compiles a design. A module that fails takes no numbers. -/
def compile (l : Ledger) (modules : List Module) : Outcome :=
  match Elaboration.checkDesign modules with
  | .error e => ⟨.error e, l, []⟩
  | .ok () =>
    let r := Elaboration.compileFrom [] l.nextId modules
    ⟨r.result.map Library.mk, ⟨r.nextId⟩, r.log⟩

/-- Starts numbering nodes from 0 again. -/
def reset (_ : Ledger) : Ledger := {}

end Ledger

/-- Compiles a design on its own. -/
def compile (modules : List Module) : Except CompileError Library := (Ledger.compile {} modules).result

end NandHdl
