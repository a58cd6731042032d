import NandHdl.Event
import NandHdl.Logged
import NandHdl.Netlist
import Std.Data.TreeMap

/-!
# Circuits

A netlist made ready for simulation: node numbers are replaced by places in an
array of bits, gates are told from flip-flops, and ports know their pins.

* `Source`: where a cell reads a bit.
* `Gate`, `Flop`, `Pin`: NAND gates, flip-flops, and the stretch of input bits
  that belongs to a port.
* `Wiring.sources`: the sources of a wire. An unknown node number reads as 0 and
  is reported; of several nodes with one number the last counts.
-/

namespace NandHdl

/-- Where a bit is read while a circuit runs. -/
inductive Source
  /-- The node at a place of the netlist. -/
  | node (place : Nat)
  | input (index : Nat)
  | const (value : Bool)
deriving DecidableEq, Repr

/-- A NAND gate and its place. -/
structure Gate where
  out : Nat
  a : Source
  b : Source
deriving DecidableEq, Repr

/-- A flip-flop and its place. -/
structure Flop where
  out : Nat
  d : Source
  clk : Source
deriving DecidableEq, Repr

/-- The input bits of a port. -/
structure Pin where
  offset : Nat
  width : Nat
deriving DecidableEq, Repr

/-- The place of every node number. -/
abbrev Places := Std.TreeMap Nat Nat

namespace Wiring

/-- The places of the numbers of nodes that start at place `i`. The last node of a number counts. -/
def placesFrom : Nat → List Node → Places → Places
  | _, [], places => places
  | i, n :: ns, places => placesFrom (i + 1) ns (places.insert n.id i)

/-- The place of every node number of a netlist. -/
def places (nodes : List Node) : Places := placesFrom 0 nodes ∅

variable (module : String) (places : Places)

/-- The source of a bit. -/
def source : Bit → Logged Event Source
  | .node id =>
    match places[id]? with
    | some i => return .node i
    | none => do
      Logged.note (.unknownNode module id)
      return .const false
  | .input i => return .input i
  | .const b => return .const b
  | .forward _ => return .const false

/-- The sources of bits, in order. -/
def sources : List Bit → Logged Event (List Source)
  | [] => return []
  | b :: bs => return (← source module places b) :: (← sources bs)

/-- The sources of wires under their names. -/
def namedSources : List (String × Wire) → Logged Event (List (String × List Source))
  | [] => return []
  | (name, w) :: rest => return (name, ← sources module places w.bits.toList) :: (← namedSources rest)

/-- The gates and the flip-flops among nodes that start at place `i`. -/
def cells : Nat → List Node → Logged Event (List Gate × List Flop)
  | _, [] => return ([], [])
  | i, ⟨_, .nand a b⟩ :: ns => do
    let a ← source module places a
    let b ← source module places b
    let (gates, flops) ← cells (i + 1) ns
    return (⟨i, a, b⟩ :: gates, flops)
  | i, ⟨_, .dff d clk⟩ :: ns => do
    let d ← source module places d
    let clk ← source module places clk
    let (gates, flops) ← cells (i + 1) ns
    return (gates, ⟨i, d, clk⟩ :: flops)

end Wiring

/-- The pins of ports, which lie one after another from bit `offset` on. -/
def Pin.ofPorts : Nat → List Port → List (String × Pin)
  | _, [] => []
  | offset, p :: ps => (p.name, ⟨offset, p.width⟩) :: Pin.ofPorts (offset + p.width) ps

end NandHdl
