import NandHdl.Design
import NandHdl.NameTable

/-!
# Netlists

What is left of a module once all instances in it are taken apart: cells of two
kinds, NAND gates and flip-flops, joined bit by bit.

* `Bit`: where a bit comes from.
* `Wire`: bits in a row, the least significant one first.
* `Cell`, `Node`: a primitive and its number.
* `Netlist`: one module taken apart. `Library`: all modules of a design.
-/

namespace NandHdl

/-- The source of one bit. -/
inductive Bit
  /-- The output of a node. -/
  | node (id : Nat)
  /-- A bit of the module's inputs, which lie one after another. -/
  | input (index : Nat)
  | const (value : Bool)
  /-- A read of a name before the statement that assigns it. None is left in a finished netlist. -/
  | forward (slot : Nat)
deriving DecidableEq, Repr

/-- Bits in a row, the least significant one first. -/
structure Wire where
  bits : Array Bit
deriving DecidableEq, Repr

namespace Wire

/-- The number of bits. -/
def width (w : Wire) : Nat := w.bits.size

/-- A bit of the wire, if it has that many. -/
def bit? (w : Wire) (i : Nat) : Option Bit := w.bits[i]?

/-- A bit of the wire, 0 past its end. -/
def bitOrZero (w : Wire) (i : Nat) : Bit := w.bits.getD i (.const false)

/-- The wire whose bit `i` is `f i`. -/
def ofFn (width : Nat) (f : Nat → Bit) : Wire := ⟨Array.ofFn fun i : Fin width => f i⟩

/-- The wire of `width` zeros. -/
def zeros (width : Nat) : Wire := ⟨Array.replicate width (.const false)⟩

/-- The low `width` bits of a number. -/
def constant (value width : Nat) : Wire := ofFn width fun i => .const (value.testBit i)

/-- The wire cut or filled up with zeros to `width` bits. -/
def fit (w : Wire) (width : Nat) : Wire := ofFn width w.bitOrZero

/-- Bits `lo` to `lo + count - 1`, 0 past the end. -/
def extract (w : Wire) (lo count : Nat) : Wire := ofFn count fun i => w.bitOrZero (lo + i)

/-- The wire with its bits from `lo` on replaced by those of `part`, as far as either goes. -/
def splice (w : Wire) (lo : Nat) (part : Wire) : Wire :=
  ofFn w.width fun i => if lo ≤ i ∧ i < lo + part.width then part.bitOrZero (i - lo) else w.bitOrZero i

def map (f : Bit → Bit) (w : Wire) : Wire := ⟨w.bits.map f⟩

@[simp] theorem width_ofFn (n : Nat) (f : Nat → Bit) : (ofFn n f).width = n := by
  simp [width, ofFn]

@[simp] theorem width_zeros (n : Nat) : (zeros n).width = n := by simp [width, zeros]

@[simp] theorem width_constant (v n : Nat) : (constant v n).width = n := width_ofFn _ _

@[simp] theorem width_fit (w : Wire) (n : Nat) : (w.fit n).width = n := width_ofFn _ _

@[simp] theorem width_extract (w : Wire) (lo n : Nat) : (w.extract lo n).width = n := width_ofFn _ _

@[simp] theorem width_splice (w : Wire) (lo : Nat) (part : Wire) : (w.splice lo part).width = w.width :=
  width_ofFn _ _

@[simp] theorem width_map (f : Bit → Bit) (w : Wire) : (w.map f).width = w.width := by
  simp [width, map]

end Wire

/-- A primitive and the bits it is fed with. -/
inductive Cell
  | nand (a b : Bit)
  /-- Captures `d` when `clk` goes from 0 to 1. -/
  | dff (d clk : Bit)
deriving DecidableEq, Repr

namespace Cell

def map (f : Bit → Bit) : Cell → Cell
  | nand a b => nand (f a) (f b)
  | dff d clk => dff (f d) (f clk)

/-- The bits a cell is fed with. -/
def inputs : Cell → List Bit
  | nand a b => [a, b]
  | dff d clk => [d, clk]

def isDff : Cell → Bool
  | nand _ _ => false
  | dff _ _ => true

end Cell

/-- A cell and the number that stands for its output. -/
structure Node where
  id : Nat
  cell : Cell
deriving DecidableEq, Repr

/-- A module taken apart. Its named signals are the inputs, the outputs and the names assigned in the
body; output `f` of an instance `x` with several outputs is named `x.f`. -/
structure Netlist where
  name : String
  inputs : List Port
  outputs : List (Port × Wire)
  nodes : Array Node
  signals : NameTable Wire
deriving DecidableEq

namespace Netlist

/-- The first output of a name. -/
def output? (n : Netlist) (name : String) : Option Wire :=
  (n.outputs.find? (·.1.name = name)).map Prod.snd

def signal? (n : Netlist) (name : String) : Option Wire := n.signals.get? name

/-- The number of input bits. -/
def inputWidth (n : Netlist) : Nat := (n.inputs.map Port.width).foldr (· + ·) 0

/-- The number of flip-flops. -/
def dffCount (n : Netlist) : Nat := n.nodes.countP (·.cell.isDff)

end Netlist

/-- The netlists of a design, in the order of its modules. -/
structure Library where
  netlists : List Netlist
deriving DecidableEq

namespace Library

def get? (l : Library) (name : String) : Option Netlist := l.netlists.find? (·.name = name)

/-- The netlist of the last module. -/
def main? (l : Library) : Option Netlist := l.netlists.getLast?

/-- The names of the modules, in the order of the design. -/
def order (l : Library) : List String := l.netlists.map Netlist.name

end Library

end NandHdl
