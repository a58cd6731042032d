import NandHdl.Elaboration.Signal

/-!
# Forward reads

A read of a name before the statement that assigns it yields numbered slots, one
for each bit. At the end of a body every slot gives way to the bit of the name's
last binding. That bit may be a slot again, so it is chased until it is none.

* `finalBit`: the bit that a slot stands for, which may be a slot again.
* `chase`: the end of a chain of slots, or `none` if it has no end.
* `Bit.resolve`: the bit that replaces a bit.
-/

namespace NandHdl

/-- A bit of a name that is read before it is assigned. -/
structure ForwardSlot where
  name : String
  bit : Nat
deriving DecidableEq, Repr

/-- The bit of a name's last binding that a slot stands for. -/
def finalBit (scope : Scope Signal) (slot : ForwardSlot) : Bit :=
  (follow scope (.forward slot.name)).bitOrZero slot.bit

/-- Follows a bit through slots numbered from `base` on, at most `fuel` times. Slot `base + i` stands
for `direct[i]`, and slots below `base` belong to an outer body. -/
def chase (base : Nat) (direct : Array Bit) : Nat → Bit → Option Bit
  | fuel, .forward n =>
    if n < base then some (.forward n)
    else
      match fuel with
      | 0 => none
      | fuel + 1 => chase base direct fuel (direct.getD (n - base) (.const false))
  | _, b => some b

/-- The end of the chain from every slot on. No chain that ends is longer than the number of slots. -/
def chaseAll (base : Nat) (direct : Array Bit) : Array (Option Bit) :=
  direct.map (chase base direct (direct.size + 1))

namespace Bit

/-- The bit is no slot from `limit` on. -/
def slotBelow (limit : Nat) : Bit → Bool
  | forward n => n < limit
  | _ => true

/-- Replaces slot `base + i` by the end of its chain, and by 0 if it has none. -/
def resolve (base : Nat) (ends : Array (Option Bit)) : Bit → Bit
  | forward n => if n < base then forward n else (ends.getD (n - base) none).getD (const false)
  | b => b

end Bit

def Wire.slotsBelow (limit : Nat) (w : Wire) : Bool := w.bits.all (·.slotBelow limit)

def Cell.slotsBelow (limit : Nat) (c : Cell) : Bool := c.inputs.all (·.slotBelow limit)

end NandHdl
