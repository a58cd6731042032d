import NandHdl.Event
import NandHdl.Logged

/-!
# Memory

A memory of bytes. Addresses wrap around its size.

* `Ram.read`, `Ram.write`, `Ram.load`: bytes out and in.
* `Ram.text`: the contents, sixteen bytes a row.
* `BusNames`: the names of the wires that join a memory to a circuit.
-/

namespace NandHdl

/-- A memory, which holds at least one byte. -/
structure Ram where
  bytes : Array UInt8
  size_pos : 0 < bytes.size

namespace Ram

/-- The size of a memory if none is asked for. -/
def defaultSize : Nat := 256

/-- A memory of zeros. A size of 0 becomes 1. -/
def zeros (size : Nat) : Ram :=
  ⟨Array.replicate (max size 1) 0, by rw [Array.size_replicate]; omega⟩

def size (r : Ram) : Nat := r.bytes.size

/-- The byte at an address. -/
def read (r : Ram) (addr : Nat) : UInt8 :=
  have : addr % r.bytes.size < r.bytes.size := Nat.mod_lt addr r.size_pos
  r.bytes[addr % r.bytes.size]

/-- Puts a byte at an address. -/
def write (r : Ram) (addr : Nat) (byte : UInt8) : Ram :=
  ⟨r.bytes.set (addr % r.bytes.size) byte (Nat.mod_lt addr r.size_pos), by
    rw [Array.size_set]; exact r.size_pos⟩

/-- Replaces the first bytes by `image`, which ends where the memory does. -/
def overwrite (r : Ram) (image : Array UInt8) : Ram :=
  ⟨Array.ofFn fun i : Fin r.bytes.size => image.getD i r.bytes[i], by
    rw [Array.size_ofFn]; exact r.size_pos⟩

/-- Loads an image to the start of memory. What goes past the end is dropped. -/
def load (r : Ram) (image : Array UInt8) : Logged Event Ram := do
  if r.size < image.size then Logged.note (.imageTruncated image.size r.size)
  return r.overwrite image

/-- Cuts a list into rows, the last of which may be shorter. -/
def rowsOf {α : Type} (length : Nat) : Nat → List α → List (List α)
  | 0, _ => []
  | _, [] => []
  | fuel + 1, xs => xs.take length :: rowsOf length fuel (xs.drop length)

/-- A row of bytes behind the address of its first. -/
def rowText (row : Nat) (bytes : List UInt8) : String :=
  Text.hexPadded 4 (row * 16) ++ ": " ++ " ".intercalate (bytes.map fun b => Text.hexPadded 2 b.toNat)

/-- All bytes in rows of sixteen. -/
def text (r : Ram) : String :=
  let rows := rowsOf 16 r.size r.bytes.toList
  "\n".intercalate ((rows.zipIdx).map fun row => rowText row.2 row.1)

@[simp] theorem size_write (r : Ram) (addr : Nat) (byte : UInt8) : (r.write addr byte).size = r.size := by
  simp [size, write]

@[simp] theorem size_overwrite (r : Ram) (image : Array UInt8) : (r.overwrite image).size = r.size := by
  simp [size, overwrite]

end Ram

/-- The names of the wires that join a memory to a circuit. -/
structure BusNames where
  addr : String := "addr"
  writeEnable : String := "write_enable"
  writeData : String := "write_data"
  readData : String := "read_data"
deriving DecidableEq, Repr

def BusNames.text (b : BusNames) : String :=
  s!"addr={b.addr} write_enable={b.writeEnable} write_data={b.writeData} read_data={b.readData}"

end NandHdl
