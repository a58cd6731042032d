import NandHdl.Proofs.Effect

/-!
# Checked simulation

A simulation reads and writes bits and bytes at numbered places, and counts its ticks in a word. Here each place
is checked before it is used, and so is the count: whatever is out of range makes the whole run fail.

* `put?`, `Source.read?`, `Ram.place?`: single places.
* `settleWithin?`, `Pin.drive?`, `Ram.load?`: many places, one after another.
* `Simulator.step?`, `Simulator.perform?`, `Simulator.performAll?`: a simulation with all its accesses checked.
* `foldlM_eq`, `mapM_eq`: what never fails need not be checked.
* `settleWithin?_eq`, `drive?_eq`, `load?_eq`: the checks pass where all places are in range.
-/

namespace NandHdl

/-! ## Single places -/

/-- Puts a bit at a place. -/
def put? (i : Nat) (b : Bool) (bits : Array Bool) : Option (Array Bool) :=
  if i < bits.size then some (bits.setIfInBounds i b) else none

/-- The bit at a source. -/
def Source.read? (values pins : Array Bool) : Source → Option Bool
  | node i => values[i]?
  | input i => pins[i]?
  | const b => some b

/-- The number on a wire, as far as it fits a word. -/
def value? (values pins : Array Bool) (xs : List Source) : Option Nat := do
  return ofBits (← (xs.take wordBits).mapM (Source.read? values pins))

/-! ## Many places -/

/-- The output that a gate ought to have. Both inputs are read. -/
def Gate.output? (values pins : Array Bool) (g : Gate) : Option Bool := do
  let a ← g.a.read? values pins
  let b ← g.b.read? values pins
  return !(a && b)

/-- One pass over the gates. -/
def passOver? (pins : Array Bool) (gates : List Gate) (values : Array Bool) : Option (Array Bool × Bool) :=
  gates.foldlM (fun x g => do
    let v ← g.output? x.1 pins
    let old ← x.1[g.out]?
    if old = v then return x else return (← put? g.out v x.1, true)) (values, false)

/-- Passes over the gates until one changes nothing, at most `limit` times. -/
def settleWithin? (pins : Array Bool) (gates : List Gate) : Nat → Array Bool → Option Settled
  | 0, values => some ⟨values, none⟩
  | limit + 1, values => do
    let x ← passOver? pins gates values
    if x.2 then
      let s ← settleWithin? pins gates limit x.1
      return ⟨s.values, s.passes.map (· + 1)⟩
    else return ⟨x.1, some 1⟩

/-- Puts the bits of a word on a pin, 0 past the end of the word. -/
def Pin.drive? (p : Pin) (value : Nat) (pins : Array Bool) : Option (Array Bool) :=
  (List.range p.width).foldlM
    (fun pins i => put? (p.offset + i) (i < wordBits && value.testBit i) pins) pins

namespace Ram

/-- Puts a byte at a place. -/
def place? (r : Ram) (i : Nat) (byte : UInt8) : Option Ram :=
  if h : i < r.bytes.size then
    some ⟨r.bytes.set i byte h, by rw [Array.size_set]; exact r.size_pos⟩
  else none

def read? (r : Ram) (addr : Nat) : Option UInt8 := r.bytes[addr % r.size]?

def write? (r : Ram) (addr : Nat) (byte : UInt8) : Option Ram := r.place? (addr % r.size) byte

/-- Copies the first bytes of an image. -/
def copy? (image : Array UInt8) : Nat → Ram → Option Ram
  | 0, r => some r
  | k + 1, r => do
    let r ← copy? image k r
    r.place? k (← image[k]?)

/-- Loads an image to the start of memory. What goes past the end is dropped. -/
def load? (r : Ram) (image : Array UInt8) : Option Ram := r.copy? image (min image.size r.size)

end Ram

/-! ## Operations -/

/-- The number of ticks that an operation makes. -/
def Operation.ticks : Operation → Nat
  | .step => 1
  | .run k => k
  | _ => 0

namespace Simulator

variable (s : Simulator)

def value? (xs : List Source) : Option Nat := NandHdl.value? s.values s.pins xs

def setInput? (name : String) (value : Nat) : Option (Except SimulationError Simulator) :=
  match s.circuit.inputs.get? name with
  | some p => do return .ok (s.withPins (← p.drive? value s.pins))
  | none => some (.error (.noSuchInput name))

def output? (name : String) : Option (Except SimulationError Nat) :=
  match s.circuit.outputs.find? (·.1 = name) with
  | some o => do return .ok (← s.value? o.2)
  | none => some (.error (.noSuchOutput name))

def wire? (name : String) : Option (Except SimulationError Nat) :=
  match s.circuit.signals.get? name with
  | some xs => do return .ok (← s.value? xs)
  | none => some (.error (.noSuchWire name))

def snapshot? : Option (List (String × Nat)) :=
  s.circuit.signals.entries.mapM fun e => do return (e.1, ← s.value? e.2)

def settle? : Option Simulator := do
  let r ← settleWithin? s.pins s.circuit.gates settleLimit s.values
  return { s with values := r.values }

/-- Lets every flip-flop whose clock rose capture its data. The clocks before, the clocks and the data are
looked up by the flip-flop's number. -/
def capture? : Option Simulator := do
  let clocks ← s.circuit.flops.mapM fun f => f.clk.read? s.values s.pins
  let data ← s.circuit.flops.mapM fun f => f.d.read? s.values s.pins
  let values ← s.circuit.flops.zipIdx.foldlM (fun values f => do
    let before ← s.clocks[f.2]?
    let now ← clocks[f.2]?
    let d ← data[f.2]?
    if !before && now then put? f.1.out d values else return values) s.values
  return { s with values := values, clocks := clocks }

def driveReadData? : Option Simulator :=
  match s.bus with
  | none => some s
  | some b => do
    let byte ← s.ram.read? (← s.value? b.addr)
    return s.withPins (← b.readData.drive? byte.toNat s.pins)

def serviceBus? : Option Simulator :=
  match s.bus with
  | none => some s
  | some b => do
    let addr ← s.value? b.addr
    if (← s.value? b.writeEnable).testBit 0 then
      let byte := UInt8.ofNat (← s.value? b.writeData)
      driveReadData? { s with ram := ← s.ram.write? addr byte }
    else s.driveReadData?

/-- Counts a tick. The counter is a word. -/
def countTick? : Option Simulator :=
  if s.ticks + 1 < 2 ^ wordBits then some { s with ticks := s.ticks + 1 } else none

def step? : Option Simulator := do
  let t ← s.countTick?
  let t ← t.settle?
  let t ← t.capture?
  t.serviceBus?

def run? : Nat → Option Simulator
  | 0 => some s
  | k + 1 => do step? (← run? k)

def reset? : Option Simulator := do driveReadData? (← s.cleared.settle?)

def loadImage? (image : Array UInt8) : Option Simulator := do
  driveReadData? { s with ram := ← s.ram.load? image }

def writeRam? (addr : Nat) (byte : UInt8) : Option Simulator := do
  driveReadData? { s with ram := ← s.ram.write? addr byte }

def attach? (names : BusNames) : Option (Except SimulationError Simulator) :=
  match s.busOf names with
  | .ok bus => do return .ok (← driveReadData? { s with bus := some bus })
  | .error e => some (.error e)

def text? : Option String := do
  let rows ← s.snapshot?
  return s!"Simulator({s.name}) at tick {s.ticks}\n" ++
    String.join (rows.map fun e => "    " ++ padLeft 10 (hexText e.2) ++ "   " ++ e.1 ++ "\n")

def view? : Option View := do
  let signals ← s.snapshot?
  let outputs ← s.circuit.outputs.mapM fun o => do return (o.1, (← s.output? o.1).toOption.getD 0)
  return ⟨s.ticks, signals, outputs⟩

/-- What is seen after an operation, and the simulation. -/
def seen? : Option (Simulator × Answer) := do return (s, .view (← s.view?))

def seenOr? : Except SimulationError Simulator → Option (Simulator × Answer)
  | .ok t => t.seen?
  | .error e => some (s, .refused e)

/-- Performs an operation with all accesses checked. -/
def perform? : Operation → Option (Simulator × Answer)
  | .setInput name value => do s.seenOr? (← s.setInput? name value)
  | .step => do seen? (← s.step?)
  | .run k => do seen? (← s.run? k)
  | .reset => do seen? (← s.reset?)
  | .loadImage image => do seen? (← s.loadImage? image)
  | .writeRam addr byte => do seen? (← s.writeRam? addr byte)
  | .attach names => do s.seenOr? (← s.attach? names)
  | .attachDefault => do
    match ← s.attach? {} with
    | .ok t => return (t, .joined true)
    | .error _ => return (s, .joined false)
  | .output name => do return (s, .ofValue (← s.output? name))
  | .wire name => do return (s, .ofValue (← s.wire? name))
  | .readRam addr => do return (s, .byte (← s.ram.read? addr))
  | .memory => some (s, .memory s.ram.size s.ram.text)
  | .names =>
    some (s, .names s.name s.circuit.inputs.names (s.circuit.outputs.map Prod.fst) s.circuit.signals.names)
  | .table => do return (s, .text (← s.text?))

/-- Performs operations one after another with all accesses checked. -/
def performAll? : Simulator → List Operation → Option (Simulator × List Answer)
  | s, [] => some (s, [])
  | s, op :: ops => do
    let x ← s.perform? op
    let y ← performAll? x.1 ops
    return (y.1, x.2 :: y.2)

end Simulator

/-! ## Checks that pass -/

section Folds

variable {α β σ : Type}

/-- A fold whose steps all succeed while an invariant holds, and keep it. -/
theorem foldlM_eq {P : σ → Prop} {f : σ → α → Option σ} {g : σ → β → σ} {as : List α} {bs : List β}
    (h : List.Forall₂ (fun a b => ∀ x, P x → f x a = some (g x b) ∧ P (g x b)) as bs) {x : σ} (hx : P x) :
    as.foldlM f x = some (bs.foldl g x) := by
  induction h generalizing x with
  | nil => rfl
  | cons hab _ ih =>
    obtain ⟨hf, hg⟩ := hab x hx
    rw [List.foldlM_cons, hf]
    exact ih hg

theorem mapM_eq {f : α → Option β} {g : α → β} {as : List α} (h : ∀ a ∈ as, f a = some (g a)) :
    as.mapM f = some (as.map g) := by
  induction as with
  | nil => rfl
  | cons a as ih =>
    obtain ⟨ha, has⟩ := List.forall_mem_cons.1 h
    rw [List.mapM_cons, ha, ih has]
    rfl

/-- The rows that belong to the elements of a list are found under their numbers. -/
theorem forall₂_zipIdx {as : List α} {rows : List β} (h : rows.length = as.length) :
    List.Forall₂ (fun a x => x.1 = a.1 ∧ a.1 ∈ as ∧ rows[a.2]? = some x.2) as.zipIdx (as.zip rows) := by
  refine List.forall₂_iff_get.2 ⟨by simp [h], fun i hi hi' => ?_⟩
  have hrow : i < rows.length := by simpa [h] using hi
  simp [hrow]

end Folds

theorem put?_eq {i : Nat} {bits : Array Bool} (h : i < bits.size) (b : Bool) :
    put? i b bits = some (bits.setIfInBounds i b) := if_pos h

/-- The bit at a place in range. -/
theorem getElem?_eq_getD {bits : Array Bool} {i : Nat} (h : i < bits.size) :
    bits[i]? = some (bits.getD i false) := by
  rw [Array.getD_eq_getD_getElem?, Array.getElem?_eq_getElem h, Option.getD_some]

/-- The source exists among so many bits of nodes and inputs. -/
def Source.InRange (nodes bits : Nat) : Source → Prop
  | node i => i < nodes
  | input i => i < bits
  | const _ => True

/-- The gate and what it reads exist. -/
structure Gate.InRange (nodes bits : Nat) (g : Gate) : Prop where
  out : g.out < nodes
  a : g.a.InRange nodes bits
  b : g.b.InRange nodes bits

variable {values pins : Array Bool}

theorem Source.read?_eq {x : Source} (h : x.InRange values.size pins.size) :
    x.read? values pins = some (x.read values pins) := by
  cases x with
  | node i => exact getElem?_eq_getD h
  | input i => exact getElem?_eq_getD h
  | const b => rfl

theorem Gate.output?_eq {g : Gate} (h : g.InRange values.size pins.size) :
    g.output? values pins = some (g.output values pins) := by
  rw [output?, Source.read?_eq h.a, Source.read?_eq h.b]
  rfl

theorem passOver?_eq {gates : List Gate} (h : ∀ g ∈ gates, g.InRange values.size pins.size) :
    passOver? pins gates values = some (passOver pins gates values) := by
  -- a pass keeps the number of bits
  refine foldlM_eq (P := fun x => x.1.size = values.size) (List.forall₂_same.2 fun g hg x hx => ?_) rfl
  have hin : g.InRange x.1.size pins.size := hx ▸ h g hg
  simp only [Gate.output?_eq hin, getElem?_eq_getD hin.out, put?_eq hin.out, Option.bind_eq_bind,
    Option.bind_some]
  split
  · exact ⟨rfl, hx⟩
  · exact ⟨rfl, Array.size_setIfInBounds.trans hx⟩

theorem settleWithin?_eq {gates : List Gate} (limit : Nat)
    (h : ∀ g ∈ gates, g.InRange values.size pins.size) :
    settleWithin? pins gates limit values = some (settleWithin pins gates limit values) := by
  induction limit generalizing values with
  | zero => rfl
  | succ limit ih =>
    have hsize : (passOver pins gates values).1.size = values.size := by
      rw [passOver_values, size_foldl_fire]
    rw [settleWithin?, settleWithin, passOver?_eq h]
    simp only [Option.bind_eq_bind, Option.bind_some]
    split
    · rw [ih (hsize ▸ h)]
      rfl
    · rfl

theorem Pin.drive?_eq {p : Pin} (h : p.offset + p.width ≤ pins.size) (value : Nat) :
    p.drive? value pins = some (p.drive value pins) := by
  refine foldlM_eq (P := fun x => x.size = pins.size) (List.forall₂_same.2 fun i hi x hx => ?_) rfl
  have hlt : p.offset + i < x.size := by
    have := List.mem_range.1 hi
    omega
  exact ⟨put?_eq hlt _, Array.size_setIfInBounds.trans hx⟩

namespace Ram

variable {r : Ram} {image : Array UInt8}

theorem read?_eq (r : Ram) (addr : Nat) : r.read? addr = some (r.read addr) :=
  Array.getElem?_eq_getElem (Nat.mod_lt addr r.size_pos)

theorem write?_eq (r : Ram) (addr : Nat) (byte : UInt8) : r.write? addr byte = some (r.write addr byte) :=
  dif_pos (Nat.mod_lt addr r.size_pos)

theorem ext_bytes {r' : Ram} (h : ∀ i : Nat, r.bytes[i]? = r'.bytes[i]?) : r = r' := by
  obtain ⟨bytes, _⟩ := r
  obtain ⟨bytes', _⟩ := r'
  obtain rfl : bytes = bytes' := Array.ext_getElem? h
  rfl

/-- Every byte is that of the image, or stays if the image has none for it. -/
theorem getElem?_overwrite (r : Ram) (image : Array UInt8) (i : Nat) :
    (r.overwrite image).bytes[i]? = r.bytes[i]?.map fun byte => image.getD i byte := by
  by_cases hi : i < r.bytes.size
  · simp [overwrite, hi]
  · simp [overwrite, hi]

theorem getD_extract (image : Array UInt8) (k i : Nat) (byte : UInt8) :
    (image.extract 0 k).getD i byte = if i < k then image.getD i byte else byte := by
  rw [Array.getD_eq_getD_getElem?, Array.getD_eq_getD_getElem?, Array.getElem?_extract, Nat.zero_add, Nat.sub_zero]
  split
  · next h => rw [if_pos (by omega)]
  · next h =>
    split
    · next hi => rw [Array.getElem?_eq_none (by omega), Option.getD_none]
    · rfl

theorem copy?_eq {k : Nat} (hk : k ≤ image.size) (hr : k ≤ r.size) :
    r.copy? image k = some (r.overwrite (image.extract 0 k)) := by
  induction k with
  | zero =>
    refine congrArg some (ext_bytes fun i => ?_)
    rw [getElem?_overwrite]
    simp
  | succ k ih =>
    have hlt : k < (r.overwrite (image.extract 0 k)).bytes.size := by
      rw [← size, size_overwrite]
      omega
    rw [copy?, ih (by omega) (by omega), Array.getElem?_eq_getElem (show k < image.size by omega)]
    simp only [Option.bind_eq_bind, Option.bind_some]
    rw [place?, dif_pos hlt]
    refine congrArg some (ext_bytes fun i => ?_)
    rw [Array.getElem?_set, getElem?_overwrite, getElem?_overwrite]
    simp only [getD_extract]
    by_cases hi : k = i
    · -- the byte copied last
      subst hi
      rw [if_pos rfl, Array.getElem?_eq_getElem (show k < r.bytes.size from hr), Option.map_some,
        if_pos (Nat.lt_succ_self k), Array.getD_eq_getD_getElem?,
        Array.getElem?_eq_getElem (show k < image.size by omega), Option.getD_some]
    · rw [if_neg hi]
      exact congrArg (Option.map · _) (funext fun byte => if_congr (by omega) rfl rfl)

/-- The bytes of an image that memory has room for are all that is loaded. -/
theorem load?_eq (r : Ram) (image : Array UInt8) : r.load? image = some (r.load image).value := by
  rw [load?, copy?_eq (Nat.min_le_left _ _) (Nat.min_le_right _ _), value_load]
  refine congrArg some (ext_bytes fun i => ?_)
  rw [getElem?_overwrite, getElem?_overwrite]
  simp only [getD_extract]
  refine Option.map_congr fun byte hbyte => ?_
  have hi : i < r.size := (Array.getElem?_eq_some_iff.1 hbyte).1
  by_cases himage : i < image.size
  · rw [if_pos (Nat.lt_min.2 ⟨himage, hi⟩)]
  · rw [if_neg fun h => himage (Nat.lt_min.1 h).1, Array.getD_eq_getD_getElem?,
      Array.getElem?_eq_none (Nat.not_lt.1 himage), Option.getD_none]

end Ram

end NandHdl
