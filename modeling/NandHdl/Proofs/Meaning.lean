import NandHdl.Proofs.Build

/-!
# What a module means

The meaning of a module is given tick by tick on the values of its names: its
statements are evaluated in the order of the text, and a call evaluates the body
of the module that is called. There are no nodes and no numbers, and the only
state is the registers, in the order in which evaluation meets them.

* `Sample`: one bit in one tick.
* `Register`, `Tape`: what a flip-flop keeps from tick to tick.
* `Value`: the value of an expression. Only bits have a width of their own.
* `Function`: a module as its callers see it.
* `ForwardFree`: no name is read before the statement that assigns it.
-/

namespace NandHdl

/-- One bit in one tick: what is read of it while the tick is evaluated, and what is seen of it
afterwards. The two differ in flip-flops only. -/
structure Sample where
  now : Bool
  seen : Bool
deriving DecidableEq, Repr

namespace Sample

/-- A bit that the end of a tick does not change. -/
def steady (b : Bool) : Sample := ⟨b, b⟩

/-- NAND of what is read. -/
def nand (x y : Sample) : Sample := steady !(x.now && y.now)

end Sample

/-! ## Registers -/

/-- What a flip-flop keeps: its bit, and its clock at the last tick. -/
structure Register where
  bit : Bool := false
  clock : Bool := false
deriving DecidableEq, Repr

/-- The register after a tick: it captures the data if its clock has risen. -/
def Register.next (r : Register) (d clk : Sample) : Register :=
  ⟨if clk.now && !r.clock then d.now else r.bit, clk.now⟩

/-- The registers in the order in which a tick meets them: those that are still to come, as the last tick
left them, and those that have come, as this tick leaves them. -/
structure Tape where
  coming : List Register
  done : List Register
deriving DecidableEq, Repr

/-- Goes past a register. One that no tick has met yet holds 0 and saw its clock at 0. -/
def Tape.capture (t : Tape) (d clk : Sample) : Sample × Tape :=
  let r := t.coming.headD {}
  (⟨r.bit, (r.next d clk).bit⟩, ⟨t.coming.tail, t.done ++ [r.next d clk]⟩)

/-- A part of a tick. What has no meaning gives no result. -/
abbrev Tick := StateT Tape Option

/-! ## Bits in a row -/

/-- Bits in a row, the least significant one first. -/
abbrev Bits := List Sample

namespace Bits

/-- A bit, 0 past the end. -/
def nth (w : Bits) (i : Nat) : Sample := w.getD i (.steady false)

def ofFn (width : Nat) (f : Nat → Sample) : Bits := (List.range width).map f

def zeros (width : Nat) : Bits := ofFn width fun _ => .steady false

/-- The low bits of a number. -/
def constant (value width : Nat) : Bits := ofFn width fun i => .steady (value.testBit i)

/-- The bits cut or filled up with zeros to a width. -/
def fit (w : Bits) (width : Nat) : Bits := ofFn width w.nth

/-- The bits of a range, 0 past the end. -/
def pick (w : Bits) (r : BitRange) : Bits := ofFn r.width fun i => w.nth (r.lo + i)

/-- The bits with those of a range replaced by `part`. Where they are too short they are filled up with
zeros first. -/
def replace (w : Bits) (r : BitRange) (part : Bits) : Bits :=
  ofFn (max w.length (r.hi + 1)) fun i => if r.lo ≤ i ∧ i ≤ r.hi then part.nth (i - r.lo) else w.nth i

end Bits

/-! ## Values -/

/-- The value of an expression. -/
inductive Value
  | bits (w : Bits)
  /-- The outputs of an instance. -/
  | bundle (fields : List (String × Bits))
  | literal (value : Nat)
  /-- What an undefined name or module gives: 0 of any width. -/
  | nothing

namespace Value

/-- The bits that a value is: itself, or the only output of an instance. -/
def bits? : Value → Option Bits
  | bits w => some w
  | bundle [(_, w)] => some w
  | _ => none

/-- The width that a value insists on, if it does. -/
def width? (v : Value) : Option Nat := v.bits?.map List.length

/-- The width that a value takes where nothing else is asked for. -/
def naturalWidth : Value → Nat
  | literal value => bitLength value
  | _ => 1

/-- The bits of a value where `want` of them are asked for, if any number is. A value that has a width
keeps it, and an instance with several outputs is no number and gives zeros. -/
def wired (v : Value) (want : Option Nat) : Bits :=
  match v with
  | literal value => .constant value (want.getD v.naturalWidth)
  | v => v.bits?.getD (.zeros (want.getD v.naturalWidth))

/-- The bits of a value where exactly `width` of them are used. -/
def fitted (v : Value) (width : Nat) : Bits := (v.wired (some width)).fit width

/-- An output of an instance. -/
def field (v : Value) (name : String) : Value :=
  match v with
  | bundle fields => ((fields.find? (·.1 = name)).map fun f => bits f.2).getD nothing
  | _ => nothing

end Value

/-! ## Evaluation -/

/-- A module as its callers see it: its inputs, and what an instance does in a tick with its arguments. -/
structure Function where
  name : String
  inputs : List Port
  apply : List Bits → Tick (List (String × Bits))

namespace Meaning

/-- The width of a gate's operands: the one they have in common, or that of the one that has a width, or
else the width asked for or the larger of the natural ones. -/
def commonWidth (want : Option Nat) (x y : Value) : Option Nat :=
  match x.width?, y.width? with
  | some w, some v => if w = v then some w else none
  | some w, none => some w
  | none, some v => some v
  | none, none => some (want.getD (max x.naturalWidth y.naturalWidth))

/-- NAND, bit by bit. -/
def nand (want : Option Nat) (x y : Value) : Tick Value := do
  let some width := commonWidth want x y | failure
  return .bits (List.zipWith Sample.nand (x.fitted width) (y.fitted width))

/-- Goes past one register for each bit. -/
def captureAll : Bits → Bits → Tick Bits
  | d :: ds, c :: cs => do
    let q ← modifyGet (·.capture d c)
    return q :: (← captureAll ds cs)
  | _, _ => return []

/-- The clocks of a row of flip-flops: one for all of them, or one for each. -/
def clocks (width : Nat) (clk : Value) : Option Bits :=
  match clk.width? with
  | none | some 1 => some (.ofFn width fun _ => (clk.fitted 1).nth 0)
  | some w => if w = width then some (clk.fitted width) else none

/-- Flip-flops, bit by bit. -/
def dff (want : Option Nat) (d clk : Value) : Tick Value := do
  let width := d.width?.getD (want.getD d.naturalWidth)
  let some cs := clocks width clk | failure
  return .bits (← captureAll (d.fitted width) cs)

mutual

/-- The value of an expression where `want` bits are asked for, if any number is. -/
def expr (fs : List Function) (env : Scope Value) (want : Option Nat) : Expr → Tick Value
  | .identifier name => return (env.lookup name).getD .nothing
  | .number value => return .literal value
  | .call "nand" args =>
    match args with
    | [x, y] => do
      let x ← expr fs env want x
      let y ← expr fs env want y
      nand want x y
    | _ => failure
  | .call "dff" args =>
    match args with
    | [d, clk] => do
      let d ← expr fs env want d
      let clk ← expr fs env (some 1) clk
      dff want d clk
    | _ => failure
  | .call name args =>
    match fs.find? (·.name = name) with
    | none => return .nothing
    | some f => do
      if f.inputs.length = args.length then
        let ws ← arguments fs env f.inputs args
        return .bundle (← f.apply ws)
      else failure
  | .member object name => do return (← expr fs env none object).field name
  | .select object range => do return .bits (((← expr fs env none object).wired none).pick range)

/-- Arguments, each fitted to its port. -/
def arguments (fs : List Function) (env : Scope Value) : List Port → List Expr → Tick (List Bits)
  | p :: ps, a :: as => do
    let v ← expr fs env (some p.width) a
    return v.fitted p.width :: (← arguments fs env ps as)
  | _, _ => return []

end

/-- The names after a statement. An assignment to some bits first gives the value that the name has the
declared width, or one that holds these bits, if it has no width of its own. -/
def assign (fs : List Function) (m : Module) (env : Scope Value) (st : Statement) : Tick (Scope Value) := do
  let name := st.target.name
  let declared := (m.output? name).map Port.width
  match st.target.range with
  | none => return env.bind name (← expr fs env declared st.expr)
  | some r =>
    let v ← expr fs env (some r.width) st.expr
    let current := ((env.lookup name).getD .nothing).wired (some (declared.getD (r.hi + 1)))
    return env.bind name (.bits (current.replace r (v.fitted r.width)))

/-- The names after a list of statements. -/
def assignAll (fs : List Function) (m : Module) : Scope Value → List Statement → Tick (Scope Value)
  | env, [] => return env
  | env, st :: sts => do assignAll fs m (← assign fs m env st) sts

/-- The names before the first statement: the inputs. -/
def argumentScope : Scope Value → List Port → List Bits → Scope Value
  | env, p :: ps, w :: ws => argumentScope (env.bind p.name (.bits (w.fit p.width))) ps ws
  | env, _, _ => env

/-- The outputs, each fitted to its port. One that is not assigned is 0. -/
def outputs (env : Scope Value) (ps : List Port) : List (String × Bits) :=
  ps.map fun p => (p.name, ((env.lookup p.name).getD .nothing).fitted p.width)

end Meaning

namespace Function

/-- A module as seen from inside itself: calling it has no meaning. -/
def recursive (m : Module) : Function := ⟨m.name, m.inputs, fun _ => failure⟩

/-- **The meaning of a module**, given that of the modules before it. -/
def ofModule (earlier : List Function) (m : Module) : Function where
  name := m.name
  inputs := m.inputs
  apply args := do
    let env ← Meaning.assignAll (recursive m :: earlier) m
      (Meaning.argumentScope .empty m.inputs args) m.statements
    return Meaning.outputs env m.outputs

/-- The meanings of the modules `es`, the last one first. -/
def ofModules (es : List Module) : List Function := tableOf ofModule es

/-- The arguments that input bits are, which lie one after another. -/
def arguments (pins : Array Bool) : Nat → List Port → List Bits
  | _, [] => []
  | offset, p :: ps =>
    .ofFn p.width (fun i => .steady (pins.getD (offset + i) false)) :: arguments pins (offset + p.width) ps

/-- One tick: what is seen of the outputs, and the registers afterwards. -/
def tick (f : Function) (rs : List Register) (pins : Array Bool) :
    Option (List (String × List Bool) × List Register) := do
  let (outs, t) ← f.apply (arguments pins 0 f.inputs) ⟨rs, []⟩
  return (outs.map fun o => (o.1, o.2.map Sample.seen), t.done)

/-- Ticks one after another, each with its own input bits: what is seen of the outputs after each. -/
def trace (f : Function) : List Register → List (Array Bool) → Option (List (List (String × List Bool)))
  | _, [] => return []
  | rs, pins :: rest => do
    let (outs, rs) ← f.tick rs pins
    return outs :: (← f.trace rs rest)

end Function

/-! ## Reading names late enough -/

/-- The module is one of the two primitives. -/
def isPrimitive (name : String) : Bool := name = "nand" || name = "dff"

namespace Expr

mutual

/-- The names that the value of an expression depends on. What is called but not defined does not look at
its arguments. -/
def reads (defined : List String) : Expr → List String
  | identifier name => [name]
  | number _ => []
  | call name args => if isPrimitive name || name ∈ defined then readsList defined args else []
  | member object _ => reads defined object
  | select object _ => reads defined object

@[inherit_doc reads]
def readsList (defined : List String) : List Expr → List String
  | [] => []
  | a :: as => reads defined a ++ readsList defined as

end

mutual

/-- The modules of which an expression makes instances. -/
def instances (defined : List String) : Expr → List String
  | identifier _ => []
  | number _ => []
  | call name args =>
    if isPrimitive name then instancesList defined args
    else if name ∈ defined then name :: instancesList defined args
    else []
  | member object _ => instances defined object
  | select object _ => instances defined object

@[inherit_doc instances]
def instancesList (defined : List String) : List Expr → List String
  | [] => []
  | a :: as => instances defined a ++ instancesList defined as

end

end Expr

/-- No statement reads a name that a later one assigns and none has bound yet. -/
def readsBound (defined : List String) (m : Module) : List String → List Statement → Bool
  | _, [] => true
  | bound, st :: sts =>
    (st.expr.reads defined).all (fun name => !m.assigns name || name ∈ bound) &&
      readsBound defined m (st.target.name :: bound) sts

/-- The modules that `m` can make instances of by name, given those before it, and itself. -/
def definedFor (es : List Module) (m : Module) : List String := m.name :: es.map Module.name

/-- **No name is read before the statement that assigns it**, neither in the module nor in one of which it
makes an instance, at any depth. The modules before it are `es`, the last one first. -/
inductive ForwardFree : List Module → Module → Prop
  | intro {es : List Module} {m : Module}
    (body : readsBound (definedFor es m) m (m.inputs.map Port.name) m.statements = true)
    (inner : ∀ st ∈ m.statements, ∀ name ∈ st.expr.instances (definedFor es m), ∀ d es',
      es.dropWhile (·.name ≠ name) = d :: es' → ForwardFree es' d) : ForwardFree es m

end NandHdl
