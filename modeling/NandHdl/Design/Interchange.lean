import NandHdl.Design
import NandHdl.Json

/-!
# Designs as JSON

The form in which tools that edit circuits exchange designs. Every part is an
object; the parts that come in several kinds name theirs under `kind`.

* `Module.toJson`, `designToJson`: writing. A missing range is written as `null`.
* `Module.ofJson?`, `designOfJson?`: reading. Fields come in any order, unknown
  ones are passed over, and a range may be left out. A part may also be an array
  of its fields without their names, the kind before the others; then they stand
  in the order in which they are written, and none may be missing.
-/

namespace NandHdl

def Port.toJson (p : Port) : Json := .obj [("name", .str p.name), ("width", .nat p.width)]

def BitRange.toJson : BitRange → Json
  | bit i => .obj [("kind", .str "Bit"), ("bit", .nat i)]
  | slice a b => .obj [("kind", .str "Slice"), ("lo", .nat a), ("hi", .nat b)]

def Target.toJson (t : Target) : Json :=
  .obj [("name", .str t.name), ("range", (t.range.map BitRange.toJson).getD .null)]

mutual

def Expr.toJson : Expr → Json
  | identifier name => .obj [("kind", .str "Identifier"), ("name", .str name)]
  | number value => .obj [("kind", .str "Number"), ("value", .nat value)]
  | call name args => .obj [("kind", .str "Call"), ("name", .str name), ("args", .arr (Expr.listToJson args))]
  | member object field =>
    .obj [("kind", .str "Member"), ("object", object.toJson), ("field", .str field)]
  | select object (.bit i) => .obj [("kind", .str "Index"), ("object", object.toJson), ("bit", .nat i)]
  | select object (.slice a b) =>
    .obj [("kind", .str "Slice"), ("object", object.toJson), ("lo", .nat a), ("hi", .nat b)]

def Expr.listToJson : List Expr → List Json
  | [] => []
  | e :: es => e.toJson :: Expr.listToJson es

end

def Statement.toJson (s : Statement) : Json :=
  .obj [("target", s.target.toJson), ("expr", s.expr.toJson)]

def Module.toJson (m : Module) : Json :=
  .obj [("name", .str m.name), ("inputs", .arr (m.inputs.map Port.toJson)),
    ("outputs", .arr (m.outputs.map Port.toJson)), ("statements", .arr (m.statements.map Statement.toJson))]

def designToJson (modules : List Module) : Json := .arr (modules.map Module.toJson)

/-! ## Reading -/

def Port.ofJson? (v : Json) : Option Port := do
  let [name, width] ← (← v.record?).parts? ["name", "width"] | none
  return ⟨← name.str?, ← width.word?⟩

def BitRange.ofJson? (v : Json) : Option BitRange := do
  let (tag, r) ← (← v.record?).tagged? "kind"
  match ← tag.tag? [] with
  | "Bit" => do
    let [i] ← r.parts? ["bit"] | none
    return .bit (← i.word?)
  | "Slice" => do
    let [a, b] ← r.parts? ["lo", "hi"] | none
    return .slice (← a.word?) (← b.word?)
  | _ => none

/-- A range, or `null` for none. -/
def BitRange.optionOfJson? : Json → Option (Option BitRange)
  | .null => some none
  | v => (BitRange.ofJson? v).map some

def Target.ofJson? (v : Json) : Option Target := do
  let [name, range] ← ((← v.record?).withDefault "range" .null).parts? ["name", "range"] | none
  return ⟨← name.str?, ← BitRange.optionOfJson? range⟩

/-- A value inside an expression: itself, and what it reads as if an expression or a list of them is asked
for. -/
structure Part where
  value : Json
  expr : Option Expr
  exprs : Option (List Expr)

/-- The kinds of expression, in the order of their numbers. -/
def Expr.kinds : List String := ["Identifier", "Number", "Call", "Member", "Index", "Slice"]

/-- An expression whose parts are already read. `numbered` holds the kinds that a number may stand for. -/
def Expr.ofRecord? (numbered : List String) (r : Record Part) : Option Expr := do
  let (tag, r) ← r.tagged? "kind"
  match ← tag.value.tag? numbered with
  | "Identifier" => do
    let [name] ← r.parts? ["name"] | none
    return .identifier (← name.value.str?)
  | "Number" => do
    let [value] ← r.parts? ["value"] | none
    return .number (← value.value.word?)
  | "Call" => do
    let [name, args] ← r.parts? ["name", "args"] | none
    return .call (← name.value.str?) (← args.exprs)
  | "Member" => do
    let [object, field] ← r.parts? ["object", "field"] | none
    return .member (← object.expr) (← field.value.str?)
  | "Index" => do
    let [object, i] ← r.parts? ["object", "bit"] | none
    return .select (← object.expr) (.bit (← i.value.word?))
  | "Slice" => do
    let [object, a, b] ← r.parts? ["object", "lo", "hi"] | none
    return .select (← object.expr) (.slice (← a.value.word?) (← b.value.word?))
  | _ => none

mutual

/-- A value inside an expression, read. There a kind may be given by its number. -/
def Part.ofJson : Json → Part
  | .obj fields => ⟨.obj fields, Expr.ofRecord? Expr.kinds (.named (Part.ofFields fields)), none⟩
  | .arr items =>
    let parts := Part.ofItems items
    ⟨.arr items, Expr.ofRecord? Expr.kinds (.listed parts), parts.mapM Part.expr⟩
  | v => ⟨v, none, none⟩

def Part.ofItems : List Json → List Part
  | [] => []
  | v :: vs => Part.ofJson v :: Part.ofItems vs

def Part.ofFields : List (String × Json) → List (String × Part)
  | [] => []
  | (name, v) :: fields => (name, Part.ofJson v) :: Part.ofFields fields

end

/-- An expression that is part of no other. Its kind is given by name. -/
def Expr.ofJson? (v : Json) : Option Expr := do Expr.ofRecord? [] ((← v.record?).map Part.ofJson)

def Statement.ofJson? (v : Json) : Option Statement := do
  let [target, value] ← (← v.record?).parts? ["target", "expr"] | none
  return ⟨← Target.ofJson? target, ← Expr.ofJson? value⟩

def Module.ofJson? (v : Json) : Option Module := do
  let [name, inputs, outputs, statements] ←
    (← v.record?).parts? ["name", "inputs", "outputs", "statements"] | none
  return ⟨← name.str?, ← inputs.listOf? Port.ofJson?, ← outputs.listOf? Port.ofJson?,
    ← statements.listOf? Statement.ofJson?⟩

/-- A design. Every module of it has to be readable. -/
def designOfJson? (v : Json) : Option (List Module) := v.listOf? Module.ofJson?

end NandHdl
