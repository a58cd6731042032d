import NandHdl.Design

/-!
# Designs as source text

* `Module.text`: a module as its header and one line a statement. Reading that
  text gives the module back.
-/

namespace NandHdl

/-- A port. One bit is the width it has when none is written. -/
def Port.text (p : Port) : String :=
  if p.width = 1 then p.name else s!"{p.name}:{p.width}"

/-- A range between its brackets, as it was written. -/
def BitRange.text : BitRange → String
  | bit i => s!"[{i}]"
  | slice a b => s!"[{a}:{b}]"

def Target.text (t : Target) : String :=
  t.name ++ (t.range.map BitRange.text).getD ""

mutual

def Expr.text : Expr → String
  | identifier name => name
  | number value => toString value
  | call name args => name ++ "(" ++ Expr.argsText args ++ ")"
  | member object field => object.text ++ "." ++ field
  | select object range => object.text ++ range.text

/-- Arguments, separated by commas. -/
def Expr.argsText : List Expr → String
  | [] => ""
  | [a] => a.text
  | a :: b :: as => a.text ++ ", " ++ Expr.argsText (b :: as)

end

def Statement.text (s : Statement) : String := s.target.text ++ " = " ++ s.expr.text

/-- Ports, separated by commas. -/
def Port.listText (ps : List Port) : String := ", ".intercalate (ps.map Port.text)

/-- The outputs of a header. A single one needs no parentheses. -/
def Module.outputsText : List Port → String
  | [p] => p.text
  | ps => "(" ++ Port.listText ps ++ ")"

def Module.text (m : Module) : String :=
  "module " ++ m.name ++ "(" ++ Port.listText m.inputs ++ ") -> " ++ Module.outputsText m.outputs ++ ":\n" ++
    String.join (m.statements.map fun s => "    " ++ s.text ++ "\n")

/-- The modules of a design, one after another. -/
def designText (modules : List Module) : String := String.join (modules.map Module.text)

end NandHdl
