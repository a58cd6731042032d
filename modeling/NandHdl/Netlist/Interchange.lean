import NandHdl.Design.Interchange
import NandHdl.Netlist

/-!
# Netlists as JSON

* `Library.toJson`: all netlists under their names in increasing order, and the
  order of the modules.
-/

namespace NandHdl

def Bit.toJson : Bit → Json
  | node id => .obj [("Node", .nat id)]
  | input i => .obj [("Input", .nat i)]
  | const b => .obj [("Const", .bool b)]
  | forward n => .obj [("Forward", .nat n)]

def Wire.toJson (w : Wire) : Json := .arr (w.bits.toList.map Bit.toJson)

def Cell.toJson : Cell → Json
  | nand a b => .obj [("Nand", .obj [("a", a.toJson), ("b", b.toJson)])]
  | dff d clk => .obj [("Dff", .obj [("d", d.toJson), ("clk", clk.toJson)])]

def Node.toJson (n : Node) : Json := .obj [("id", .nat n.id), ("kind", n.cell.toJson)]

def Netlist.toJson (n : Netlist) : Json :=
  .obj [("name", .str n.name), ("inputs", .arr (n.inputs.map Port.toJson)),
    ("outputs", .arr (n.outputs.map fun o => .arr [o.1.toJson, o.2.toJson])),
    ("nodes", .arr (n.nodes.toList.map Node.toJson)),
    ("signals", .obj (n.signals.entries.map fun s => (s.1, s.2.toJson)))]

def Library.toJson (l : Library) : Json :=
  let byName := NameTable.empty.insertAll (l.netlists.map fun n => (n.name, n.toJson))
  .obj [("modules", .obj byName.entries), ("order", .arr (l.order.map Json.str))]

end NandHdl
