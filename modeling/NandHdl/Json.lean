import NandHdl.Text.Quoted
import NandHdl.Word

/-!
# JSON values

The values that tools exchange designs and netlists in.

* `Record`: the parts of a value that has several, with names or in order.
* `Record.parts?`: the parts of given names.
* `Record.tagged?`: the part that tells which names to expect, and the others.
* `Json.pretty`: a value over several lines, indented by two blanks a level.
-/

namespace NandHdl

/-- JSON values. An object keeps the order of its fields. -/
inductive Json
  | null
  | bool (value : Bool)
  | int (value : Int)
  /-- A number written with a fraction or an exponent, as it is spelled. -/
  | real (spelling : String)
  | str (value : String)
  | arr (items : List Json)
  | obj (fields : List (String × Json))
deriving Repr, Inhabited

namespace Json

/-- A natural number. -/
def nat (n : Nat) : Json := int n

/-- The value of a natural number that fits a word. -/
def word? : Json → Option Nat
  | int (.ofNat n) => if n < wordLimit then some n else none
  | _ => none

def str? : Json → Option String
  | str s => some s
  | _ => none

def arr? : Json → Option (List Json)
  | arr items => some items
  | _ => none

end Json

/-- The parts of a value that has several: each under its name, or one after another without names. -/
inductive Record (α : Type)
  | named (fields : List (String × α))
  | listed (items : List α)

namespace Record

variable {α β : Type}

def map (f : α → β) : Record α → Record β
  | named fields => named (fields.map fun e => (e.1, f e.2))
  | listed items => listed (items.map f)

/-- All parts under a name. -/
def valuesAt (name : String) (fields : List (String × α)) : List α :=
  fields.filterMap fun e => if e.1 = name then some e.2 else none

/-- The part under a name that occurs exactly once. -/
def field? (name : String) (fields : List (String × α)) : Option α :=
  match valuesAt name fields with
  | [a] => some a
  | _ => none

/-- The parts of given names, in the order of the names. Parts under other names are passed over; without
names there have to be as many parts as names are given. -/
def parts? (names : List String) : Record α → Option (List α)
  | named fields => names.mapM (field? · fields)
  | listed items => if items.length = names.length then some items else none

/-- The record with `value` under a name that may be left out, and is. -/
def withDefault (name : String) (value : α) : Record α → Record α
  | named fields => if (valuesAt name fields).isEmpty then named ((name, value) :: fields) else named fields
  | listed items => listed items

/-- The part under the name `tag`, or else the first one, and the record of the others. -/
def tagged? (tag : String) : Record α → Option (α × Record α)
  | named fields => (field? tag fields).map (·, named fields)
  | listed (a :: items) => some (a, listed items)
  | listed [] => none

end Record

namespace Json

/-- The parts of an object or of an array. -/
def record? : Json → Option (Record Json)
  | obj fields => some (.named fields)
  | arr items => some (.listed items)
  | _ => none

/-- The items of an array, each read by `read`. -/
def listOf? {α : Type} (read : Json → Option α) (v : Json) : Option (List α) := v.arr?.bind (·.mapM read)

/-- The tag that a value is: a text, or the place of a tag among `numbered`. -/
def tag? (numbered : List String) : Json → Option String
  | str s => some s
  | int (.ofNat n) => numbered[n]?
  | _ => none

/-- A character inside a JSON string. -/
def escapeChar (c : Char) : String :=
  if c = '"' then "\\\""
  else if c = '\\' then "\\\\"
  else if c = '\n' then "\\n"
  else if c = '\r' then "\\r"
  else if c = '\t' then "\\t"
  else if c = '\x08' then "\\b"
  else if c = '\x0c' then "\\f"
  else if c.toNat < 0x20 then "\\u" ++ Text.hexPadded 4 c.toNat
  else c.toString

/-- A JSON string. -/
def quote (s : String) : String := "\"" ++ String.join (s.toList.map escapeChar) ++ "\""

/-- The blanks in front of a line at a given depth. -/
def margin (depth : Nat) : String := String.ofList (List.replicate (2 * depth) ' ')

mutual

/-- The text of a value whose first line is already indented to `depth`. -/
def prettyAt (depth : Nat) : Json → String
  | null => "null"
  | bool b => if b then "true" else "false"
  | int n => toString n
  | real s => s
  | str s => quote s
  | arr [] => "[]"
  | arr items => "[\n" ++ prettyItems (depth + 1) items ++ "\n" ++ margin depth ++ "]"
  | obj [] => "\x7b\x7d"
  | obj fields => "\x7b\n" ++ prettyFields (depth + 1) fields ++ "\n" ++ margin depth ++ "\x7d"

/-- The items of an array, one after another. -/
def prettyItems (depth : Nat) : List Json → String
  | [] => ""
  | [v] => margin depth ++ prettyAt depth v
  | v :: w :: vs => margin depth ++ prettyAt depth v ++ ",\n" ++ prettyItems depth (w :: vs)

/-- The fields of an object, one after another. -/
def prettyFields (depth : Nat) : List (String × Json) → String
  | [] => ""
  | [(k, v)] => margin depth ++ quote k ++ ": " ++ prettyAt depth v
  | (k, v) :: f :: fs =>
    margin depth ++ quote k ++ ": " ++ prettyAt depth v ++ ",\n" ++ prettyFields depth (f :: fs)

end

/-- The text of a value over several lines. -/
def pretty (v : Json) : String := prettyAt 0 v

end Json

end NandHdl
