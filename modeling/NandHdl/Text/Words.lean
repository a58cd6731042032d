/-!
# Lines and words

* `lines`: a text cut after its line feeds; a carriage return before a line
  feed belongs to the line break, and an empty last line is no line.
* `words`: the stretches between white space.
-/

namespace NandHdl.Text

/-- White space as Unicode defines it. -/
def isBlank (c : Char) : Bool :=
  let n := c.toNat
  (0x09 ≤ n && n ≤ 0x0D) || n = 0x20 || n = 0x85 || n = 0xA0 || n = 0x1680 ||
    (0x2000 ≤ n && n ≤ 0x200A) || n = 0x2028 || n = 0x2029 || n = 0x202F || n = 0x205F || n = 0x3000

/-- Cuts a text at the characters satisfying `sep`, which belong to no piece. -/
def pieces (sep : Char → Bool) : List Char → List (List Char)
  | [] => [[]]
  | c :: cs =>
    match pieces sep cs with
    | [] => [[c]]
    | p :: ps => if sep c then [] :: p :: ps else (c :: p) :: ps

/-- The words of a line: the non-empty stretches between white space. -/
def words (cs : List Char) : List String :=
  ((pieces isBlank cs).filter (!·.isEmpty)).map String.ofList

/-- Drops one carriage return at the end. -/
def dropReturn (cs : List Char) : List Char :=
  if cs.getLast? = some '\r' then cs.dropLast else cs

/-- The lines among the pieces between line feeds. The last piece ends at no line feed: it counts only
if it is not empty, and keeps a carriage return. -/
def linesOfPieces : List (List Char) → List (List Char)
  | [] => []
  | [p] => if p.isEmpty then [] else [p]
  | p :: q :: ps => dropReturn p :: linesOfPieces (q :: ps)

/-- The lines of a text, without their line breaks. -/
def lines (s : String) : List String :=
  (linesOfPieces (pieces (· = '\n') s.toList)).map String.ofList

end NandHdl.Text
