/-!
# Positions in a text

Lines and columns count from 1, columns in characters.

* `Position.advance`: a line feed starts the next line, any other character
  moves one column to the right.
* `Position.after`: the position following a whole text.
-/

namespace NandHdl

/-- A line and a column. -/
structure Position where
  line : Nat
  column : Nat
deriving DecidableEq, Repr, Ord

namespace Position

/-- The position of the first character of a text. -/
def start : Position := ⟨1, 1⟩

/-- The position following the character `c` at `p`. -/
def advance (p : Position) (c : Char) : Position :=
  if c = '\n' then ⟨p.line + 1, 1⟩ else ⟨p.line, p.column + 1⟩

/-- The position following the text `cs` that starts at `p`. -/
def after (p : Position) (cs : List Char) : Position := cs.foldl advance p

/-- Written as `line:column`. -/
def text (p : Position) : String := s!"{p.line}:{p.column}"

@[simp] theorem after_nil (p : Position) : p.after [] = p := rfl

@[simp] theorem after_cons (p : Position) (c : Char) (cs : List Char) :
    p.after (c :: cs) = (p.advance c).after cs := rfl

theorem after_append (p : Position) (cs ds : List Char) :
    p.after (cs ++ ds) = (p.after cs).after ds := List.foldl_append

end Position

end NandHdl
