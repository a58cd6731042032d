/-!
# Ranges of characters

A class of characters as the ranges of code points that it consists of.
-/

namespace NandHdl.Text

/-- Ranges of code points, both ends included. -/
abbrev Ranges := List (Nat × Nat)

/-- The code point is in one of the ranges. -/
def Ranges.has (ranges : Ranges) (n : Nat) : Bool := ranges.any fun r => r.1 ≤ n && n ≤ r.2

end NandHdl.Text
