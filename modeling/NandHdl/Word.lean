/-!
# Machine words

Numbers of the source language, of a bench and of the interchange format are
unsigned words of 64 bits.
-/

namespace NandHdl

/-- The number of bits of a word. -/
def wordBits : Nat := 64

/-- One past the largest word. -/
def wordLimit : Nat := 1 <<< wordBits

/-- The word nearest to a number: the number itself, or the largest word. -/
def nearestWord (n : Nat) : Nat := min n (wordLimit - 1)

end NandHdl
