import NandHdl.Text.Hidden

/-!
# Quoted characters and texts

How messages show a character or a text between quotes: the quote itself, the
backslash and the usual controls are escaped by a backslash, and a character
without a shape of its own is given by its code point.

* `quoteChar`: between single quotes.
* `quoteText`: between double quotes.
-/

namespace NandHdl.Text

/-- A number in base sixteen, lower case, without padding. -/
def hex (n : Nat) : String := String.ofList (Nat.toDigits 16 n)

/-- A number in base sixteen, at least `width` digits. -/
def hexPadded (width n : Nat) : String :=
  let digits := Nat.toDigits 16 n
  String.ofList (List.replicate (width - digits.length) '0' ++ digits)

/-- One character inside quotes of the kind `quote`. -/
def escapeChar (quote c : Char) : String :=
  if c = '\x00' then "\\0"
  else if c = '\t' then "\\t"
  else if c = '\n' then "\\n"
  else if c = '\r' then "\\r"
  else if c = '\\' || c = quote then "\\" ++ c.toString
  else if isHidden c then "\\u\x7b" ++ hex c.toNat ++ "\x7d"
  else c.toString

/-- A character between single quotes. -/
def quoteChar (c : Char) : String := "'" ++ escapeChar '\x27' c ++ "'"

/-- A text between double quotes. -/
def quoteText (s : String) : String :=
  "\"" ++ String.join (s.toList.map (escapeChar '"')) ++ "\""

end NandHdl.Text
