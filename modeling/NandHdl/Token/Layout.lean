import NandHdl.Token.Lexeme

/-!
# Layout

Lexemes become tokens. Words always do. Line feeds and leading blanks do only
inside a body, which starts at the line break after a header's last colon and
ends at the next `module`. There a line with a word on it is closed by a
`NEWLINE`, and opened by an `INDENT` if blanks lead it; other lines leave no
trace.

* `Zone`: the part of a module that is being read.
* `tokenOf?`, `Zone.next`: a lexeme yields at most one token and moves on the zone.
* `Token.ofText`: the tokens of a source text, closed by an `EOF`.
-/

namespace NandHdl

/-- The part of a module that is being read. -/
inductive Zone
  /-- Before the first header. -/
  | outside
  /-- In a header, inside `depth` parentheses, before or after its arrow. -/
  | header (depth : Nat) (arrow : Bool)
  /-- Behind the colon that ends a header, on the same line. -/
  | headed
  /-- In a body, before or after the first word of a line. -/
  | body (lineStart : Bool)
deriving DecidableEq, Repr

namespace Lexeme

/-- The lexeme is a word. -/
def isWord (x : Lexeme) : Bool := x.shape matches .word _

/-- A word comes next. -/
def wordNext (xs : List Lexeme) : Bool := xs.head?.any isWord

/-- No word comes before the line ends. -/
def lineDone (xs : List Lexeme) : Bool := !wordNext (xs.dropWhile (·.shape = .blank))

/-- The token that the lexeme `x`, followed by `xs`, yields in zone `z`. -/
def tokenOf? (z : Zone) (x : Lexeme) (xs : List Lexeme) : Option Token :=
  let token (k : TokenKind) : Option Token := some ⟨k, String.ofList x.text, x.pos⟩
  match x.shape, z with
  | .word k, _ => token k
  | .blank, .body true => if wordNext xs then token .indent else none
  | .lineFeed, .headed => token .newline
  | .lineFeed, .body false => token .newline
  | _, _ => none

end Lexeme

/-- The zone behind the lexeme `x`, which is followed by `xs`. A header ends at a colon outside
parentheses and behind the arrow, if nothing else stands on its line. -/
def Zone.next (z : Zone) (x : Lexeme) (xs : List Lexeme) : Zone :=
  match x.shape, z with
  | .lineFeed, .headed => .body true
  | .lineFeed, .body _ => .body true
  | .word .moduleWord, _ => .header 0 false
  | .word _, .body _ => .body false
  | .word .lparen, .header d a => .header (d + 1) a
  | .word .rparen, .header d a => .header (d - 1) a
  | .word .arrow, .header 0 _ => .header 0 true
  | .word .colon, .header 0 true => if Lexeme.lineDone xs then .headed else z
  | _, _ => z

/-- The tokens of lexemes read from zone `z` on. -/
def layout : Zone → List Lexeme → List Token
  | _, [] => []
  | z, x :: xs => (Lexeme.tokenOf? z x xs).toList ++ layout (z.next x xs) xs

/-- The tokens of a source text. The last one marks the end. -/
def Token.ofText (source : String) : Except LexError (List Token) :=
  (Lexeme.scan source.toList).map fun xs =>
    layout .outside xs ++ [⟨.eof, "", Position.start.after source.toList⟩]

end NandHdl
