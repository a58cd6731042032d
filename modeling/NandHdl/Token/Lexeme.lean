import NandHdl.Token

/-!
# Lexemes

A source text is cut into lexemes from left to right: runs of blanks, line
feeds, comments and words, each as long as it can be. Nothing is dropped, so
the lexemes put together are the text. What a lexeme is depends on the
characters alone, never on the layout around it.

* `cut?`: the lexeme at the start of a text, or `none` at a character that
  starts no lexeme.
* `cut?_eq_append`: a cut loses nothing.
* `scan`: all lexemes of a text, or the first character that starts none.
-/

namespace NandHdl

/-- A character that starts no lexeme, and where it stands. -/
structure LexError where
  char : Char
  pos : Position
deriving DecidableEq, Repr

def LexError.message (e : LexError) : String := "Unexpected character " ++ Text.quoteChar e.char

def LexError.text (e : LexError) : String := e.pos.text ++ ": " ++ e.message

namespace Lexeme

/-- What a lexeme is. Only words become tokens everywhere. -/
inductive Shape
  | blank
  | lineFeed
  | comment
  | word (kind : TokenKind)
deriving DecidableEq, Repr

end Lexeme

/-- A stretch of the source text and where it starts. -/
structure Lexeme where
  shape : Lexeme.Shape
  text : List Char
  pos : Position
deriving DecidableEq, Repr

namespace Lexeme

/-- A space or a tab. -/
def isBlank (c : Char) : Bool := c = ' ' || c = '\t'

/-- A letter or an underscore, which starts a name. -/
def startsName (c : Char) : Bool := c.isAlpha || c = '_'

/-- A letter, a digit or an underscore, which continues a name. -/
def continuesName (c : Char) : Bool := c.isAlphanum || c = '_'

/-- A digit in base sixteen. -/
def isHexDigit (c : Char) : Bool :=
  c.isDigit || ('a' ≤ c && c ≤ 'f') || ('A' ≤ c && c ≤ 'F')

/-- The kind of a word that is a single character. -/
def punctuation? : Char → Option TokenKind
  | ':' => some .colon
  | '=' => some .equals
  | ',' => some .comma
  | '(' => some .lparen
  | ')' => some .rparen
  | '[' => some .lbracket
  | ']' => some .rbracket
  | '.' => some .dot
  | _ => none

/-- One name is reserved. -/
def nameKind (text : List Char) : TokenKind :=
  if text = ['m', 'o', 'd', 'u', 'l', 'e'] then .moduleWord else .ident

/-- The first lexeme of a text and what follows it. -/
structure Cut where
  shape : Shape
  text : List Char
  rest : List Char
deriving DecidableEq, Repr

/-- A lexeme that starts with `c` and goes on as long as `p` holds. -/
def Cut.run (shape : List Char → Shape) (front : List Char) (p : Char → Bool) (cs : List Char) : Cut :=
  let text := front ++ cs.takeWhile p
  ⟨shape text, text, cs.dropWhile p⟩

/-- A number starting with the digit `c`: digits of base sixteen after `0x`, decimal ones otherwise. -/
def cutNumber (c : Char) (cs : List Char) : Cut :=
  match c, cs with
  | '0', 'x' :: ds => .run (fun _ => .word .number) ['0', 'x'] isHexDigit ds
  | '0', 'X' :: ds => .run (fun _ => .word .number) ['0', 'X'] isHexDigit ds
  | c, cs => .run (fun _ => .word .number) [c] Char.isDigit cs

/-- The lexeme at the start of the text `c :: cs`. -/
def cut? (c : Char) (cs : List Char) : Option Cut :=
  if isBlank c then some (.run (fun _ => .blank) [c] isBlank cs)
  else if c = '\n' then some ⟨.lineFeed, [c], cs⟩
  else if c = ';' then some (.run (fun _ => .comment) [c] (· ≠ '\n') cs)
  else if startsName c then some (.run (fun text => .word (nameKind text)) [c] continuesName cs)
  else if c.isDigit then some (cutNumber c cs)
  else if c = '-' then
    match cs with
    | '>' :: ds => some ⟨.word .arrow, ['-', '>'], ds⟩
    | _ => none
  else (punctuation? c).map fun k => ⟨.word k, [c], cs⟩

theorem Cut.run_append (shape : List Char → Shape) (front : List Char) (p : Char → Bool)
    (cs : List Char) : (Cut.run shape front p cs).text ++ (Cut.run shape front p cs).rest = front ++ cs := by
  simp [Cut.run, List.append_assoc, List.takeWhile_append_dropWhile]

theorem cutNumber_append (c : Char) (cs : List Char) :
    (cutNumber c cs).text ++ (cutNumber c cs).rest = c :: cs := by
  unfold cutNumber
  split <;> simp [Cut.run_append]

/-- A cut loses nothing. -/
theorem cut?_eq_append {c : Char} {cs : List Char} {x : Cut} (h : cut? c cs = some x) :
    x.text ++ x.rest = c :: cs := by
  unfold cut? at h
  split at h
  · cases h; simp [Cut.run_append]
  split at h
  · cases h; rfl
  split at h
  · cases h; simp [Cut.run_append]
  split at h
  · cases h; simp [Cut.run_append]
  split at h
  · cases h; exact cutNumber_append c cs
  split at h
  · next hc =>
    split at h
    · cases h; simp [hc]
    · cases h
  · obtain ⟨k, -, rfl⟩ := Option.map_eq_some_iff.1 h
    rfl

/-- A lexeme is not empty. -/
theorem cut?_text_ne_nil {c : Char} {cs : List Char} {x : Cut} (h : cut? c cs = some x) :
    x.text ≠ [] := by
  unfold cut? at h
  split at h
  · cases h; simp [Cut.run]
  split at h
  · cases h; simp
  split at h
  · cases h; simp [Cut.run]
  split at h
  · cases h; simp [Cut.run]
  split at h
  · cases h
    unfold cutNumber
    split <;> simp [Cut.run]
  split at h
  · split at h
    · cases h; simp
    · cases h
  · obtain ⟨k, -, rfl⟩ := Option.map_eq_some_iff.1 h
    simp

/-- What follows a lexeme is shorter than the text. -/
theorem cut?_rest_lt {c : Char} {cs : List Char} {x : Cut} (h : cut? c cs = some x) :
    x.rest.length < (c :: cs).length := by
  have happ := congrArg List.length (cut?_eq_append h)
  have hne := List.length_pos_iff.2 (cut?_text_ne_nil h)
  rw [List.length_append] at happ
  omega

/-- The lexemes of a text that starts at `pos`. -/
def scanFrom (pos : Position) : List Char → Except LexError (List Lexeme)
  | [] => .ok []
  | c :: cs =>
    match _h : cut? c cs with
    | none => .error ⟨c, pos⟩
    | some x => (scanFrom (pos.after x.text) x.rest).map (⟨x.shape, x.text, pos⟩ :: ·)
termination_by cs => cs.length
decreasing_by exact cut?_rest_lt _h

/-- The lexemes of a text. -/
def scan (cs : List Char) : Except LexError (List Lexeme) := scanFrom .start cs

end Lexeme

end NandHdl
