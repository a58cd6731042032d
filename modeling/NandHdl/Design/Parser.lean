import NandHdl.Design
import NandHdl.Text.Numeral
import NandHdl.Token.Layout

/-!
# Reading designs

A recursive-descent reader of the grammar

    design    = module* EOF
    module    = MODULE IDENT ( ports? ) -> (port | ( ports? )) : eol (INDENT statement eol)*
    ports     = port (, port)*
    port      = IDENT (: NUMBER)?
    statement = IDENT range? = expr
    range     = [ NUMBER (: NUMBER)? ]
    expr      = (call | IDENT | NUMBER) (. IDENT | range)*
    call      = IDENT ( (expr (, expr)*)? )
    eol       = NEWLINE, or nothing before EOF

The first violation ends the reading. Behind the last token of a stream that
token stays current, and nothing follows it.

* `Cursor`: the current token and those behind it.
* `Expected.message`: all that can be wrong.
* `parse`: the modules before the first violation, and the violation.
* `readDesign`: from source text to modules.
-/

namespace NandHdl

/-- What is wrong with a token. -/
inductive ParseFault
  /-- Another kind of token has to stand here. -/
  | expected (what : String) (found : Token)
  /-- The text of a number is no number, or too large for a word. -/
  | invalidNumber (text : String)
  | indexOutOfRange (value : Nat)
  | zeroWidth
deriving DecidableEq, Repr

def ParseFault.message : ParseFault → String
  | expected what found => "Expected " ++ what ++ ", found " ++ found.shown
  | invalidNumber text => "Invalid number literal '" ++ text ++ "'"
  | indexOutOfRange value => s!"Bit index out of range '{value}'"
  | zeroWidth => "Port width must be at least 1, found '0'"

/-- A violation of the grammar, and the token where it shows. -/
structure ParseError where
  fault : ParseFault
  pos : Position
deriving DecidableEq, Repr

def ParseError.message (e : ParseError) : String := e.fault.message

def ParseError.text (e : ParseError) : String := e.pos.text ++ ": " ++ e.message

/-- A place in a stream of tokens, which is never empty. -/
structure Cursor where
  current : Token
  later : List Token
deriving DecidableEq, Repr

namespace Cursor

/-- The next token becomes current. The last one stays. -/
def next (c : Cursor) : Cursor :=
  match c.later with
  | [] => c
  | t :: ts => ⟨t, ts⟩

/-- The kind of the current token. -/
def kind (c : Cursor) : TokenKind := c.current.kind

/-- A token of kind `k` follows the current one. -/
def followedBy (c : Cursor) (k : TokenKind) : Bool := c.later.head?.any (·.kind = k)

/-- The number of tokens from here on, which bounds every repetition. -/
def remaining (c : Cursor) : Nat := c.later.length + 1

end Cursor

/-- Reads from a cursor and moves it. -/
abbrev Parser := StateT Cursor (Except ParseError)

namespace Parser

variable {α : Type}

/-- Reports a violation at a token. -/
def failAt (t : Token) (fault : ParseFault) : Parser α := throw ⟨fault, t.pos⟩

/-- The current token. -/
def peek : Parser Token := return (← get).current

/-- Reports that something else has to stand here. -/
def expected (what : String) : Parser α := do
  let t ← peek
  failAt t (.expected what t)

/-- The current token, which is passed. -/
def advance : Parser Token := do
  let c ← get
  set c.next
  return c.current

/-- The current token, which has to be of kind `k`. -/
def expect (k : TokenKind) : Parser Token := do
  if (← peek).kind = k then advance else expected k.name

/-- Passes the current token if it is of kind `k`, and tells whether it was. -/
def eat (k : TokenKind) : Parser Bool := do
  if (← peek).kind = k then
    let _ ← advance
    return true
  else
    return false

/-- The end of a line. Before the end of the text none is needed. -/
def endOfLine : Parser Unit := do
  match (← peek).kind with
  | .newline => discard advance
  | .eof => return ()
  | _ => expected TokenKind.newline.name

def name : Parser String := return (← expect .ident).value

/-- A number of one word. -/
def number : Parser Nat := do
  let t ← expect .number
  match Numeral.literal? t.value with
  | some v => return v
  | none => failAt t (.invalidNumber t.value)

/-- A bit number or a width. -/
def index : Parser Nat := do
  let t ← peek
  let v ← number
  if v ≤ widthLimit then return v else failAt t (.indexOutOfRange v)

/-- One or more `p`, separated by commas, at most `fuel + 1` of them. -/
def commaList (p : Parser α) : Nat → Parser (List α)
  | 0 => return [← p]
  | fuel + 1 => do
    let x ← p
    if ← eat .comma then return x :: (← commaList p fuel) else return [x]

/-- One or more `p`, separated by commas. -/
def list (p : Parser α) : Parser (List α) := do commaList p (← get).remaining

/-- Any number of `p`, separated by commas, up to a closing parenthesis, which is passed too. -/
def closedList (p : Parser α) : Parser (List α) := do
  let xs ← if (← peek).kind = .rparen then pure [] else list p
  let _ ← expect .rparen
  return xs

/-- A port. Its colon starts a width only if a number follows, since a colon also ends the header. -/
def port : Parser Port := do
  let name ← name
  let c ← get
  if c.kind = .colon && c.followedBy .number then
    let _ ← advance
    let t ← peek
    let width ← index
    if width = 0 then failAt t .zeroWidth
    return ⟨name, width⟩
  else
    return ⟨name, 1⟩

/-- What follows the opening bracket of a range. -/
def range : Parser BitRange := do
  let first ← index
  let r ← if ← eat .colon then (return .slice first (← index)) else (return .bit first)
  let _ ← expect .rbracket
  return r

/-- Fields and ranges behind an expression, at most `fuel` of them. -/
def suffixes : Nat → Expr → Parser Expr
  | 0, e => return e
  | fuel + 1, e => do
    if ← eat .dot then suffixes fuel (.member e (← name))
    else if ← eat .lbracket then suffixes fuel (.select e (← range))
    else return e

/-- An expression without suffixes, given the reader of arguments. -/
def primary (args : Parser (List Expr)) : Parser Expr := do
  let c ← get
  match c.kind with
  | .ident =>
    let name ← name
    if c.followedBy .lparen then
      let _ ← expect .lparen
      return .call name (← args)
    else
      return .identifier name
  | .number => return .number (← number)
  | _ => expected "expression"

/-- An expression in which calls are nested at most `fuel` deep. -/
def exprWithin : Nat → Parser Expr
  | 0 => expected "expression"
  | fuel + 1 => do
    let e ← primary (closedList (exprWithin fuel))
    suffixes (← get).remaining e

/-- An expression. -/
def expr : Parser Expr := do exprWithin (← get).remaining

def statement : Parser Statement := do
  let name ← name
  let range ← if ← eat .lbracket then (return some (← range)) else (return none)
  let _ ← expect .equals
  return ⟨⟨name, range⟩, ← expr⟩

/-- Indented statements, at most `fuel` of them. -/
def statements : Nat → Parser (List Statement)
  | 0 => return []
  | fuel + 1 => do
    if ← eat .indent then
      let s ← statement
      endOfLine
      return s :: (← statements fuel)
    else
      return []

/-- The outputs of a header. A single one needs no parentheses. -/
def outputs : Parser (List Port) := do
  if ← eat .lparen then closedList port else return [← port]

def module : Parser Module := do
  let _ ← expect .moduleWord
  let name ← name
  let _ ← expect .lparen
  let inputs ← closedList port
  let _ ← expect .arrow
  let outputs ← outputs
  let _ ← expect .colon
  endOfLine
  return ⟨name, inputs, outputs, ← statements (← get).remaining⟩

end Parser

/-- The modules before the first violation, and the violation if there is one. -/
structure Parsed where
  modules : List Module
  error : Option ParseError
deriving DecidableEq, Repr

/-- The modules from `c` on, at most `fuel` of them. -/
def parseFrom : Nat → Cursor → Parsed
  | 0, _ => ⟨[], none⟩
  | fuel + 1, c =>
    if c.kind = .eof then ⟨[], none⟩
    else
      match Parser.module.run c with
      | .error e => ⟨[], some e⟩
      | .ok (m, c) =>
        let r := parseFrom fuel c
        ⟨m :: r.modules, r.error⟩

/-- Reads a stream of tokens. An empty one holds no module. -/
def parse : List Token → Parsed
  | [] => ⟨[], none⟩
  | t :: ts => parseFrom (Cursor.remaining ⟨t, ts⟩) ⟨t, ts⟩

/-- The modules, unless there was a violation. -/
def Parsed.result (r : Parsed) : Except ParseError (List Module) :=
  match r.error with
  | some e => .error e
  | none => .ok r.modules

end NandHdl
