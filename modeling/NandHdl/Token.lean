import NandHdl.Text.Position
import NandHdl.Text.Quoted

/-!
# Tokens

The words of the source language. Line breaks and leading white space are
tokens of their own inside a module's body, where a line is a statement.

* `Token.shown`: how messages name a token.
-/

namespace NandHdl

/-- The kinds of token. -/
inductive TokenKind
  | ident | number | moduleWord | arrow | colon | equals | comma
  | lparen | rparen | lbracket | rbracket | dot | newline | indent | eof
deriving DecidableEq, Repr

namespace TokenKind

/-- All kinds, in the order of their declaration. -/
def all : List TokenKind :=
  [ident, number, moduleWord, arrow, colon, equals, comma,
   lparen, rparen, lbracket, rbracket, dot, newline, indent, eof]

/-- The name of a kind in messages. -/
def name : TokenKind → String
  | ident => "IDENT"
  | number => "NUMBER"
  | moduleWord => "MODULE"
  | arrow => "ARROW"
  | colon => "COLON"
  | equals => "EQUALS"
  | comma => "COMMA"
  | lparen => "LPAREN"
  | rparen => "RPAREN"
  | lbracket => "LBRACKET"
  | rbracket => "RBRACKET"
  | dot => "DOT"
  | newline => "NEWLINE"
  | indent => "INDENT"
  | eof => "EOF"

/-- The kind of a given name. -/
def ofName? (s : String) : Option TokenKind := all.find? fun k => k.name == s

end TokenKind

/-- A token: its kind, its text, and where the text starts. -/
structure Token where
  kind : TokenKind
  value : String
  pos : Position
deriving DecidableEq, Repr

/-- How messages name a token: the kind, and the text where it tells something. -/
def Token.shown (t : Token) : String :=
  match t.kind with
  | .newline | .eof => t.kind.name
  | .indent => t.kind.name ++ " " ++ Text.quoteText t.value
  | _ => t.kind.name ++ " '" ++ t.value ++ "'"

end NandHdl
