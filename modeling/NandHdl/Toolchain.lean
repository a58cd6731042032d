import NandHdl.Design.Parser
import NandHdl.Elaboration.Compile
import NandHdl.Logged

/-!
# From text to netlists

* `readSource`: the modules of a source text.
* `compileSource`: their netlists.
-/

namespace NandHdl

/-- What is wrong with a source text. -/
inductive SourceError
  | lex (e : LexError)
  | parse (e : ParseError)
  | compile (e : CompileError)
deriving DecidableEq, Repr

def SourceError.text : SourceError → String
  | lex e => e.text
  | parse e => e.text
  | compile e => e.message

/-- Reads tokens. Every module is reported as soon as it is read. -/
def readTokens (tokens : List Token) : Logged Event (Except ParseError (List Module)) :=
  let r := parse tokens
  ⟨r.result, (r.modules.map fun m => Event.moduleRead m.name m.statements.length).toArray⟩

/-- Reads a source text. -/
def readSource (source : String) : Logged Event (Except SourceError (List Module)) :=
  match Token.ofText source with
  | .error e => return .error (.lex e)
  | .ok tokens => return (← readTokens tokens).mapError .parse

/-- Compiles modules on their own. -/
def compileModules (modules : List Module) : Logged Event (Except CompileError Library) :=
  let r := Ledger.compile {} modules
  ⟨r.result, r.log.toArray⟩

/-- Reads and compiles a source text. -/
def compileSource (source : String) : Logged Event (Except SourceError Library) := do
  match ← readSource source with
  | .error e => return .error e
  | .ok modules => do
    Logged.note (.designRead modules.length)
    return (← compileModules modules).mapError .compile

end NandHdl
