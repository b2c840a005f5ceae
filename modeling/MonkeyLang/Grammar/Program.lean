import MonkeyLang.Grammar.Expression
import MonkeyLang.Token.Scan

/-!
# Reading programs

`parseTokens` reads a program from tokens, and `parse` from text.  The program holds the statements
that could be read, the diagnostics say what was wrong with the others.

`read` is what the rest of the interpreter uses: it refuses a text in which an integer literal
could not be converted.  `readProgram` also refuses one that left any diagnostic.
-/

namespace MonkeyLang

/-- A program and what was found wrong with the text it was read from. -/
@[ext]
structure Parsed where
  program : Node
  diagnostics : List Diagnostic

/-- Reads statements up to the end of the text. -/
def Grammar.program : Rule Node := do
  return .program (← statements expression fun kind => kind = .eof)

/-- The program that tokens make up. -/
def parseTokens (ts : List Token) : Parsed :=
  let reading := Grammar.program ts
  ⟨reading.value.getD (.program []), reading.diagnostics⟩

/-- The program in a text. -/
def parse (text : List Char) : Parsed :=
  parseTokens (scan text)

/-- The first refusal among diagnostics. -/
def refusalOf (diagnostics : List Diagnostic) : Option Refusal :=
  diagnostics.findSome? Diagnostic.refusal?

/-- The program in a text, unless the text is refused. -/
def read (source : String) : Except Refusal Parsed :=
  let parsed := parse source.toList
  match refusalOf parsed.diagnostics with
  | some refusal => .error refusal
  | none => .ok parsed

/-- Why a text is no program: it is refused, or it left diagnostics. -/
inductive ReadError
  | refused (refusal : Refusal)
  | malformed (diagnostics : List Diagnostic)

/-- The messages of diagnostics. -/
def messages (diagnostics : List Diagnostic) : List String :=
  diagnostics.map Diagnostic.message

/-- The program in a text that leaves no diagnostics. -/
def readProgram (source : String) : Except ReadError Node :=
  match read source with
  | .error refusal => .error (.refused refusal)
  | .ok parsed =>
    if parsed.diagnostics.isEmpty then .ok parsed.program
    else .error (.malformed parsed.diagnostics)

end MonkeyLang
