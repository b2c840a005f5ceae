import MonkeyLang.Files
import MonkeyLang.Host
import MonkeyLang.Text.Quoted
import MonkeyLang.Transcript

/-!
# The command line

What a run of the program writes and how it ends, as a function of its `Invocation` and of the
`Host` it runs on.

* `CommandLine.run` interprets a source, or lists its tokens or its syntax tree;
* `CommandLine.listTree` only shows the syntax tree, of a file or of the standard input;
* `CommandLine.listTokens` only lists the tokens of the standard input.

Text from files and from the standard input has its line ends turned into newlines; an argument that
is itself the source is taken as it is.
-/

namespace MonkeyLang

/-- Everything that a run depends on: the arguments, the standard input, what is found under a path,
and whether traces are shown. -/
structure Invocation where
  args : List String
  stdin : String
  readFile : String → Except Files.PathProblem String
  traces : Bool

/-- How a run ends: well, with a code, or with a message. -/
inductive Exit
  | done
  | code (code : Nat)
  | message (text : String)

/-- What a run writes, and how it ends. -/
structure Report where
  exit : Exit
  transcript : Transcript

/-- Why a run ends without a report. -/
inductive Abort
  | broken (breakdown : Breakdown)
  | unreadable (problem : Files.PathProblem) (path : String)

/-- The wording of an abort. -/
def Abort.message : Abort → String
  | broken (.refused refusal) => refusal.message
  | broken (.faulted fault) => fault.message
  | unreadable .missing path => "No such file or directory: " ++ Text.quoted path
  | unreadable .isDirectory path => "Is a directory: " ++ Text.quoted path
  | unreadable .notDirectory path => "Not a directory: " ++ Text.quoted path
  | unreadable .nameTooLong path => "File name too long: " ++ Text.quoted path
  | unreadable .nulCharacter _ => "embedded null byte"

namespace CommandLine

/-- A text with newlines at the end of its lines. -/
def unifyLineEnds : List Char → List Char
  | [] => []
  | '\r' :: '\n' :: rest => '\n' :: unifyLineEnds rest
  | c :: rest => (if c = '\r' then '\n' else c) :: unifyLineEnds rest

/-- A text as it is read from a file. -/
def asRead (text : String) : String :=
  String.ofList (unifyLineEnds text.toList)

/-- A token in a listing. -/
def tokenLine (token : Token) : String :=
  "Tok(" ++ token.kind.name ++ ", " ++ Text.quoted token.literal ++ ")\n"

/-- The listing of the tokens of a text. -/
def tokenListing (source : String) : String :=
  String.join ((tokens source.toList).map tokenLine)

/-- A run that writes output and ends well. -/
def success (text : String) : Report := ⟨.done, .output text⟩

/-- A run that writes errors and ends with code 1. -/
def failure (text : String) : Report := ⟨.code 1, .errors text⟩

/-! ### Arguments -/

/-- What is done with the source. -/
inductive Mode
  | run | tokens | tree

/-- Reads the arguments: the mode that was asked for last, and where the source is.  A second place
for the source is not accepted. -/
def readArgs (mode : Mode) (place : Option String) :
    List String → Except String (Mode × Option String)
  | [] => .ok (mode, place)
  | arg :: args =>
    if arg = "--tokens" then readArgs .tokens place args
    else if arg = "--ast" then readArgs .tree place args
    else
      match place with
      | none => readArgs mode (some arg) args
      | some _ => .error ("Unexpected argument: " ++ arg)

/-- Where the source is. -/
inductive Place
  | standardInput
  | argument (text : String)

/-- The place that an argument names. -/
def Place.ofArg : Option String → Place
  | none => standardInput
  | some arg => if arg = "-" then standardInput else argument arg

/-- The source in an argument: the contents of the file that it is a path to, or the argument itself
where a path leads to nothing. -/
def argumentSource (invocation : Invocation) (text : String) : Except Abort String :=
  let path := Files.normalize text
  match invocation.readFile path with
  | .ok contents => .ok (asRead contents)
  | .error problem =>
    match problem with
    | .missing | .notDirectory | .nulCharacter => .ok text
    | .isDirectory | .nameTooLong => .error (.unreadable problem path)

/-! ### Runs -/

/-- A run that lists diagnostics and ends with code 1. -/
def rejection (prefixText : String) (diagnostics : List Diagnostic) : Report :=
  failure (String.join ((messages diagnostics).map fun message => prefixText ++ message ++ "\n"))

/-- Interprets a source and shows its value.  Of all faults only the lack of room for an evaluation
is reported. -/
def interpretSource (host : Host) (traces : Bool) (source : String) : Except Breakdown Report := do
  match ← host.readProgram source with
  | .error diagnostics => return rejection "parse error: " diagnostics
  | .ok program =>
    match (program.eval (callWithin host.callDepth) Store.global).exec .initial with
    | (.error .depthExceeded, store) =>
      let trace := if traces then "Traceback (most recent call last):\n" else ""
      return ⟨.message ("Error: " ++ Fault.depthExceeded.message), ⟨store.printed, trace⟩⟩
    | (.error fault, _) => throw (.faulted fault)
    | (.ok value, store) => return success (store.printed ++ (← host.line value))

/-- Shows the syntax tree of a source. -/
def treeListing (host : Host) (prefixText suffix : String) (source : String) :
    Except Breakdown Report := do
  match ← host.readProgram source with
  | .error diagnostics => return rejection prefixText diagnostics
  | .ok program => return success ((← host.pretty program) ++ suffix)

/-- Does with a source what a mode asks for. -/
def runSource (host : Host) (traces : Bool) (mode : Mode) (source : String) :
    Except Breakdown Report :=
  match mode with
  | .tokens => .ok (success (tokenListing source))
  | .tree => treeListing host "parse error: " "" source
  | .run => interpretSource host traces source

/-- A run that does nothing but end with a message. -/
def stop (message : String) : Report := ⟨.message message, .empty⟩

/-- Runs the interpreter.  The standard input must not be empty if the source is read from it. -/
def run (host : Host) (invocation : Invocation) : Except Abort Report :=
  match readArgs .run none invocation.args with
  | .error message => .ok (stop message)
  | .ok (mode, arg) =>
    match Place.ofArg arg with
    | .standardInput =>
      if invocation.stdin.isEmpty then .ok (stop "No input provided on stdin")
      else (runSource host invocation.traces mode (asRead invocation.stdin)).mapError .broken
    | .argument text => do
      let source ← argumentSource invocation text
      (runSource host invocation.traces mode source).mapError .broken

/-- Shows the syntax tree of the file named by the first argument that is no option, or of the
standard input, with an empty line behind it. -/
def listTree (host : Host) (invocation : Invocation) : Except Abort Report := do
  let text ← match Place.ofArg (invocation.args.find? fun arg => !arg.startsWith "--") with
    | .standardInput => .ok invocation.stdin
    | .argument path => (invocation.readFile path).mapError (.unreadable · path)
  (treeListing host "" "\n" (asRead text)).mapError .broken

/-- Lists the tokens of the standard input. -/
def listTokens (invocation : Invocation) : Report :=
  success (tokenListing (asRead invocation.stdin))

end CommandLine

end MonkeyLang
