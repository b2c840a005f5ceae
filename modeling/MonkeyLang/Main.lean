import MonkeyLang.CommandLine
import MonkeyLang.Console.Command

/-!
# The program

Gathers what a run depends on from its surroundings, and writes its report.
-/

namespace MonkeyLang.CommandLine

/-- The problem that the system reports by a number. -/
def problemOfCode (code : UInt32) : Files.PathProblem :=
  if code = 20 then .notDirectory
  else if code = 21 then .isDirectory
  else if code = 36 then .nameTooLong
  else .missing

/-- The problem that an error stands for. -/
def problemOf : IO.Error → Files.PathProblem
  | .inappropriateType _ code _ | .invalidArgument _ code _ => problemOfCode code
  | _ => .missing

/-- What is found under a path. -/
def probe (path : String) : IO (String × Except Files.PathProblem String) := do
  try
    return (path, .ok (← IO.FS.readFile path))
  catch e => return (path, .error (problemOf e))

/-- Tells whether the source comes from the standard input. -/
def readsInput (args : List String) : Bool :=
  match readArgs .run none args with
  | .ok (_, arg) =>
    match Place.ofArg arg with
    | .standardInput => true
    | .argument _ => false
  | .error _ => false

/-- The invocation that the surroundings make. -/
def invocation (args : List String) : IO Invocation := do
  let found ← (args.map Files.normalize).mapM probe
  let traces := Console.isFlagSet (← IO.getEnv "MONKEY_DEBUG_PY_TRACE")
  let stdin ← if readsInput args then (← IO.getStdin).readToEnd else pure ""
  return ⟨args, stdin, fun path => (found.lookup path).getD (.error .missing), traces⟩

/-- Writes a report; the exit code tells whether the run ended well. -/
def write (report : Report) : IO UInt32 := do
  IO.print report.transcript.out
  IO.eprint report.transcript.err
  match report.exit with
  | .done => return 0
  | .code code => return code.toUInt32
  | .message text =>
    IO.eprintln text
    return 1

end MonkeyLang.CommandLine

/-- Runs the interpreter on the arguments of the command line. -/
def main (args : List String) : IO UInt32 := do
  match MonkeyLang.CommandLine.run .usual (← MonkeyLang.CommandLine.invocation args) with
  | .ok report => MonkeyLang.CommandLine.write report
  | .error abort =>
    IO.eprintln abort.message
    return 1
