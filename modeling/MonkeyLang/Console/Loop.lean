import MonkeyLang.Console.Command
import MonkeyLang.Console.Entry
import MonkeyLang.Host
import MonkeyLang.Transcript

/-!
# The console

The console reads entries one after another and evaluates them in one store.  `Console.submit` says
what an entry does, `Console.step` what an event at the prompt does, and `Console.run` what a whole
session shows.

An entry of blanks does nothing.  A command changes the state of the console, and only `/reset`
touches the bindings.  Anything else is interpreted, and what comes of it is shown: the printed
lines and the value as output, diagnostics and faults as errors.

The console reports the faults of an evaluation and goes on.  It has no such care for the tree that
it shows before the evaluation and for the value that it shows behind it: where the host has no room
for one of them, the session breaks off.
-/

namespace MonkeyLang

/-- The state of a console: the store, and whether syntax trees and traces are shown. -/
structure Console where
  store : Store
  showsTree : Bool
  showsTrace : Bool

namespace Console

/-- The console at its start. -/
def initial : Console := ⟨.initial, false, false⟩

/-- What is shown at the start. -/
def banner : String :=
  "This is the Monkey programming language! Ctrl-D to exit, / for commands\n"

/-- The prompt for an entry. -/
def prompt : String := ">> "

/-- The picture above diagnostics. -/
def face : String :=
  "            __,__\n" ++
  "   .--.  .-\"     \"-.  .--.\n" ++
  "  / .. \\/  .-. .-.  \\/ .. \\\n" ++
  " | |  '|  /   Y   \\  |'  | |\n" ++
  " | \\   \\  \\ 0 | 0 /  /   / |\n" ++
  "  \\ '- ,\\.-\"\"\"\"\"\"\"-./, -' /\n" ++
  "   ''-' /_   ^ ^   _\\ '-''\n" ++
  "       |  \\._   _./  |\n" ++
  "       \\   \\ '~' /   /\n" ++
  "        '._ '-=-' _.'\n" ++
  "           '-----'\n"

/-- How diagnostics are shown. -/
def report (diagnostics : List Diagnostic) : String :=
  face ++ "Woops! We ran into some monkey business here!\n parser errors:\n" ++
    String.join ((messages diagnostics).map fun message => "\t" ++ message ++ "\n")

/-- The word for a state of a switch. -/
def switchWord (on : Bool) : String :=
  if on then "on" else "off"

/-- What the console does at an event: what it shows, the console afterwards, and what broke the
session off, if anything did. -/
structure Step where
  transcript : Transcript
  after : Console
  breakdown : Option Breakdown

/-! ### Commands -/

/-- Carries out a command. -/
def obey (host : Host) (console : Console) (command : Command) (argument : String) :
    Transcript × Console :=
  match command with
  | .clear => (.output host.clearing, console)
  | .traceback =>
    match toggle argument console.showsTrace with
    | some on =>
      (.output ("Python traceback: " ++ switchWord on ++ "\n"), { console with showsTrace := on })
    | none => (.errors "Usage: /py-traceback [on|off]\n", console)
  | .tree =>
    match toggle argument console.showsTree with
    | some on => (.output ("AST dump: " ++ switchWord on ++ "\n"), { console with showsTree := on })
    | none => (.errors "Usage: /ast [on|off]\n", console)
  | .reset => (.output "Environment reset.\n", { console with store := .initial })

/-- Carries out the command that a word stands for. -/
def obeyWord (host : Host) (console : Console) (word argument : String) : Transcript × Console :=
  match Command.ofWord? word with
  | some command => console.obey host command argument
  | none => (.errors ("Unknown command: " ++ word ++ "\n"), console)

/-! ### Entries -/

/-- The syntax tree that is shown before an entry without diagnostics is evaluated. -/
def treeText (host : Host) (console : Console) (source : String) : Except Breakdown String :=
  if console.showsTree then
    match host.readProgram source with
    | .ok (.ok program) => host.pretty program
    | .ok (.error _) => .ok ""
    | .error breakdown => .error breakdown
  else .ok ""

/-- Tells whether the console reports a fault of an evaluation. -/
def reports : Fault → Bool
  | .depthExceeded | .unknownNode _ => true
  | .noKind | .noDisplay _ => false

/-- What is shown for a fault. -/
def faultText (console : Console) (fault : Fault) : String :=
  "Error: " ++ fault.message ++ "\n" ++
    if console.showsTrace then "\nPython traceback:\n" else ""

/-- Shows what came of an entry, behind what has been shown before. -/
def conclude (host : Host) (console : Console) (shown : String) : Outcome → Step
  | .refused refusal => ⟨.output shown, console, some (.refused refusal)⟩
  | .malformed diagnostics => ⟨⟨shown, report diagnostics⟩, console, none⟩
  | .faulted fault =>
    if reports fault then ⟨⟨shown, console.faultText fault⟩, console, none⟩
    else ⟨.output shown, console, some (.faulted fault)⟩
  | .value value =>
    match host.line value with
    | .ok line => ⟨.output (shown ++ line), console, none⟩
    | .error breakdown => ⟨.output shown, console, some breakdown⟩

/-- Shows the tree of an entry, evaluates the entry and shows what came of it. -/
def evaluate (host : Host) (console : Console) (source : String) : Step :=
  match console.treeText host source with
  | .error breakdown => ⟨.empty, console, some breakdown⟩
  | .ok tree =>
    let (outcome, store) := host.interpret Store.global source console.store.forgetOutput
    { console with store := store.forgetOutput }.conclude host (tree ++ store.printed) outcome

/-- Does what a submitted text asks for. -/
def submit (host : Host) (console : Console) (text : List Char) : Step :=
  let text := normalize text
  if (Text.trim text).isEmpty then ⟨.empty, console, none⟩
  else
    match Command.read? text with
    | some (word, argument) =>
      let (shown, console) := console.obeyWord host word argument
      ⟨shown, console, none⟩
    | none => console.evaluate host (String.ofList text)

/-! ### Sessions -/

/-- What happens at the prompt: a text is submitted, or the prompt is interrupted. -/
inductive Event
  | submitted (text : List Char)
  | interrupted

/-- The step that the console makes at an event. -/
def step (host : Host) (console : Console) : Event → Step
  | .submitted text => console.submit host text
  | .interrupted => ⟨.output "KeyboardInterrupt\n", console, none⟩

/-- What is shown when the input ends. -/
def farewell : Transcript := .output "\n"

/-- What is shown in a session, at one event after another and at the end of the input, and what
broke the session off, if anything did. -/
def run (host : Host) (console : Console) : List Event → List Transcript × Option Breakdown
  | [] => ([farewell], none)
  | event :: events =>
    let step := console.step host event
    match step.breakdown with
    | some breakdown => ([step.transcript], some breakdown)
    | none =>
      let (shown, breakdown) := step.after.run host events
      (step.transcript :: shown, breakdown)

end Console

end MonkeyLang
