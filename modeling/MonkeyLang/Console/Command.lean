import MonkeyLang.Text.Blank

/-!
# Commands

A line that starts with a slash is a command of the console.  `Command.read?` splits it into the
word for the command and its argument, `Command.complete` offers the commands that begin in a given
way, and `toggle` reads the argument of a command that switches something on or off.
-/

namespace MonkeyLang.Console

/-- The commands of the console. -/
inductive Command
  | tree | clear | traceback | reset
  deriving DecidableEq

namespace Command

/-- Every command, in the order in which they are offered. -/
def all : List Command := [.tree, .clear, .traceback, .reset]

/-- The word for a command. -/
def word : Command → String
  | tree => "/ast"
  | clear => "/clear"
  | traceback => "/py-traceback"
  | reset => "/reset"

/-- What a command is for. -/
def help : Command → String
  | tree => "Toggle printing the syntax tree of each entry"
  | clear => "Clear the terminal screen"
  | traceback => "Toggle Python traceback on errors"
  | reset => "Reset the REPL environment"

/-- The command that a word stands for. -/
def ofWord? (text : String) : Option Command :=
  all.find? fun command => command.word == text

/-- The word and the argument of a line that is a command. -/
def read? (line : List Char) : Option (String × String) :=
  let line := Text.trim line
  if line.head? = some '/' then
    some (String.ofList (Text.splitWord line).1, String.ofList (Text.splitWord line).2)
  else none

/-- The text before a cursor, whose position is counted from the start, or from the end if it is
negative; there is no position behind the end. -/
def beforeCursor (text : List Char) (cursor : Int) : Option (List Char) :=
  if text.length < cursor then none
  else if cursor < 0 then some (text.take (text.length - cursor.natAbs))
  else some (text.take cursor.toNat)

/-- The commands that begin with a text that starts with a slash. -/
def complete (typed : List Char) : List Command :=
  if typed.head? = some '/' then all.filter fun command => typed.isPrefixOf command.word.toList
  else []

end Command

/-- Words for switching something on. -/
def onWords : List String := ["on", "1", "true", "yes"]

/-- Words for switching something off. -/
def offWords : List String := ["off", "0", "false", "no"]

/-- The state that an argument asks for, in letters of either case; no argument asks for the other
state than the current one. -/
def toggle (argument : String) (current : Bool) : Option Bool :=
  let word := String.ofList (Text.lower argument.toList)
  if onWords.contains word then some true
  else if offWords.contains word then some false
  else if argument.isEmpty then some !current
  else none

/-- Tells whether the value of a variable switches something on; blanks around it do not matter. -/
def isFlagSet (value : Option String) : Bool :=
  match value with
  | none => false
  | some value => onWords.contains (String.ofList (Text.lower (Text.trim value.toList)))

end MonkeyLang.Console
