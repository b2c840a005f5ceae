import MonkeyLang.Syntax.Render
import MonkeyLang.Value.Basic

/-!
# Showing values

`Value.display` is how the language shows a value to its user, as it does for the outcome of a
program and for what a program prints.  A string shows its contents, a function its source, a value
on its way out of a function what it carries.

Two things have no text: the absence of a value, which may be inside an array or a hash, and a
function whose body is no block.  `Value.obstacle?` finds the first of them in a value.
-/

namespace MonkeyLang

/-- What cannot be shown: the absence of a value, or a function with a body that is no block but a
node of the given kind. -/
inductive Obstacle
  | noValue
  | bodyOfKind (kind : String)
  deriving DecidableEq

/-- The words for the truth values. -/
def boolText (b : Bool) : List Char :=
  if b then ['t', 'r', 'u', 'e'] else ['f', 'a', 'l', 's', 'e']

namespace Value

mutual

/-- The characters that show a value. -/
def write : Value → List Char
  | nothing => []
  | null => ['n', 'u', 'l', 'l']
  | integer value => (toString value).toList
  | boolean value => boolText value
  | string _ value => value.toList
  | array _ elements => Node.writeItems '[' (writeEach elements) ']'
  | hash _ entries => Node.writeItems '{' (writeEntries entries) '}'
  | function _ parameters body _ =>
    ['f', 'n'] ++ Node.writeItems '(' (parameters.map (·.name.toList)) ')' ++
      [' ', '{', '\n'] ++ body.writeBody ++ ['\n', '}']
  | builtin _ => "builtin function".toList
  | returned _ value => value.write
  | error _ failure => "ERROR: ".toList ++ failure.message.toList

/-- The characters that show several values. -/
def writeEach : List Value → List (List Char)
  | [] => []
  | value :: values => value.write :: writeEach values

/-- The characters that show the entries of a hash. -/
def writeEntries : List (HashKey × Value × Value) → List (List Char)
  | [] => []
  | (_, key, value) :: entries =>
    (key.write ++ [':', ' '] ++ value.write) :: writeEntries entries

end

/-- The text that shows a value. -/
def display (value : Value) : String :=
  String.ofList value.write

mutual

/-- What keeps a value from being shown: the first part of it that has no text. -/
def obstacle? : Value → Option Obstacle
  | nothing => some .noValue
  | array _ elements => firstObstacle? elements
  | hash _ entries => firstEntryObstacle? entries
  | function _ _ body _ => if body.isBlock then none else some (.bodyOfKind body.kind)
  | returned _ value => value.obstacle?
  | null | integer _ | boolean _ | string .. | builtin _ | error .. => none

/-- What keeps one of several values from being shown. -/
def firstObstacle? : List Value → Option Obstacle
  | [] => none
  | value :: values => value.obstacle?.or (firstObstacle? values)

/-- What keeps one of the entries of a hash from being shown. -/
def firstEntryObstacle? : List (HashKey × Value × Value) → Option Obstacle
  | [] => none
  | (_, key, value) :: entries =>
    (key.obstacle?.or value.obstacle?).or (firstEntryObstacle? entries)

end

end Value

end MonkeyLang
