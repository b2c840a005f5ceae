import MonkeyLang.Assoc
import MonkeyLang.Text.Split
import MonkeyLang.Token.Span
import MonkeyLang.Value.Basic

/-!
# Highlighting

A text is shown as a sequence of fragments, each in one style: one for each token, in the style of
the group that the token belongs to, and one for each run of space between tokens, in no style.

* `highlight` is the fragments of a text, `highlightLine` those of one of several lines;
* `LineView` is a list of lines that are asked for one after the other, with the fragments of those
  that were asked for before.
-/

namespace MonkeyLang.Console

/-- A piece of text and the style it is shown in. -/
structure Fragment where
  style : String
  text : String
  deriving DecidableEq

/-- The groups of tokens that are shown alike. -/
inductive Group
  | keyword | boolean | number | string | identifier | builtin | operator | punctuation | error
  | plain
  deriving DecidableEq

/-- The style of a group. -/
def Group.style : Group → String
  | .keyword => "bold ansicyan"
  | .boolean => "ansicyan"
  | .number => "ansimagenta"
  | .string => "ansigreen"
  | .builtin => "bold ansiyellow"
  | .error => "bold ansired"
  | .identifier | .operator | .punctuation | .plain => ""

/-- The group of a token; the names of builtin functions have one of their own. -/
def Group.ofToken (token : Token) : Group :=
  match token.kind with
  | .let | .function | .if | .else | .return => .keyword
  | .true | .false => .boolean
  | .int => .number
  | .string => .string
  | .ident => if (Builtin.ofName? token.literal).isSome then .builtin else .identifier
  | .assign | .plus | .minus | .bang | .asterisk | .slash | .lt | .gt | .eq | .notEq => .operator
  | .comma | .semicolon | .colon | .lparen | .rparen | .lbrace | .rbrace | .lbracket
  | .rbracket => .punctuation
  | .illegal => .error
  | .eof => .plain

/-- A fragment in no style for the characters between two positions, if there are any. -/
def gap (text : List Char) (start stop : Nat) : List Fragment :=
  if start < stop then [⟨"", String.ofList (slice text start stop)⟩] else []

/-- The fragments of a text from a position on, where `spans` are the tokens from there on. -/
def fragmentsFrom (text : List Char) (position : Nat) : List Span → List Fragment
  | [] => gap text position text.length
  | span :: spans =>
    gap text position span.start ++
      ⟨(Group.ofToken span.token).style, String.ofList (span.slice text)⟩ ::
        fragmentsFrom text span.stop spans

/-- The fragments of a text; the empty text has one that is empty. -/
def highlight (text : List Char) : List Fragment :=
  if text.isEmpty then [⟨"", ""⟩] else fragmentsFrom text 0 (spans text)

/-- The lines of a text, without the newlines that end them. -/
def lines (text : List Char) : List (List Char) :=
  Text.splitOn '\n' text

/-- The line with a given number, counted from zero; one that there is not is empty. -/
def lineAt (lines : List (List Char)) (number : Int) : List Char :=
  if number < 0 then [] else lines[number.toNat]?.getD []

/-- The fragments of the line with a given number, counted from zero; one that there is not is shown
as an empty line. -/
def highlightLine (lines : List (List Char)) (number : Int) : List Fragment :=
  highlight (lineAt lines number)

/-- Lines, and the fragments of those that have been shown, under their numbers. -/
structure LineView where
  lines : List (List Char)
  shown : List (Int × List Fragment)
  deriving DecidableEq

namespace LineView

/-- Lines of which none has been shown. -/
def ofLines (lines : List (List Char)) : LineView :=
  ⟨lines, []⟩

/-- Shows a line; its fragments are kept, and are not made again when it is shown again. -/
def request (view : LineView) (number : Int) : List Fragment × LineView :=
  match Assoc.find? number view.shown with
  | some fragments => (fragments, view)
  | none =>
    let fragments := highlightLine view.lines number
    (fragments, { view with shown := Assoc.insert number fragments view.shown })

/-- Shows lines one after the other. -/
def requests (view : LineView) : List Int → List (List Fragment) × LineView
  | [] => ([], view)
  | number :: numbers =>
    let (fragments, view) := view.request number
    let (others, view) := requests view numbers
    (fragments :: others, view)

end LineView

end MonkeyLang.Console
