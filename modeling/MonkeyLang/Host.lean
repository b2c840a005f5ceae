import MonkeyLang.Interpret
import MonkeyLang.Syntax.Outline

/-!
# Hosts

Not everything about a run is settled by the text that is interpreted.  Reading, evaluating, laying
out and showing what is nested all need room on the stack of the machine, and how an outline is laid
out and what a cleared screen looks like is left to libraries.  A `Host` holds these things as data,
so that what is proved about runs is proved for every host.

Where room runs out, the fault is `Fault.depthExceeded`.  A `Breakdown` is the end of a run at which
nothing is reported to the user: a text is refused, or there is a fault that nobody catches.

`Host.ofNesting` is the host that has room up to a given depth of nesting and lays outlines out by
`Outline.pretty`; `Host.usual` is one of them.
-/

namespace MonkeyLang

/-- What a run depends on besides its input. -/
structure Host where
  /-- How many calls of functions may be nested. -/
  callDepth : Nat
  /-- Tells whether there is room to read a text. -/
  canRead : String → Bool
  /-- The layout of an outline, if there is room for it. -/
  layout : Outline → Option String
  /-- Tells whether there is room to show a value. -/
  canShow : Value → Bool
  /-- What is shown when the screen is cleared. -/
  clearing : String

/-- Why a run breaks off. -/
inductive Breakdown
  | refused (refusal : Refusal)
  | faulted (fault : Fault)
  deriving DecidableEq

namespace Host

variable (host : Host)

/-- Reads a text and evaluates it in a frame.  Without room to read it there is a fault. -/
def interpret (frame : FrameId) (source : String) (store : Store) : Outcome × Store :=
  if host.canRead source then MonkeyLang.interpret host.callDepth frame source store
  else (.faulted .depthExceeded, store)

/-- Reads a text as a program, or finds the diagnostics in it. -/
def readProgram (source : String) : Except Breakdown (Except (List Diagnostic) Node) :=
  if host.canRead source then
    match MonkeyLang.readProgram source with
    | .ok program => .ok (.ok program)
    | .error (.malformed diagnostics) => .ok (.error diagnostics)
    | .error (.refused refusal) => .error (.refused refusal)
  else .error (.faulted .depthExceeded)

/-- The layout of the outline of a tree. -/
def pretty (node : Node) : Except Breakdown String :=
  match node.outline? with
  | none => .ok ""
  | some outline =>
    match host.layout outline with
    | some text => .ok text
    | none => .error (.faulted .depthExceeded)

/-- The line that shows the value of a program, if it has one. -/
def line (value : Value) : Except Breakdown String :=
  match value with
  | .nothing => .ok ""
  | value =>
    match value.obstacle? with
    | some obstacle => .error (.faulted (.noDisplay obstacle))
    | none =>
      if host.canShow value then .ok (value.display ++ "\n")
      else .error (.faulted .depthExceeded)

end Host

/-! ### Hosts with a bound -/

mutual

/-- How many branches of an outline are nested. -/
def Outline.nesting : Outline → Nat
  | leaf .. => 0
  | branch _ children => nestingEach children + 1

/-- How many branches are nested in outlines. -/
def Outline.nestingEach : List Outline → Nat
  | [] => 0
  | outline :: outlines => max outline.nesting (nestingEach outlines)

end

mutual

/-- How many values and trees are nested in a value. -/
def Value.nesting : Value → Nat
  | array _ elements => nestingEach elements + 1
  | hash _ entries => nestingEntries entries + 1
  | function _ _ body _ => (body.outline?.map Outline.nesting).getD 0 + 1
  | returned _ value => value.nesting + 1
  | nothing | null | integer _ | boolean _ | string .. | builtin _ | error .. => 0

/-- How many values are nested in several. -/
def Value.nestingEach : List Value → Nat
  | [] => 0
  | value :: values => max value.nesting (nestingEach values)

/-- How many values are nested in the entries of a hash. -/
def Value.nestingEntries : List (HashKey × Value × Value) → Nat
  | [] => 0
  | (_, key, value) :: entries => max (max key.nesting value.nesting) (nestingEntries entries)

end

/-- The host on which outlines and values are shown up to a depth of nesting. -/
def Host.ofNesting (depth : Nat) : Host where
  callDepth := maxCallDepth
  canRead _ := true
  layout outline := if outline.nesting ≤ depth then some outline.pretty else none
  canShow value := value.nesting ≤ depth
  clearing := "<cleared>\n"

/-- A host with the room of an ordinary stack. -/
def Host.usual : Host := .ofNesting 1000

end MonkeyLang
