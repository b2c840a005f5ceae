import MonkeyLang.Store
import MonkeyLang.Value.Display

/-!
# Evaluation

`EvalM` is the monad of evaluation: it changes a `Store`, and it may end in a `Fault`.  A fault is
not an error of the language, which is an ordinary outcome (`Value.error`), but the end of the
interpretation; what the store was changed to before is kept.

The steps here are the only ones by which evaluation looks at the store or changes it.
-/

namespace MonkeyLang

/-- Why an interpretation ended without an outcome: calls were nested too deep, a node has no rule
for its evaluation, or something was to be named by its kind, or to be shown, and could not be. -/
inductive Fault
  | depthExceeded
  | unknownNode (kind : String)
  | noKind
  | noDisplay (obstacle : Obstacle)
  deriving DecidableEq

/-- The monad of evaluation. -/
abbrev EvalM := ExceptT Fault (StateM Store)

namespace EvalM

/-- Runs an evaluation on a store. -/
def exec {α : Type} (eval : EvalM α) (store : Store) : Except Fault α × Store :=
  (ExceptT.run eval).run store

/-- A new serial number. -/
def fresh : EvalM ObjectId := modifyGet Store.allocate

/-- A new string. -/
def newString (value : String) : EvalM Value := return .string (← fresh) value

/-- A new array. -/
def newArray (elements : List Value) : EvalM Value := return .array (← fresh) elements

/-- A new hash. -/
def newHash (entries : List (HashKey × Value × Value)) : EvalM Value :=
  return .hash (← fresh) entries

/-- A new value on its way out of a function. -/
def newReturned (value : Value) : EvalM Value := return .returned (← fresh) value

/-- A new failure as the outcome. -/
def failWith (failure : Failure) : EvalM Value := return .error (← fresh) failure

/-- The kind of a value, which must be there. -/
def kindOf (value : Value) : EvalM ValueKind :=
  match value.kind? with
  | some kind => return kind
  | none => throw .noKind

/-- The text that shows a value, in which nothing may be that has no text. -/
def textOf (value : Value) : EvalM String :=
  match value.obstacle? with
  | none => return value.display
  | some obstacle => throw (.noDisplay obstacle)

/-- The value of a name. -/
def lookup (frame : FrameId) (name : String) : EvalM (Option Value) :=
  return (← get).lookup frame name

/-- Binds a name in a frame. -/
def bind (frame : FrameId) (name : String) (value : Value) : EvalM Unit :=
  modify fun store => store.bind frame name value

/-- Makes an empty frame inside a given one. -/
def enclose (frame : FrameId) : EvalM FrameId :=
  modifyGet fun store => store.enclose frame

/-- Prints a line. -/
def print (line : String) : EvalM Unit :=
  modify fun store => store.print line

end EvalM

end MonkeyLang
