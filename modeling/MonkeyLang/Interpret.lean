import MonkeyLang.Eval.Node
import MonkeyLang.Grammar.Program

/-!
# Interpreting texts

`interpret` reads a text as a program and evaluates it in a frame of a store, with calls nested up
to a given depth.  Nothing is evaluated if the text is refused or leaves a diagnostic.  The store
that comes back keeps the bindings, so that texts may be interpreted one after another.
-/

namespace MonkeyLang

/-- What became of a text. -/
inductive Outcome
  | refused (refusal : Refusal)
  | malformed (diagnostics : List Diagnostic)
  | faulted (fault : Fault)
  | value (value : Value)

/-- Reads a text and evaluates it in a frame. -/
def interpret (depth : Nat) (frame : FrameId) (source : String) (store : Store) :
    Outcome × Store :=
  match readProgram source with
  | .error (.refused refusal) => (.refused refusal, store)
  | .error (.malformed diagnostics) => (.malformed diagnostics, store)
  | .ok program =>
    match (program.eval (callWithin depth) frame).exec store with
    | (.ok value, store) => (.value value, store)
    | (.error fault, store) => (.faulted fault, store)

/-- The wording of a fault. -/
def Fault.message : Fault → String
  | depthExceeded => "maximum recursion depth exceeded"
  | unknownNode kind => "Unknown node: " ++ kind
  | noKind => "no value to take the kind of"
  | noDisplay .noValue => "no value to show"
  | noDisplay (.bodyOfKind kind) => "no text for a function with this body: " ++ kind

end MonkeyLang
