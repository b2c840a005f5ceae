import MonkeyLang.Eval.Basic

/-!
# Builtin functions

`Builtin.run` applies a builtin function to its arguments.  `len` counts the code points of a string
or the elements of an array; `first`, `last`, `rest` and `push` work on arrays and leave their
argument as it was; `puts` prints each of its arguments on a line.
-/

namespace MonkeyLang.Builtin

open EvalM

/-- Does something with the only argument. -/
def withOne (args : List Value) (action : Value → EvalM Value) : EvalM Value :=
  match args with
  | [arg] => action arg
  | args => failWith (.argumentCount args.length 1)

/-- Does something with the elements of an argument that must be an array. -/
def withElements (builtin : Builtin) (arg : Value) (action : List Value → EvalM Value) :
    EvalM Value :=
  match arg with
  | .array _ elements => action elements
  | arg => do failWith (.notArray builtin (← kindOf arg))

/-- The number of elements or characters. -/
def length (arg : Value) : EvalM Value :=
  match arg with
  | .array _ elements => return .integer elements.length
  | .string _ value => return .integer value.length
  | arg => do failWith (.noLength (← kindOf arg))

/-- Prints values, one to a line. -/
def printEach : List Value → EvalM Unit
  | [] => return ()
  | value :: values => do
    print (← textOf value)
    printEach values

/-- Applies a builtin function. -/
def run (builtin : Builtin) (args : List Value) : EvalM Value :=
  match builtin with
  | len => withOne args length
  | first => withOne args fun arg =>
    withElements first arg fun elements => return elements.head?.getD .null
  | last => withOne args fun arg =>
    withElements last arg fun elements => return elements.getLast?.getD .null
  | rest => withOne args fun arg =>
    withElements rest arg fun elements =>
      match elements with
      | [] => return .null
      | _ :: others => newArray others
  | push =>
    match args with
    | [arg, added] => withElements push arg fun elements => newArray (elements ++ [added])
    | args => failWith (.argumentCount args.length 2)
  | puts => do
    printEach args
    return .null

end MonkeyLang.Builtin
