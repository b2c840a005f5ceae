import MonkeyLang.Eval.Builtin
import MonkeyLang.Eval.Operator

/-!
# Evaluation of syntax trees

`Node.eval` evaluates a tree in a frame, by recursion on the tree.  What it means to call a value is
a parameter, since the body of a function is no part of the tree that calls it; `callWithin` gives
that meaning for a given depth of calls.  The language sets no bound to the depth, the machine does.

A failure is an outcome like others, and each form passes it on: as soon as a part of it has failed,
nothing more of it is evaluated, and the failure of the part is its own outcome.  A value on its way
out of a function ends the blocks it occurs in and is unwrapped by the call or by the program; other
forms take it for a value like any other.
-/

namespace MonkeyLang

open EvalM

/-- The meaning of calling a value with arguments. -/
abbrev CallRule := Value → List Value → EvalM Value

/-- The value of a name: what it is bound to, or the builtin function of that name. -/
def evalName (frame : FrameId) (name : String) : EvalM Value := do
  match ← lookup frame name with
  | some .nothing | none =>
    match Builtin.ofName? name with
    | some builtin => return .builtin builtin
    | none => failWith (.unknownIdentifier name)
  | some value => return value

namespace Node

mutual

/-- The outcome of a tree in a frame. -/
def eval (call : CallRule) (frame : FrameId) : Node → EvalM Value
  | program statements => evalProgram call frame .nothing statements
  | letStatement _ target value => do
    let value ← value.eval call frame
    if value.isError then return value
    EvalM.bind frame target.name value.orNull
    return .nothing
  | returnStatement _ none => newReturned .null
  | returnStatement _ (some value) => do
    let value ← value.eval call frame
    if value.isError then return value
    newReturned value.orNull
  | expressionStatement _ expression => expression.eval call frame
  | block _ statements => evalBlock call frame .nothing statements
  | identifier ident => evalName frame ident.name
  | integer _ value => return .integer value
  | string _ value => newString value
  | boolean _ value => return .boolean value
  | unary _ operator right => do
    let right ← right.eval call frame
    if right.isError then return right
    Eval.unary operator right.orNull
  | binary _ left operator right => do
    let left ← left.eval call frame
    if left.isError then return left
    let right ← right.eval call frame
    if right.isError then return right
    Eval.binary operator left.orNull right.orNull
  | conditional _ condition consequence none => do
    let condition ← condition.eval call frame
    if condition.isError then return condition
    if condition.orNull.isTruthy then return (← consequence.eval call frame).orNull
    return .null
  | conditional _ condition consequence (some alternative) => do
    let condition ← condition.eval call frame
    if condition.isError then return condition
    if condition.orNull.isTruthy then return (← consequence.eval call frame).orNull
    return (← alternative.eval call frame).orNull
  | function _ parameters body => return .function (← fresh) parameters body frame
  | Node.call _ callee arguments => do
    let callee ← callee.eval call frame
    if callee.isError then return callee
    match ← evalEach call frame arguments with
    | .ok arguments => call callee arguments
    | .error failure => return failure
  | array _ elements => do
    match ← evalEach call frame elements with
    | .ok elements => newArray elements
    | .error failure => return failure
  | index _ target position => do
    let target ← target.eval call frame
    if target.isError then return target
    let position ← position.eval call frame
    if position.isError then return position
    Eval.index target position
  | hash _ pairs => evalPairs call frame [] pairs
  | foreign kind _ => throw (.unknownNode kind)

/-- The outcome of the statements of a program, where `last` is the outcome of the one before. -/
def evalProgram (call : CallRule) (frame : FrameId) (last : Value) : List Node → EvalM Value
  | [] => return last
  | statement :: statements => do
    let outcome ← statement.eval call frame
    if outcome.isSignal then return outcome.unwrap
    evalProgram call frame outcome statements

/-- The outcome of the statements of a block, where `last` is the outcome of the one before. -/
def evalBlock (call : CallRule) (frame : FrameId) (last : Value) : List Node → EvalM Value
  | [] => return last
  | statement :: statements => do
    let outcome ← statement.eval call frame
    if outcome.isSignal then return outcome
    evalBlock call frame outcome statements

/-- The values of several trees, from left to right, or the first failure. -/
def evalEach (call : CallRule) (frame : FrameId) : List Node → EvalM (Except Value (List Value))
  | [] => return .ok []
  | node :: nodes => do
    let value ← node.eval call frame
    if value.isError then return .error value
    return (← evalEach call frame nodes).map (value :: ·)

/-- The hash that a literal describes, where `entries` are those of the pairs before. -/
def evalPairs (call : CallRule) (frame : FrameId) (entries : List (HashKey × Value × Value)) :
    List (Node × Node) → EvalM Value
  | [] => newHash entries
  | (key, value) :: pairs => do
    let key ← key.eval call frame
    if key.isError then return key
    match key.key? with
    | none => failWith (.unusableKey (← kindOf key))
    | some hashKey => do
      let value ← value.eval call frame
      if value.isError then return value
      evalPairs call frame (Assoc.insert hashKey (key, value) entries) pairs

end

end Node

/-! ### Calls -/

/-- Binds parameters to arguments in a frame. -/
def bindParameters (frame : FrameId) : List Identifier → List Value → EvalM Unit
  | parameter :: parameters, arg :: args => do
    EvalM.bind frame parameter.name arg
    bindParameters frame parameters args
  | _, _ => return ()

/-- Calls a value, where `body` tells how the body of a function is evaluated. -/
def callWith (body : FrameId → Node → EvalM Value) : CallRule
  | .function _ parameters node scope, args => do
    if args.length ≠ parameters.length then
      failWith (.parameterCount parameters.length args.length)
    else
      let frame ← enclose scope
      bindParameters frame parameters args
      return (← body frame node).unwrap.orNull
  | .builtin f, args => f.run args
  | callee, _ => do failWith (.notCallable (← kindOf callee))

/-- Calls a value, with at most `depth` calls of functions inside each other. -/
def callWithin : Nat → CallRule
  | 0 => callWith fun _ _ => throw .depthExceeded
  | depth + 1 => callWith (Node.eval (callWithin depth))

/-- A depth of calls that an ordinary stack leaves room for. -/
def maxCallDepth : Nat := 256

/-- Calls a value, with calls nested up to that depth. -/
def call : CallRule := callWithin maxCallDepth

end MonkeyLang
