import MonkeyLang.Eval.Basic
import MonkeyLang.Signed64

/-!
# Operators

What operators and indexing make of values.

* `!` gives the opposite of the truth of any value; `-` negates integers.
* Between two integers there are four operations of arithmetic, modulo `2 ^ 64`, and four
  comparisons.
* `==` and `!=` between any other two values ask whether they are the same object.
* `+` joins strings.
* An array is indexed by position, and a hash by key; what is not there is null.
-/

namespace MonkeyLang.Eval

open EvalM

/-- An operator in front of a value. -/
def unary (operator : String) (right : Value) : EvalM Value := do
  if operator = "!" then return .boolean !right.isTruthy
  else if operator = "-" then
    match right with
    | .integer value => return .integer (Signed64.wrap (-value))
    | right => failWith (.unknownPrefix "-" (← kindOf right))
  else failWith (.unknownPrefix operator (← kindOf right))

/-- An operator between two integers. -/
def integerBinary (operator : String) (a b : Int) : EvalM Value := do
  if operator = "+" then return .integer (Signed64.wrap (a + b))
  else if operator = "-" then return .integer (Signed64.wrap (a - b))
  else if operator = "*" then return .integer (Signed64.wrap (a * b))
  else if operator = "/" then
    match Signed64.quotient? a b with
    | some q => return .integer (Signed64.wrap q)
    | none => failWith .divisionByZero
  else if operator = "<" then return .boolean (a < b)
  else if operator = ">" then return .boolean (a > b)
  else if operator = "==" then return .boolean (a = b)
  else if operator = "!=" then return .boolean (a ≠ b)
  else failWith (.unknownInfix .integer operator .integer)

/-- An operator between two values that are not both integers. -/
def generalBinary (operator : String) (left right : Value) : EvalM Value := do
  if operator = "==" then return .boolean (left.isSame right)
  else if operator = "!=" then return .boolean !left.isSame right
  else
    let leftKind ← kindOf left
    let rightKind ← kindOf right
    if leftKind ≠ rightKind then failWith (.typeMismatch leftKind operator rightKind)
    else
      match left, right with
      | .string _ a, .string _ b =>
        if operator = "+" then newString (a ++ b)
        else failWith (.unknownInfix leftKind operator rightKind)
      | _, _ => failWith (.unknownInfix leftKind operator rightKind)

/-- An operator between two values. -/
def binary (operator : String) (left right : Value) : EvalM Value :=
  match left, right with
  | .integer a, .integer b => integerBinary operator a b
  | left, right => generalBinary operator left right

/-- The element at a position of a list; null outside of it. -/
def elementAt (elements : List Value) (position : Int) : Value :=
  if position < 0 then .null else elements[position.toNat]?.getD .null

/-- The value under a key; null if there is none. -/
def valueAt (entries : List (HashKey × Value × Value)) (key : HashKey) : Value :=
  match Assoc.find? key entries with
  | some (_, value) => value
  | none => .null

/-- A value indexed by another. -/
def index (target position : Value) : EvalM Value :=
  match target, position with
  | .array _ elements, .integer position => return elementAt elements position
  | .hash _ entries, position =>
    match position.key? with
    | some key => return valueAt entries key
    | none => do failWith (.unusableKey (← kindOf position))
  | target, _ => do failWith (.notIndexable (← kindOf target))

end MonkeyLang.Eval
