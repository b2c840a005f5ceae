import MonkeyLang.Syntax.Node

/-!
# Values

What expressions evaluate to.  A value that was made at some point of the evaluation carries the
`ObjectId` it was given then; two of them are the same object if they have the same id.  Arrays and
hashes are never changed, so that a value may be kept as the tree of its parts.

* `Value.kind` is the kind of a value, by the names of `ValueKind.name`;
* `HashKey` is what makes two keys of a hash the same: kind and contents;
* `Value.isSame` is identity: of contents for truth values, null and builtins, of ids for the rest.

Three constructors stand for what is not an ordinary value: `nothing` is the absence of one (the
outcome of a `let`, or of an empty block), `returned` a value on its way out of a function, and
`error` a failure, which ends the evaluation around it.
-/

namespace MonkeyLang

/-- The serial number of an object. -/
abbrev ObjectId := Nat

/-- The number of a frame of bindings. -/
abbrev FrameId := Nat

/-- The functions that are part of the language. -/
inductive Builtin
  | len | first | last | rest | push | puts
  deriving DecidableEq

namespace Builtin

/-- Every builtin function, by name in alphabetical order. -/
def all : List Builtin :=
  [.first, .last, .len, .push, .puts, .rest]

/-- The name of a builtin function. -/
def name : Builtin → String
  | .len => "len"
  | .first => "first"
  | .last => "last"
  | .rest => "rest"
  | .push => "push"
  | .puts => "puts"

/-- The builtin function that has a given name. -/
def ofName? (text : String) : Option Builtin :=
  all.find? fun builtin => builtin.name == text

end Builtin

/-- The kinds of value. -/
inductive ValueKind
  | integer | boolean | string | null | array | hash | function | builtin | returned | error
  deriving DecidableEq

/-- The word for a kind of value. -/
def ValueKind.name : ValueKind → String
  | .integer => "INTEGER"
  | .boolean => "BOOLEAN"
  | .string => "STRING"
  | .null => "NULL"
  | .array => "ARRAY"
  | .hash => "HASH"
  | .function => "FUNCTION"
  | .builtin => "BUILTIN"
  | .returned => "RETURN_VALUE"
  | .error => "ERROR"

/-- What can go wrong in the evaluation of a program. -/
inductive Failure
  | unknownIdentifier (name : String)
  | unknownPrefix (operator : String) (right : ValueKind)
  | unknownInfix (left : ValueKind) (operator : String) (right : ValueKind)
  | typeMismatch (left : ValueKind) (operator : String) (right : ValueKind)
  | divisionByZero
  | notIndexable (target : ValueKind)
  | unusableKey (key : ValueKind)
  | notCallable (callee : ValueKind)
  | parameterCount (want got : Nat)
  | argumentCount (got want : Nat)
  | noLength (argument : ValueKind)
  | notArray (builtin : Builtin) (argument : ValueKind)
  | other (message : String)
  deriving DecidableEq

/-- The wording of a failure. -/
def Failure.message : Failure → String
  | unknownIdentifier name => "identifier not found: " ++ name
  | unknownPrefix operator right => "unknown operator: " ++ operator ++ right.name
  | unknownInfix left operator right =>
    "unknown operator: " ++ left.name ++ " " ++ operator ++ " " ++ right.name
  | typeMismatch left operator right =>
    "type mismatch: " ++ left.name ++ " " ++ operator ++ " " ++ right.name
  | divisionByZero => "division by zero"
  | notIndexable target => "index operator not supported: " ++ target.name
  | unusableKey key => "unusable as hash key: " ++ key.name
  | notCallable callee => "not a function: " ++ callee.name
  | parameterCount want got =>
    "wrong number of arguments: want=" ++ toString want ++ ", got=" ++ toString got
  | argumentCount got want =>
    "wrong number of arguments. got=" ++ toString got ++ ", want=" ++ toString want
  | noLength argument => "argument to \"len\" not supported, got " ++ argument.name
  | notArray builtin argument =>
    "argument to \"" ++ builtin.name ++ "\" must be ARRAY, got " ++ argument.name
  | other message => message

/-- What makes two keys of a hash the same. -/
inductive HashKey
  | integer (value : Int)
  | boolean (value : Bool)
  | string (value : String)
  deriving DecidableEq

/-- The kind of a key. -/
def HashKey.kind : HashKey → ValueKind
  | .integer _ => .integer
  | .boolean _ => .boolean
  | .string _ => .string

/-- A value, or what stands in the place of one. -/
inductive Value
  | nothing
  | null
  | integer (value : Int)
  | boolean (value : Bool)
  | string (id : ObjectId) (value : String)
  | array (id : ObjectId) (elements : List Value)
  | hash (id : ObjectId) (entries : List (HashKey × Value × Value))
  | function (id : ObjectId) (parameters : List Identifier) (body : Node) (scope : FrameId)
  | builtin (function : Builtin)
  | returned (id : ObjectId) (value : Value)
  | error (id : ObjectId) (failure : Failure)

namespace Value

/-- The kind of a value; the absence of a value has none. -/
def kind? : Value → Option ValueKind
  | nothing => none
  | null => some .null
  | integer _ => some .integer
  | boolean _ => some .boolean
  | string .. => some .string
  | array .. => some .array
  | hash .. => some .hash
  | function .. => some .function
  | builtin _ => some .builtin
  | returned .. => some .returned
  | error .. => some .error

/-- The key that a value is, if it is of one of the three kinds that may be keys. -/
def key? : Value → Option HashKey
  | integer value => some (.integer value)
  | boolean value => some (.boolean value)
  | string _ value => some (.string value)
  | _ => none

/-- Only null and false count as false. -/
def isTruthy : Value → Bool
  | null | boolean false => false
  | _ => true

/-- Tells whether a value is a failure. -/
def isError : Value → Bool
  | error .. => true
  | _ => false

/-- Tells whether a value ends the block it occurs in. -/
def isSignal : Value → Bool
  | returned .. | error .. => true
  | _ => false

/-- The value that a value on its way out of a function carries. -/
def unwrap : Value → Value
  | returned _ value => value
  | value => value

/-- Null in the place of no value. -/
def orNull : Value → Value
  | nothing => null
  | value => value

/-- The object that a value is, for the values that are made by evaluation. -/
def id? : Value → Option ObjectId
  | string id _ | array id _ | hash id _ | function id .. | returned id _ | error id _ => some id
  | nothing | null | integer _ | boolean _ | builtin _ => none

/-- Tells whether two values are the same object. -/
def isSame : Value → Value → Bool
  | nothing, nothing | null, null => true
  | integer a, integer b => a == b
  | boolean a, boolean b => a == b
  | builtin f, builtin g => f == g
  | a, b =>
    match a.id?, b.id? with
    | some i, some j => i == j
    | _, _ => false

end Value

end MonkeyLang
