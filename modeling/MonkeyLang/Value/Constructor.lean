import MonkeyLang.Text.Quoted
import MonkeyLang.Value.Basic

/-!
# Values in constructor notation

`Value.construction` shows the structure of a value: the name of its kind of object with the named
parts in parentheses, texts in quotes.  Functions are shown by their parameters only, in angle
brackets, and so are builtins.
-/

namespace MonkeyLang

/-- A truth value as a word with a capital. -/
def boolWord (b : Bool) : String :=
  if b then "True" else "False"

/-- The contents of a key in constructor notation. -/
def HashKey.construction (key : HashKey) : String :=
  let value := match key with
    | .integer value => toString value
    | .boolean value => boolWord value
    | .string value => Text.quoted value
  "HashKey(type_name=" ++ Text.quoted key.kind.name ++ ", value=" ++ value ++ ")"

/-- The contents of a key as a text. -/
def HashKey.text : HashKey → String
  | .integer value => toString value
  | .boolean value => boolWord value
  | .string value => value

namespace Value

/-- The names of parameters, or a word for there being none. -/
def parameterText (parameters : List Identifier) : String :=
  let names := ", ".intercalate (parameters.map (·.name))
  if names.isEmpty then "nullary" else names

mutual

/-- A value in constructor notation. -/
def construction : Value → String
  | nothing => "None"
  | null => "MkNull()"
  | integer value => "MkInteger(value=" ++ toString value ++ ")"
  | boolean value => "MkBoolean(value=" ++ boolWord value ++ ")"
  | string _ value => "MkString(value=" ++ Text.quoted value ++ ")"
  | array _ elements =>
    "MkArray(elements=[" ++ ", ".intercalate (constructions elements) ++ "])"
  | hash _ entries =>
    "MkHash(pairs=\x7b" ++ ", ".intercalate (entryConstructions entries) ++ "\x7d)"
  | function _ parameters _ _ => "<fn params=" ++ parameterText parameters ++ ">"
  | builtin f => "<builtin " ++ f.name ++ ">"
  | returned _ value => "ReturnSignal(value=" ++ value.construction ++ ")"
  | error _ failure => "MkError(message=" ++ Text.quoted failure.message ++ ")"

/-- Several values in constructor notation. -/
def constructions : List Value → List String
  | [] => []
  | value :: values => value.construction :: constructions values

/-- The entries of a hash in constructor notation. -/
def entryConstructions : List (HashKey × Value × Value) → List String
  | [] => []
  | (hashKey, key, value) :: entries =>
    (hashKey.construction ++ ": HashPair(key=" ++ key.construction ++ ", value=" ++
      value.construction ++ ")") :: entryConstructions entries

end

end Value

end MonkeyLang
