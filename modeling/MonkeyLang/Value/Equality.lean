import MonkeyLang.Assoc
import MonkeyLang.Value.Basic

/-!
# Equality of contents

`Value.isEqual` compares two values by their contents, whichever objects they are: arrays element
by element, hashes as maps, without regard to the order of their entries, and with the key objects
compared as well as the values.  A function is equal only to itself.
-/

namespace MonkeyLang.Value

mutual

/-- Tells whether two values have equal contents. -/
def isEqual : Value → Value → Bool
  | nothing, nothing | null, null => true
  | integer a, integer b => a == b
  | boolean a, boolean b => a == b
  | string _ a, string _ b => a == b
  | array _ as, array _ bs => areEqual as bs
  | hash _ as, hash _ bs => as.length == bs.length && entriesEqual as bs
  | function i .., function j .. => i == j
  | builtin f, builtin g => f == g
  | returned _ a, returned _ b => a.isEqual b
  | error _ e, error _ f => e.message == f.message
  | _, _ => false

/-- Tells whether two lists of values have equal contents. -/
def areEqual : List Value → List Value → Bool
  | [], [] => true
  | a :: as, b :: bs => a.isEqual b && areEqual as bs
  | _, _ => false

/-- Tells whether every entry of a first hash is found in a second one. -/
def entriesEqual : List (HashKey × Value × Value) → List (HashKey × Value × Value) → Bool
  | [], _ => true
  | (hashKey, key, value) :: entries, other =>
    (match Assoc.find? hashKey other with
      | some (key', value') => key.isEqual key' && value.isEqual value'
      | none => false) && entriesEqual entries other

end

end MonkeyLang.Value
