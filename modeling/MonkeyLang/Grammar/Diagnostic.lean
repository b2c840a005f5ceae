import MonkeyLang.Text.Numeral
import MonkeyLang.Text.Quoted
import MonkeyLang.Token.Basic

/-!
# Diagnostics

What can be wrong with a text, as causes; `Diagnostic.message` has the wording.

An integer literal too large for 64 bits is a diagnostic like the others.  A literal that cannot be
converted at all, because it has too many digits, is a `Refusal`: a text with one in it is refused
as a whole, whatever else was found.
-/

namespace MonkeyLang

/-- A literal that cannot be converted to an integer, and the reason. -/
structure Refusal where
  literal : String
  cause : Text.NumeralError
  deriving DecidableEq

/-- Something wrong with a text. -/
inductive Diagnostic
  | expected (want got : TokenKind)
  | noOperand (kind : TokenKind)
  | tooLarge (literal : String)
  | refused (refusal : Refusal)
  deriving DecidableEq

/-- The wording of a refusal. -/
def Refusal.message (refusal : Refusal) : String :=
  match refusal.cause with
  | .tooManyDigits count =>
    "Exceeds the limit (" ++ toString Text.maxDigits ++
      " digits) for integer string conversion: value has " ++ toString count ++ " digits"
  | .malformed => "not an integer: " ++ Text.quoted refusal.literal

/-- The wording of a diagnostic. -/
def Diagnostic.message : Diagnostic → String
  | expected want got =>
    "expected next token to be " ++ want.display ++ ", got " ++ got.display ++ " instead"
  | noOperand kind => "no prefix parse function for " ++ kind.display ++ " found"
  | tooLarge literal => "could not parse " ++ literal ++ " as integer"
  | refused refusal => refusal.message

/-- The refusal that a diagnostic is, if it is one. -/
def Diagnostic.refusal? : Diagnostic → Option Refusal
  | refused refusal => some refusal
  | _ => none

end MonkeyLang
