import MonkeyLang.Token.Scan

/-!
# Where tokens stand

`spans` lists the tokens of a text with the positions of their first character and of the
character behind them, counted in code points from the start of the text.
-/

namespace MonkeyLang

/-- A token and the half-open interval of positions it was read from. -/
structure Span where
  token : Token
  start : Nat
  stop : Nat
  deriving DecidableEq

/-- The spans of a text whose first character has position `offset`. -/
def spansFrom (offset : Nat) (text : List Char) : List Span :=
  match _h : Token.next? text with
  | none => []
  | some (t, rest) =>
    let start := offset + (text.takeWhile isSpace).length
    let stop := offset + (text.length - rest.length)
    ⟨t, start, stop⟩ :: spansFrom stop rest
termination_by text.length
decreasing_by exact Token.next?_length_lt _h

/-- The spans of a text. -/
def spans (text : List Char) : List Span :=
  spansFrom 0 text

/-- The characters of `text` between two positions. -/
def slice (text : List Char) (start stop : Nat) : List Char :=
  (text.drop start).take (stop - start)

/-- The characters that a span covers. -/
def Span.slice (span : Span) (text : List Char) : List Char :=
  MonkeyLang.slice text span.start span.stop

end MonkeyLang
