import MonkeyLang.Token.Scan

/-!
# Reading by hand

A `Cursor` is a place in a text: its position and what is left from there on.  Its operations read
the pieces from which tokens are made one at a time.  A cursor may be moved on from the end of the
text; the position keeps growing and there is nothing left to read.
-/

namespace MonkeyLang

/-- A place in a text: the number of characters passed, and the text from there on. -/
structure Cursor where
  pos : Nat
  rest : List Char

namespace Cursor

/-! ### The text at a place

What is read at a place is a text of one character, or the empty text.  The classes of character are
intervals, and tell of any text whether it lies in them by the order of texts. -/

/-- Tells whether a text is in the class of letters. -/
def isLetterText (text : String) : Bool :=
  (!decide (text < "a") && !decide ("z" < text)) ||
    (!decide (text < "A") && !decide ("Z" < text)) || text = "_"

/-- Tells whether a text is in the class of digits. -/
def isDigitText (text : String) : Bool :=
  !decide (text < "0") && !decide ("9" < text)

/-! ### Reading -/

/-- The start of a text. -/
def start (text : List Char) : Cursor := ⟨0, text⟩

/-- The character at the cursor; nothing at the end of the text. -/
def current (c : Cursor) : List Char := c.rest.take 1

/-- The character behind the current one; nothing if there is none. -/
def next (c : Cursor) : List Char := c.rest.tail.take 1

/-- The position behind the current one. -/
def nextPos (c : Cursor) : Nat := c.pos + 1

/-- Moves on by one position. -/
def advance (c : Cursor) : Cursor := ⟨c.pos + 1, c.rest.tail⟩

/-- Moves to the place where `rest`, a final piece of the text that is left, begins. -/
def moveTo (c : Cursor) (rest : List Char) : Cursor :=
  ⟨c.pos + (c.rest.length - rest.length), rest⟩

/-- Moves behind the characters of a class, and returns them. -/
def takeWhile (c : Cursor) (p : Char → Bool) : String × Cursor :=
  (String.ofList (c.rest.takeWhile p), c.moveTo (c.rest.dropWhile p))

/-- Moves behind space. -/
def skipSpace (c : Cursor) : Cursor := c.moveTo (c.rest.dropWhile isSpace)

/-- Reads a word, perhaps the empty one. -/
def word (c : Cursor) : String × Cursor := c.takeWhile isLetter

/-- Reads a numeral, perhaps the empty one. -/
def numeral (c : Cursor) : String × Cursor := c.takeWhile isDigit

/-- Reads a string literal, taking the current character for its opening quote. -/
def string (c : Cursor) : String × Cursor :=
  let opened := c.advance
  let body := Text.unquote opened.rest
  (String.ofList body.1, opened.moveTo body.2)

/-- Reads a token of two characters if `second` comes next, and one of the current character
otherwise. -/
def pair (c : Cursor) (second : List Char) (matched fallback : TokenKind) : Token × Cursor :=
  if c.next = second then
    (⟨matched, String.ofList (c.current ++ second)⟩, c.advance.advance)
  else (⟨fallback, String.ofList c.current⟩, c.advance)

/-- Skips space and reads a token; at the end of the text that is `Token.eof`. -/
def token (c : Cursor) : Token × Cursor :=
  match Token.next? c.rest with
  | none => (Token.eof, c.skipSpace)
  | some (t, rest) => (t, c.moveTo rest)

/-- Reads all tokens that are left, up to and including the end. -/
def allTokens (c : Cursor) : List Token × Cursor :=
  (tokens c.rest, c.moveTo [])

end Cursor

end MonkeyLang
