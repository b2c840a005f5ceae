import MonkeyLang.Text.Printable

/-!
# Text in quotes

`quoted` shows a text on one line in printable characters, in quotes.

* The quotes are single ones, unless the text has a single quote in it and no double quote.
* The backslash and the quote in use are written behind a backslash; newline, carriage return and
  tab are written `\n`, `\r` and `\t`.
* Any other character that is not printable is written by its code point in hexadecimal, with two,
  four or eight digits behind `\x`, `\u` or `\U`.
-/

namespace MonkeyLang.Text

/-- The hexadecimal digit of a value below 16. -/
def hexDigit (value : Nat) : Char :=
  ['0', '1', '2', '3', '4', '5', '6', '7', '8', '9', 'a', 'b', 'c', 'd', 'e', 'f'].getD value '0'

/-- The last `width` hexadecimal digits of a number. -/
def hexDigits (width value : Nat) : List Char :=
  match width with
  | 0 => []
  | width + 1 => hexDigits width (value / 16) ++ [hexDigit (value % 16)]

/-- A character by its code point, in the shortest of the three widths. -/
def codePointEscape (c : Char) : List Char :=
  if c.toNat < 0x100 then ['\\', 'x'] ++ hexDigits 2 c.toNat
  else if c.toNat < 0x10000 then ['\\', 'u'] ++ hexDigits 4 c.toNat
  else ['\\', 'U'] ++ hexDigits 8 c.toNat

/-- How a character is shown between quotes of a given form. -/
def quotedChar (mark c : Char) : List Char :=
  if c = mark ∨ c = '\\' then ['\\', c]
  else if c = '\n' then ['\\', 'n']
  else if c = '\r' then ['\\', 'r']
  else if c = '\t' then ['\\', 't']
  else if isPrintable c then [c]
  else codePointEscape c

/-- The form of quote that a text is shown in. -/
def quoteMark (text : List Char) : Char :=
  if text.contains '\'' && !text.contains '"' then '"' else '\''

/-- A text in quotes, in printable characters. -/
def quoted (text : String) : String :=
  let mark := quoteMark text.toList
  String.ofList (mark :: (text.toList.flatMap (quotedChar mark) ++ [mark]))

end MonkeyLang.Text
