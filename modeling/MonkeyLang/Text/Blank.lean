/-!
# Blanks

A blank is a character that Unicode counts as white space or as a separator of lines, paragraphs
or data: the 29 characters of `blanks`.

* `trim` takes blanks away from both ends of a text;
* `splitWord` splits a text at its first run of blanks.
-/

namespace MonkeyLang.Text

/-- The code points of the blanks. -/
def blanks : List Nat :=
  [0x09, 0x0a, 0x0b, 0x0c, 0x0d, 0x1c, 0x1d, 0x1e, 0x1f, 0x20, 0x85, 0xa0, 0x1680,
   0x2000, 0x2001, 0x2002, 0x2003, 0x2004, 0x2005, 0x2006, 0x2007, 0x2008, 0x2009, 0x200a,
   0x2028, 0x2029, 0x202f, 0x205f, 0x3000]

/-- Tells whether a character is a blank. -/
def isBlank (c : Char) : Bool :=
  blanks.contains c.toNat

/-- The text without the characters of a class at its ends. -/
def trimWhere (p : Char → Bool) (text : List Char) : List Char :=
  ((text.dropWhile p).reverse.dropWhile p).reverse

/-- The text without the blanks at its ends. -/
def trim (text : List Char) : List Char :=
  trimWhere isBlank text

/-- The text up to the first blank, and what is left behind the blanks that follow. -/
def splitWord (text : List Char) : List Char × List Char :=
  (text.takeWhile (!isBlank ·), (text.dropWhile (!isBlank ·)).dropWhile isBlank)

/-- The text with ASCII letters in lower case. -/
def lower (text : List Char) : List Char :=
  text.map Char.toLower

end MonkeyLang.Text
