import MonkeyLang.Text.Blank

/-!
# Decimal numerals

A numeral is a run of decimal digits, of any script, in which single underscores may stand between
two digits; a sign may precede it, and blanks may surround it, the four separators of data
excepted.  A numeral of more than `maxDigits` digits is not converted.

* `digit?` is the value of a digit, `digitsValue` that of a run of digits;
* `readInteger` converts a text to the integer it stands for, or tells why not.
-/

namespace MonkeyLang.Text

/-- The digits zero of the scripts of Unicode; the other digits of a script follow its zero. -/
def zeroDigits : List Nat :=
  [0x30, 0x660, 0x6f0, 0x7c0, 0x966, 0x9e6, 0xa66, 0xae6, 0xb66, 0xbe6, 0xc66, 0xce6, 0xd66, 0xde6,
   0xe50, 0xed0, 0xf20, 0x1040, 0x1090, 0x17e0, 0x1810, 0x1946, 0x19d0, 0x1a80, 0x1a90, 0x1b50,
   0x1bb0, 0x1c40, 0x1c50, 0xa620, 0xa8d0, 0xa900, 0xa9d0, 0xa9f0, 0xaa50, 0xabf0, 0xff10, 0x104a0,
   0x10d30, 0x11066, 0x110f0, 0x11136, 0x111d0, 0x112f0, 0x11450, 0x114d0, 0x11650, 0x116c0,
   0x11730, 0x118e0, 0x11950, 0x11c50, 0x11d50, 0x11da0, 0x16a60, 0x16ac0, 0x16b50, 0x1d7ce,
   0x1d7d8, 0x1d7e2, 0x1d7ec, 0x1d7f6, 0x1e140, 0x1e2f0, 0x1e950, 0x1fbf0]

/-- The value of a decimal digit of any script. -/
def digit? (c : Char) : Option Nat :=
  (zeroDigits.find? fun first => first ≤ c.toNat && c.toNat < first + 10).map (c.toNat - ·)

/-- The number that digits stand for, the most significant digit first. -/
def digitsValue (digits : List Nat) : Nat :=
  digits.foldl (fun value digit => 10 * value + digit) 0

/-- The most digits that a numeral may have. -/
def maxDigits : Nat := 4300

/-- Why a text was not converted to an integer. -/
inductive NumeralError
  | tooManyDigits (count : Nat)
  | malformed
  deriving DecidableEq

/-- Tells whether underscores stand only between digits, one at a time. -/
def wellGrouped : List Char → Bool
  | [] => false
  | [c] => c != '_'
  | c :: d :: rest => c != '_' && (d != '_' && wellGrouped (d :: rest) ||
      d == '_' && wellGrouped rest)

/-- Converts a numeral without sign that ends the text. -/
def readNatural (text : List Char) : Except NumeralError Nat :=
  let body := text.takeWhile fun c => c == '_' || (digit? c).isSome
  let digits := body.filterMap digit?
  if !wellGrouped body then .error .malformed
  else if maxDigits < digits.length then .error (.tooManyDigits digits.length)
  else if body.length < text.length then .error .malformed
  else .ok (digitsValue digits)

/-- Tells whether a character may stand around a numeral: a blank that separates no data. -/
def isPadding (c : Char) : Bool :=
  isBlank c && !(0x1c ≤ c.toNat && c.toNat ≤ 0x1f)

/-- Converts a text to the integer that it stands for. -/
def readInteger (text : List Char) : Except NumeralError Int :=
  match trimWhere isPadding text with
  | '-' :: body => (readNatural body).map fun value => -(value : Int)
  | '+' :: body => (readNatural body).map Int.ofNat
  | body => (readNatural body).map Int.ofNat

end MonkeyLang.Text
