import MonkeyLang.Text.Escape
import MonkeyLang.Token.Basic

/-!
# Reading tokens

A text is read from left to right, one token at a time, with one character of lookahead.  Nothing
is refused: a character that starts no token is a token of kind `illegal`.

* `Token.ofLead` reads the token that a given character starts;
* `Token.next?` skips space and reads a token, and is `none` at the end of the text;
* `scan` is the list of all tokens of a text, `tokens` the same list with the end marked.

`Token.next?_length_lt` says that each step leaves a shorter text, so `scan` ends.
-/

namespace MonkeyLang

/-! ### Classes of character -/

/-- The characters of words: ASCII letters and the underscore. -/
def isLetter (c : Char) : Bool :=
  ('a' ≤ c && c ≤ 'z') || ('A' ≤ c && c ≤ 'Z') || c = '_'

/-- The characters of numerals: ASCII digits. -/
def isDigit (c : Char) : Bool :=
  '0' ≤ c && c ≤ '9'

/-- The characters that separate tokens and are otherwise ignored. -/
def isSpace (c : Char) : Bool :=
  c = ' ' || c = '\t' || c = '\n' || c = '\r'

/-- The kind of a token made of this one character. -/
def TokenKind.ofChar : Char → TokenKind
  | '+' => .plus
  | '-' => .minus
  | '*' => .asterisk
  | '/' => .slash
  | '<' => .lt
  | '>' => .gt
  | ',' => .comma
  | ';' => .semicolon
  | ':' => .colon
  | '(' => .lparen
  | ')' => .rparen
  | '{' => .lbrace
  | '}' => .rbrace
  | '[' => .lbracket
  | ']' => .rbracket
  | _ => .illegal

/-! ### One token -/

namespace Token

/-- Reads an operator that starts with `first`: of kind `pair` when an equals sign follows, and
of kind `single` otherwise. -/
def ofOperator (first : Char) (pair single : TokenKind) (rest : List Char) : Token × List Char :=
  match rest with
  | '=' :: rest => (⟨pair, String.ofList [first, '=']⟩, rest)
  | rest => (⟨single, String.ofList [first]⟩, rest)

/-- Reads the token that starts with the character `c`, and returns it with the text behind it. -/
def ofLead (c : Char) (rest : List Char) : Token × List Char :=
  if c = '=' then ofOperator '=' .eq .assign rest
  else if c = '!' then ofOperator '!' .notEq .bang rest
  else if c = '"' then (⟨.string, String.ofList (Text.unquote rest).1⟩, (Text.unquote rest).2)
  else if isLetter c then
    let word := String.ofList (c :: rest.takeWhile isLetter)
    (⟨.ofWord word, word⟩, rest.dropWhile isLetter)
  else if isDigit c then
    (⟨.int, String.ofList (c :: rest.takeWhile isDigit)⟩, rest.dropWhile isDigit)
  else (⟨.ofChar c, String.ofList [c]⟩, rest)

/-- Skips space and reads the token that comes next, if there is one. -/
def next? (text : List Char) : Option (Token × List Char) :=
  match text.dropWhile isSpace with
  | [] => none
  | c :: rest => some (ofLead c rest)

theorem length_dropWhile_le (p : Char → Bool) (text : List Char) :
    (text.dropWhile p).length ≤ text.length :=
  (List.dropWhile_sublist p).length_le

/-- The text behind a token is no longer than the text behind its first character. -/
theorem ofLead_length_le (c : Char) (rest : List Char) :
    (ofLead c rest).2.length ≤ rest.length := by
  have hword := length_dropWhile_le isLetter rest
  have hnumeral := length_dropWhile_le isDigit rest
  have hstring := Text.unquote_length_le rest
  unfold ofLead ofOperator
  grind

/-- Reading a token uses up at least one character. -/
theorem next?_length_lt {text rest : List Char} {t : Token} (h : next? text = some (t, rest)) :
    rest.length < text.length := by
  have hskip := length_dropWhile_le isSpace text
  unfold next? at h
  split at h
  · simp at h
  · next c tail htext =>
    have hlead := ofLead_length_le c tail
    simp only [Option.some.injEq] at h
    rw [htext] at hskip
    rw [h] at hlead
    simp only [List.length_cons] at hskip hlead
    omega

end Token

/-! ### All tokens -/

/-- The tokens of a text. -/
def scan (text : List Char) : List Token :=
  match _h : Token.next? text with
  | none => []
  | some (t, rest) => t :: scan rest
termination_by text.length
decreasing_by exact Token.next?_length_lt _h

/-- The tokens of a text, and the mark of its end. -/
def tokens (text : List Char) : List Token :=
  scan text ++ [Token.eof]

theorem scan_of_next?_eq_none {text : List Char} (h : Token.next? text = none) :
    scan text = [] := by
  rw [scan]
  split
  · rfl
  · simp_all

theorem scan_of_next?_eq_some {text rest : List Char} {t : Token}
    (h : Token.next? text = some (t, rest)) : scan text = t :: scan rest := by
  rw [scan]
  split <;> simp_all

end MonkeyLang
