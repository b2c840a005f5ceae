/-!
# Escapes in string literals

Between the quotes of a string literal five characters are written with a backslash: the quote, the
backslash itself, newline, tab and carriage return.

* `escape` writes one character, `quote` a whole literal;
* `unescape` reads what follows a backslash, `unquote` the rest of a literal after its opening
  quote.

A backslash before any other character stands for itself, and a literal without a closing quote
runs to the end of the text.  `unquote_escape` says that reading undoes writing, whatever follows.
-/

namespace MonkeyLang.Text

/-- How a character is written inside a string literal. -/
def escape (c : Char) : List Char :=
  if c = '\\' then ['\\', '\\']
  else if c = '"' then ['\\', '"']
  else if c = '\n' then ['\\', 'n']
  else if c = '\t' then ['\\', 't']
  else if c = '\r' then ['\\', 'r']
  else [c]

/-- The characters that a backslash followed by `c` stands for. -/
def unescape (c : Char) : List Char :=
  if c = '"' then ['"']
  else if c = '\\' then ['\\']
  else if c = 'n' then ['\n']
  else if c = 't' then ['\t']
  else if c = 'r' then ['\r']
  else ['\\', c]

/-- A string literal that stands for `body`. -/
def quote (body : List Char) : List Char :=
  '"' :: (body.flatMap escape ++ ['"'])

/-- Reads a string literal from behind its opening quote: what it stands for, and the text behind
its closing quote. -/
def unquote : List Char → List Char × List Char
  | [] => ([], [])
  | '\\' :: c :: rest => (unescape c ++ (unquote rest).1, (unquote rest).2)
  | c :: rest => if c = '"' then ([], rest) else (c :: (unquote rest).1, (unquote rest).2)

/-- Reading never returns more text than it was given. -/
theorem unquote_length_le (s : List Char) : (unquote s).2.length ≤ s.length := by
  fun_induction unquote s <;> grind

/-- An escaped character is read back as itself. -/
theorem unquote_escape_append (c : Char) (rest : List Char) :
    unquote (escape c ++ rest) = (c :: (unquote rest).1, (unquote rest).2) := by
  by_cases hbackslash : c = '\\'
  · subst hbackslash; simp [escape, unquote, unescape]
  by_cases hquote : c = '"'
  · subst hquote; simp [escape, unquote, unescape]
  by_cases hnewline : c = '\n'
  · subst hnewline; simp [escape, unquote, unescape]
  by_cases htab : c = '\t'
  · subst htab; simp [escape, unquote, unescape]
  by_cases hreturn : c = '\r'
  · subst hreturn; simp [escape, unquote, unescape]
  simp [escape, hbackslash, hquote, hnewline, htab, hreturn, unquote]

/-- Reading a written literal gives back its contents and stops right behind the closing quote. -/
theorem unquote_escape (body rest : List Char) :
    unquote (body.flatMap escape ++ '"' :: rest) = (body, rest) := by
  induction body with
  | nil => simp [unquote]
  | cons c body ih => simp [unquote_escape_append, ih]

end MonkeyLang.Text
