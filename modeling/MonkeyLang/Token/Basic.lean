/-!
# Tokens

A token is a kind together with the text it was read from (for a string literal, the text that
the literal stands for).

* `TokenKind` lists the kinds, `TokenKind.all` in the order of their declaration;
* `TokenKind.name` is the word for a kind in listings of tokens, `TokenKind.display` the sign for
  it in diagnostics;
* `TokenKind.ofWord` tells keywords from identifiers.
-/

namespace MonkeyLang

/-- The kinds of token. -/
inductive TokenKind
  | illegal | eof
  | ident | int | string
  | assign | plus | minus | bang | asterisk | slash
  | lt | gt | eq | notEq
  | comma | semicolon | colon
  | lparen | rparen | lbrace | rbrace | lbracket | rbracket
  | function | «let» | «true» | «false» | «if» | «else» | «return»
  deriving DecidableEq, Inhabited

namespace TokenKind

/-- Every kind, once. -/
def all : List TokenKind :=
  [.illegal, .eof, .ident, .int, .string, .assign, .plus, .minus, .bang, .asterisk, .slash,
   .lt, .gt, .eq, .notEq, .comma, .semicolon, .colon, .lparen, .rparen, .lbrace, .rbrace,
   .lbracket, .rbracket, .function, .let, .true, .false, .if, .else, .return]

theorem mem_all (k : TokenKind) : k ∈ all := by
  cases k <;> decide

/-- The word for a kind in listings of tokens. -/
def name : TokenKind → String
  | .illegal => "ILLEGAL"
  | .eof => "EOF"
  | .ident => "IDENT"
  | .int => "INT"
  | .string => "STRING"
  | .assign => "ASSIGN"
  | .plus => "PLUS"
  | .minus => "MINUS"
  | .bang => "BANG"
  | .asterisk => "ASTERISK"
  | .slash => "SLASH"
  | .lt => "LT"
  | .gt => "GT"
  | .eq => "EQ"
  | .notEq => "NOT_EQ"
  | .comma => "COMMA"
  | .semicolon => "SEMICOLON"
  | .colon => "COLON"
  | .lparen => "LPAREN"
  | .rparen => "RPAREN"
  | .lbrace => "LBRACE"
  | .rbrace => "RBRACE"
  | .lbracket => "LBRACKET"
  | .rbracket => "RBRACKET"
  | .function => "FUNCTION"
  | .let => "LET"
  | .true => "TRUE"
  | .false => "FALSE"
  | .if => "IF"
  | .else => "ELSE"
  | .return => "RETURN"

/-- How diagnostics speak of a kind: operators and delimiters by their sign, the others by name. -/
def display : TokenKind → String
  | .assign => "="
  | .plus => "+"
  | .minus => "-"
  | .bang => "!"
  | .asterisk => "*"
  | .slash => "/"
  | .lt => "<"
  | .gt => ">"
  | .eq => "=="
  | .notEq => "!="
  | .comma => ","
  | .semicolon => ";"
  | .colon => ":"
  | .lparen => "("
  | .rparen => ")"
  | .lbrace => "\x7b"
  | .rbrace => "\x7d"
  | .lbracket => "["
  | .rbracket => "]"
  | kind => kind.name

/-- The kind that has a given name. -/
def ofName? (text : String) : Option TokenKind :=
  all.find? fun kind => kind.name == text

/-- The kind of a word: one of seven keywords, or an identifier. -/
def ofWord (word : String) : TokenKind :=
  if word = "fn" then .function
  else if word = "let" then .let
  else if word = "true" then .true
  else if word = "false" then .false
  else if word = "if" then .if
  else if word = "else" then .else
  else if word = "return" then .return
  else .ident

end TokenKind

/-- A token: its kind and its text. -/
structure Token where
  kind : TokenKind
  literal : String
  deriving DecidableEq, Inhabited

/-- The token at the end of every text. -/
def Token.eof : Token := ⟨.eof, ""⟩

end MonkeyLang
