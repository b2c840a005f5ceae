import MonkeyLang.Grammar.Precedence
import MonkeyLang.Grammar.Rule
import MonkeyLang.Syntax.Node

/-!
# The grammar of statements and expressions

One definition for each form of the language.  A rule starts with the current token on the first
token of its form and ends with it on the last one.

Statements and expressions contain each other.  Every rule here takes the rule for
expressions, `expr`, as a parameter: `expr p` reads an expression as far as operators bind more
strongly than `p`.  `expressionWithin` ties the knot for a given depth of nesting, and `expression`
allows a depth that the tokens ahead cannot exceed, because a nested expression begins at a later
token.

A form with a part that was abandoned is abandoned too, but only after its closing tokens have been
looked for, so that what follows is read from the right place.
-/

namespace MonkeyLang.Grammar

open Rule

/-- A rule for expressions above a precedence. -/
abbrev ExpressionRule := Precedence → Rule Node

/-! ### Statements -/

/-- The current token as a name. -/
def name : Rule Identifier := do
  let token ← current
  return ⟨token, token.literal⟩

/-- `let NAME = VALUE`, and a semicolon if there is one. -/
def letStatement (expr : ExpressionRule) : Rule Node := do
  let keyword ← current
  expect .ident
  let target ← name
  expect .assign
  advance
  let value ← attempt (expr .lowest)
  skip .semicolon
  return .letStatement keyword target (← ofOption value)

/-- `return` with or without a value, and a semicolon if there is one. -/
def returnStatement (expr : ExpressionRule) : Rule Node := do
  let keyword ← current
  match (← next).kind with
  | .semicolon => do
    advance
    return .returnStatement keyword none
  | .rbrace | .eof => return .returnStatement keyword none
  | _ => do
    advance
    let value ← attempt (expr .lowest)
    skip .semicolon
    return .returnStatement keyword (some (← ofOption value))

/-- An expression as a statement, and a semicolon if there is one. -/
def expressionStatement (expr : ExpressionRule) : Rule Node := do
  let first ← current
  let value ← attempt (expr .lowest)
  skip .semicolon
  return .expressionStatement first (← ofOption value)

/-- A statement. -/
def statement (expr : ExpressionRule) : Rule Node := do
  match (← current).kind with
  | .let => letStatement expr
  | .return => returnStatement expr
  | _ => expressionStatement expr

/-- Statements up to a token that ends them; those that were abandoned are left out. -/
def statements (expr : ExpressionRule) (ends : TokenKind → Bool) : Rule (List Node) := do
  let found ← many (fun ts => !ends (currentOf ts).kind) do
    let found ← attempt (statement expr)
    advance
    return found
  return found.filterMap id

/-- Tells whether a token ends a block; so does the end of the text. -/
def endsBlock (kind : TokenKind) : Bool :=
  kind = .rbrace || kind = .eof

/-- Statements in braces. -/
def block (expr : ExpressionRule) : Rule Node := do
  let brace ← current
  advance
  return .block brace (← statements expr endsBlock)

/-! ### Operands -/

/-- A name as an expression. -/
def identifier : Rule Node := do
  return .identifier (← name)

/-- The largest value of an integer literal. -/
def maxInteger : Int := 9223372036854775807

/-- An integer literal. -/
def integer : Rule Node := do
  let token ← current
  match Text.readInteger token.literal.toList with
  | .error cause => reject (.refused ⟨token.literal, cause⟩)
  | .ok value =>
    if maxInteger < value then reject (.tooLarge token.literal)
    else return .integer token value

/-- A string literal. -/
def string : Rule Node := do
  let token ← current
  return .string token token.literal

/-- A truth value. -/
def boolean : Rule Node := do
  let token ← current
  return .boolean token (token.kind = .true)

/-- An operator in front of its operand. -/
def unary (expr : ExpressionRule) : Rule Node := do
  let operator ← current
  advance
  return .unary operator operator.literal (← expr .unary)

/-- An expression in parentheses, which leave no trace in the tree. -/
def grouped (expr : ExpressionRule) : Rule Node := do
  advance
  let inner ← attempt (expr .lowest)
  expect .rparen
  ofOption inner

/-- The block behind `else`, if the next token is that word. -/
def elseBlock (expr : ExpressionRule) : Rule (Option Node) := do
  if (← next).kind = .else then
    advance
    expect .lbrace
    return some (← block expr)
  else return none

/-- `if (CONDITION) BLOCK`, with or without `else BLOCK`. -/
def conditional (expr : ExpressionRule) : Rule Node := do
  let keyword ← current
  expect .lparen
  advance
  let condition ← attempt (expr .lowest)
  expect .rparen
  expect .lbrace
  let consequence ← block expr
  let alternative ← elseBlock expr
  return .conditional keyword (← ofOption condition) consequence alternative

/-- The names in parentheses behind the current token. -/
def parameters : Rule (List Identifier) := do
  if (← next).kind = .rparen then
    advance
    return []
  else
    expect .ident
    let first ← name
    let others ← many (fun ts => (nextOf ts).kind = .comma) do
      advance
      expect .ident
      name
    expect .rparen
    return first :: others

/-- `fn(PARAMETERS) BLOCK`. -/
def function (expr : ExpressionRule) : Rule Node := do
  let keyword ← current
  expect .lparen
  let params ← parameters
  expect .lbrace
  return .function keyword params (← block expr)

/-- All the values, if none is missing. -/
def collect {α : Type} : List (Option α) → Option (List α)
  | [] => some []
  | none :: _ => none
  | some a :: rest => (collect rest).map (a :: ·)

theorem collect_map_some {α : Type} (as : List α) : collect (as.map some) = some as := by
  induction as with
  | nil => rfl
  | cons a as ih => simp [collect, ih]

/-- Expressions with commas between them, from behind the current token up to a closing one. -/
def items (expr : ExpressionRule) (closing : TokenKind) : Rule (List Node) := do
  if (← next).kind = closing then
    advance
    return []
  else
    advance
    let first ← attempt (expr .lowest)
    let others ← many (fun ts => (nextOf ts).kind = .comma) do
      advance
      advance
      attempt (expr .lowest)
    expect closing
    ofOption (collect (first :: others))

/-- An array literal. -/
def array (expr : ExpressionRule) : Rule Node := do
  let bracket ← current
  return .array bracket (← items expr .rbracket)

/-- `KEY : VALUE`, and the comma behind it unless the hash literal ends there. -/
def pair (expr : ExpressionRule) : Rule (Node × Node) := do
  advance
  let key ← attempt (expr .lowest)
  expect .colon
  advance
  let value ← attempt (expr .lowest)
  let key ← ofOption key
  let value ← ofOption value
  if (← next).kind = .rbrace then return (key, value)
  else
    expect .comma
    return (key, value)

/-- A hash literal; a comma may stand behind its last pair. -/
def hash (expr : ExpressionRule) : Rule Node := do
  let brace ← current
  let pairs ← many (fun ts => (nextOf ts).kind ≠ .rbrace) (pair expr)
  expect .rbrace
  return .hash brace pairs

/-- The part of an expression that starts with the current token and needs nothing before it. -/
def operand (expr : ExpressionRule) : Rule Node := do
  match (← current).kind with
  | .ident => identifier
  | .int => integer
  | .string => string
  | .function => function expr
  | .bang | .minus => unary expr
  | .lparen => grouped expr
  | .if => conditional expr
  | .true | .false => boolean
  | .lbracket => array expr
  | .lbrace => hash expr
  | kind => reject (.noOperand kind)

/-! ### Continuations -/

/-- An operator between its operands, of which the left one has been read. -/
def binary (expr : ExpressionRule) (left : Node) : Rule Node := do
  let operator ← current
  advance
  return .binary operator left operator.literal (← expr (.ofKind operator.kind))

/-- The arguments of a call. -/
def call (expr : ExpressionRule) (callee : Node) : Rule Node := do
  let paren ← current
  return .call paren callee (← items expr .rparen)

/-- An index in brackets. -/
def index (expr : ExpressionRule) (target : Node) : Rule Node := do
  let bracket ← current
  advance
  let position ← attempt (expr .lowest)
  expect .rbracket
  return .index bracket target (← ofOption position)

/-- What the next token makes of the expression before it. -/
def continuation (expr : ExpressionRule) (left : Node) : Rule Node := do
  advance
  match (← current).kind with
  | .lparen => call expr left
  | .lbracket => index expr left
  | _ => binary expr left

/-- Goes on with an expression while the next token binds more strongly than `p`. -/
def climb (expr : ExpressionRule) (p : Precedence) (left : Node) : Rule Node :=
  iterate (fun ts => p < .ofKind (nextOf ts).kind) (continuation expr) left

/-! ### The knot -/

/-- An expression in which expressions are nested less than `depth` deep.  At depth zero there is
no room for any. -/
def expressionWithin : Nat → ExpressionRule
  | 0, _ => do reject (.noOperand (← current).kind)
  | depth + 1, p => do
    let left ← operand (expressionWithin depth)
    climb (expressionWithin depth) p left

/-- An expression, as far as operators bind more strongly than `p`. -/
def expression (p : Precedence) : Rule Node := fun ts =>
  expressionWithin (ts.length + 1) p ts

theorem expression_apply (p : Precedence) (ts : List Token) :
    expression p ts = expressionWithin (ts.length + 1) p ts := rfl

end MonkeyLang.Grammar
