import MonkeyLang.Token.Basic

/-!
# Syntax trees

One type holds programs, statements and expressions.  Which of them the grammar puts where is a
property of the trees that it builds, not of the type: a tree made by hand may have a statement as
an operand, and evaluation has to say what that means.

* `Identifier` is a name with the token it was read from;
* `Node` is a tree; every node but a program keeps the token it started with;
* `Node.literal` is the text of that token, `Node.kind` the word for the kind of node.

A `foreign` node stands for one that the grammar does not have: it carries the word for its kind
and the text it shows itself as.
-/

namespace MonkeyLang

/-- A name and the token it was read from. -/
structure Identifier where
  token : Token
  name : String
  deriving DecidableEq

/-- A syntax tree. -/
inductive Node
  | program (statements : List Node)
  | letStatement (token : Token) (target : Identifier) (value : Node)
  | returnStatement (token : Token) (value : Option Node)
  | expressionStatement (token : Token) (expression : Node)
  | block (token : Token) (statements : List Node)
  | identifier (ident : Identifier)
  | integer (token : Token) (value : Int)
  | string (token : Token) (value : String)
  | boolean (token : Token) (value : Bool)
  | unary (token : Token) (operator : String) (right : Node)
  | binary (token : Token) (left : Node) (operator : String) (right : Node)
  | conditional (token : Token) (condition consequence : Node) (alternative : Option Node)
  | function (token : Token) (parameters : List Identifier) (body : Node)
  | call (token : Token) (callee : Node) (arguments : List Node)
  | array (token : Token) (elements : List Node)
  | index (token : Token) (target position : Node)
  | hash (token : Token) (pairs : List (Node × Node))
  | foreign (kind text : String)

namespace Node

/-- The text of the token that a node starts with; for a program, that of its first statement. -/
def literal : Node → String
  | program [] => ""
  | program (first :: _) => first.literal
  | identifier ident => ident.token.literal
  | letStatement token .. | returnStatement token .. | expressionStatement token ..
  | block token .. | integer token .. | string token .. | boolean token .. | unary token ..
  | binary token .. | conditional token .. | function token .. | call token .. | array token ..
  | index token .. | hash token .. => token.literal
  | foreign _ text => text

/-- The word for the kind of a node. -/
def kind : Node → String
  | program _ => "Program"
  | letStatement .. => "LetStatement"
  | returnStatement .. => "ReturnStatement"
  | expressionStatement .. => "ExpressionStatement"
  | block .. => "BlockStatement"
  | identifier _ => "Identifier"
  | integer .. => "IntegerLiteral"
  | string .. => "StringLiteral"
  | boolean .. => "Boolean"
  | unary .. => "PrefixExpression"
  | binary .. => "InfixExpression"
  | conditional .. => "IfExpression"
  | function .. => "FunctionLiteral"
  | call .. => "CallExpression"
  | array .. => "ArrayLiteral"
  | index .. => "IndexExpression"
  | hash .. => "HashLiteral"
  | foreign kind _ => kind

/-- Tells whether a node is a block. -/
def isBlock : Node → Bool
  | block .. => true
  | _ => false

/-- The statements of a program or block. -/
def statements : Node → List Node
  | program statements | block _ statements => statements
  | _ => []

end Node

end MonkeyLang
