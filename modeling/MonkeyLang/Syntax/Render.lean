import MonkeyLang.Text.Escape
import MonkeyLang.Syntax.Node

/-!
# Writing syntax trees

`Node.write` writes a tree in a canonical form with every operator expression in parentheses, and
`Node.render` is the same as a string.

* Statements are separated by a semicolon and a space, the items of other lists by a comma and a
  space, a key from its value by a colon.
* The condition of an `if` is put in parentheses unless it brings its own.
* Nothing stands between the closing brace of a consequence and `else`.
* Names and literals of integers and truth values show the text they were read from, string
  literals their value, escaped anew.
-/

namespace MonkeyLang

namespace Node

/-- The nodes that are written inside parentheses of their own. -/
def isEnclosed : Node → Bool
  | unary .. | binary .. | index .. => true
  | _ => false

/-- A block around the text of its statements. -/
def writeBlock (body : List (List Char)) : List Char :=
  if body.isEmpty then ['{', ' ', '}']
  else ['{', ' '] ++ [';', ' '].intercalate body ++ [' ', '}']

/-- Text in parentheses. -/
def parenthesize (text : List Char) : List Char :=
  '(' :: (text ++ [')'])

/-- Items in brackets, with a comma and a space between them. -/
def writeItems (opening : Char) (items : List (List Char)) (closing : Char) : List Char :=
  opening :: ([',', ' '].intercalate items ++ [closing])

mutual

/-- The canonical text of a tree. -/
def write : Node → List Char
  | program statements => [';', ' '].intercalate (writeEach statements)
  | letStatement token target value =>
    token.literal.toList ++ ' ' :: (target.name.toList ++ [' ', '=', ' '] ++ value.write)
  | returnStatement token none => token.literal.toList
  | returnStatement token (some value) => token.literal.toList ++ ' ' :: value.write
  | expressionStatement _ expression => expression.write
  | block _ statements => writeBlock (writeEach statements)
  | identifier ident => ident.name.toList
  | integer token _ => token.literal.toList
  | string _ value => Text.quote value.toList
  | boolean token _ => token.literal.toList
  | unary _ operator right => parenthesize (operator.toList ++ right.write)
  | binary _ left operator right =>
    parenthesize (left.write ++ ' ' :: (operator.toList ++ ' ' :: right.write))
  | conditional _ condition consequence none =>
    ['i', 'f'] ++
      (if condition.isEnclosed then condition.write else parenthesize condition.write) ++
      ' ' :: consequence.write
  | conditional _ condition consequence (some alternative) =>
    ['i', 'f'] ++
      (if condition.isEnclosed then condition.write else parenthesize condition.write) ++
      ' ' :: (consequence.write ++ ['e', 'l', 's', 'e', ' '] ++ alternative.write)
  | function token parameters body =>
    token.literal.toList ++ writeItems '(' (parameters.map (·.name.toList)) ')' ++
      ' ' :: body.write
  | call _ callee arguments => callee.write ++ writeItems '(' (writeEach arguments) ')'
  | array _ elements => writeItems '[' (writeEach elements) ']'
  | index _ target position => parenthesize (target.write ++ '[' :: (position.write ++ [']']))
  | hash _ pairs => writeItems '{' (writePairs pairs) '}'
  | foreign _ text => text.toList

/-- The texts of several trees. -/
def writeEach : List Node → List (List Char)
  | [] => []
  | node :: nodes => node.write :: writeEach nodes

/-- The texts of the pairs of a hash literal. -/
def writePairs : List (Node × Node) → List (List Char)
  | [] => []
  | (key, value) :: pairs => (key.write ++ ':' :: value.write) :: writePairs pairs

end

/-- The statements of a program or block, without the braces of a block. -/
def writeBody (node : Node) : List Char :=
  [';', ' '].intercalate (writeEach node.statements)

/-- The canonical text of a tree. -/
def render (node : Node) : String :=
  String.ofList node.write

/-- The text of the statements of a program or block. -/
def renderBody (node : Node) : String :=
  String.ofList node.writeBody

end Node

end MonkeyLang
