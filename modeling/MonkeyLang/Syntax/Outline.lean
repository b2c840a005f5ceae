import MonkeyLang.Syntax.Node

/-!
# Outlines of syntax trees

An `Outline` is a tree of labels with texts at its leaves.  `Node.outline?` shows the structure of
a syntax tree in this form: a branch for each node, labelled with its kind, a leaf for each text,
number or truth value in it, and nothing for its token or for a part that is absent.

`Outline.write` lays an outline out with one line for each branch or leaf, indented by depth; a
leaf that is alone under its branch stands on the line of the branch, behind a tab.
-/

namespace MonkeyLang

/-- What the text at a leaf is. -/
inductive LeafKind
  | value | operator
  deriving DecidableEq

/-- A tree of labels with texts at its leaves. -/
inductive Outline
  | leaf (kind : LeafKind) (text : String)
  | branch (label : String) (children : List Outline)

namespace Outline

/-- The leaf that shows a value. -/
def value (text : String) : Outline := leaf .value text

/-- The leaf that shows an operator. -/
def operator (text : String) : Outline := leaf .operator text

/-- Two blanks for each level of depth. -/
def indent (depth : Nat) : List Char :=
  List.replicate (2 * depth) ' '

mutual

/-- The lines of an outline that stands at a depth. -/
def write (depth : Nat) : Outline → List Char
  | leaf _ text => indent depth ++ text.toList ++ ['\n']
  | branch label [leaf _ text] =>
    indent depth ++ label.toList ++ '\t' :: (text.toList ++ ['\n'])
  | branch label children =>
    indent depth ++ label.toList ++ '\n' :: writeEach (depth + 1) children

/-- The lines of several outlines at one depth. -/
def writeEach (depth : Nat) : List Outline → List Char
  | [] => []
  | outline :: outlines => outline.write depth ++ writeEach depth outlines

end

/-- The layout of an outline, each line ended by a newline. -/
def pretty (outline : Outline) : String :=
  String.ofList (outline.write 0)

end Outline

/-- The outline of a name. -/
def Identifier.outline (ident : Identifier) : Outline :=
  .branch "identifier" [.value ident.name]

namespace Node

mutual

/-- The outline of a tree; a foreign node has none. -/
def outline? : Node → Option Outline
  | program statements => some (.branch "program" (outlines statements))
  | letStatement _ target value =>
    some (.branch "let_statement" (target.outline :: value.outline?.toList))
  | returnStatement _ none => some (.branch "return_statement" [])
  | returnStatement _ (some value) =>
    some (.branch "return_statement" value.outline?.toList)
  | expressionStatement _ expression =>
    some (.branch "expression_statement" expression.outline?.toList)
  | block _ statements => some (.branch "block_statement" (outlines statements))
  | identifier ident => some ident.outline
  | integer _ value => some (.branch "integer_literal" [.value (toString value)])
  | string _ value => some (.branch "string_literal" [.value value])
  | boolean _ value => some (.branch "boolean" [.value (if value then "True" else "False")])
  | unary _ operator right =>
    some (.branch "prefix_expression" (.operator operator :: right.outline?.toList))
  | binary _ left operator right =>
    some (.branch "infix_expression"
      (left.outline?.toList ++ .operator operator :: right.outline?.toList))
  | conditional _ condition consequence none =>
    some (.branch "if_expression" (condition.outline?.toList ++ consequence.outline?.toList))
  | conditional _ condition consequence (some alternative) =>
    some (.branch "if_expression"
      (condition.outline?.toList ++ consequence.outline?.toList ++ alternative.outline?.toList))
  | function _ parameters body =>
    some (.branch "function_literal"
      (parameters.map (·.outline) ++ body.outline?.toList))
  | call _ callee arguments =>
    some (.branch "call_expression" (callee.outline?.toList ++ outlines arguments))
  | array _ elements => some (.branch "array_literal" (outlines elements))
  | index _ target position =>
    some (.branch "index_expression" (target.outline?.toList ++ position.outline?.toList))
  | hash _ pairs => some (.branch "hash_literal" (pairOutlines pairs))
  | foreign .. => none

/-- The outlines of several trees. -/
def outlines : List Node → List Outline
  | [] => []
  | node :: nodes => node.outline?.toList ++ outlines nodes

/-- The outlines of the pairs of a hash literal. -/
def pairOutlines : List (Node × Node) → List Outline
  | [] => []
  | (key, value) :: pairs =>
    .branch "pair" (key.outline?.toList ++ value.outline?.toList) :: pairOutlines pairs

end

/-- The layout of the outline of a tree. -/
def pretty (node : Node) : String :=
  (node.outline?.map Outline.pretty).getD ""

end Node

end MonkeyLang
