import MonkeyLang.Proofs.Subtree

/-!
# The names in syntax trees

* `Node.names` lists the names in a tree: those it looks up, those it gives with `let`, and those of
  the parameters of its functions.
* `Node.Avoids hidden node` says that none of them is among the `hidden` names, and is inherited by
  the trees in the places of a tree.
* `Node.hasLet` tells whether a tree binds names in the frame in which it is evaluated: whether
  there is a `let` in it, outside of the bodies of functions.
-/

namespace MonkeyLang.Node

/-- The names that a tree itself has, apart from those of the trees inside it. -/
def ownNames : Node → List String
  | identifier ident => [ident.name]
  | letStatement _ target _ => [target.name]
  | function _ parameters _ => parameters.map (·.name)
  | _ => []

/-- The names in a tree. -/
def names (node : Node) : List String :=
  node.subtrees.flatMap ownNames

/-- None of the names in the tree is hidden. -/
def Avoids (hidden : String → Bool) (node : Node) : Prop :=
  ∀ name ∈ node.names, hidden name = false

namespace Avoids

variable {hidden : String → Bool} {node : Node}

theorem own (h : node.Avoids hidden) {name : String} (hname : name ∈ node.ownNames) :
    hidden name = false :=
  h name (List.mem_flatMap.2 ⟨node, mem_subtrees.2 (.inl rfl), hname⟩)

theorem of_mem_places (h : node.Avoids hidden) {place : Role × Node}
    (hplace : place ∈ node.places) : place.2.Avoids hidden := by
  intro name hname
  obtain ⟨part, hpart, hown⟩ := List.mem_flatMap.1 hname
  exact h name (List.mem_flatMap.2 ⟨part, mem_subtrees.2 (.inr ⟨place, hplace, hpart⟩), hown⟩)

end Avoids

mutual

/-- Tells whether there is a `let` in a tree, outside of the bodies of functions. -/
def hasLet : Node → Bool
  | letStatement .. => true
  | program statements | block _ statements => anyHasLet statements
  | returnStatement _ none => false
  | returnStatement _ (some value) => value.hasLet
  | expressionStatement _ expression => expression.hasLet
  | unary _ _ right => right.hasLet
  | binary _ left _ right => left.hasLet || right.hasLet
  | conditional _ condition consequence none => condition.hasLet || consequence.hasLet
  | conditional _ condition consequence (some alternative) =>
    condition.hasLet || (consequence.hasLet || alternative.hasLet)
  | call _ callee arguments => callee.hasLet || anyHasLet arguments
  | array _ elements => anyHasLet elements
  | index _ target position => target.hasLet || position.hasLet
  | hash _ pairs => anyPairHasLet pairs
  | identifier _ | integer .. | string .. | boolean .. | function .. | foreign .. => false

/-- Tells whether there is a `let` in one of several trees. -/
def anyHasLet : List Node → Bool
  | [] => false
  | node :: nodes => node.hasLet || anyHasLet nodes

/-- Tells whether there is a `let` in one of the pairs of a hash literal. -/
def anyPairHasLet : List (Node × Node) → Bool
  | [] => false
  | (key, value) :: pairs => key.hasLet || (value.hasLet || anyPairHasLet pairs)

end

end MonkeyLang.Node
