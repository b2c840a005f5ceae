import MonkeyLang.Proofs.Subtree

/-!
# Where return statements may stand

A return statement can be inside an expression, in a branch of a conditional.  If the conditional is
the whole expression of a statement, the way out of the function leads through statements only.  If
it is an operand, an argument or a condition, then an expression would have to be left half way.

* `Node.hasReturn` tells whether there is a return statement in a tree, where the bodies of
  functions do not count;
* `Node.branchesReturn` tells whether there is one in a branch of a conditional;
* `Node.canReturn` tells whether the way out of a function can begin in a tree and lead further out;
* a tree is `IsDisciplined` if conditionals with such branches stand only where they are the whole
  expression of a statement.
-/

namespace MonkeyLang.Node

mutual

/-- Tells whether there is a return statement in a tree, outside of the bodies of functions. -/
def hasReturn : Node → Bool
  | returnStatement .. => true
  | program statements | block _ statements => anyHasReturn statements
  | letStatement _ _ value => value.hasReturn
  | expressionStatement _ expression => expression.hasReturn
  | unary _ _ right => right.hasReturn
  | binary _ left _ right => left.hasReturn || right.hasReturn
  | conditional _ condition consequence none => condition.hasReturn || consequence.hasReturn
  | conditional _ condition consequence (some alternative) =>
    condition.hasReturn || (consequence.hasReturn || alternative.hasReturn)
  | call _ callee arguments => callee.hasReturn || anyHasReturn arguments
  | array _ elements => anyHasReturn elements
  | index _ target position => target.hasReturn || position.hasReturn
  | hash _ pairs => anyPairHasReturn pairs
  | identifier _ | integer .. | string .. | boolean .. | function .. | foreign .. => false

/-- Tells whether there is a return statement in one of several trees. -/
def anyHasReturn : List Node → Bool
  | [] => false
  | node :: nodes => node.hasReturn || anyHasReturn nodes

/-- Tells whether there is a return statement in one of the pairs of a hash literal. -/
def anyPairHasReturn : List (Node × Node) → Bool
  | [] => false
  | (key, value) :: pairs => key.hasReturn || value.hasReturn || anyPairHasReturn pairs

end

/-- Tells whether there is a return statement in a branch of a conditional. -/
def branchesReturn : Node → Bool
  | conditional _ _ consequence none => consequence.hasReturn
  | conditional _ _ consequence (some alternative) =>
    consequence.hasReturn || alternative.hasReturn
  | _ => false

theorem hasReturn_of_branchesReturn {node : Node} (h : node.branchesReturn) : node.hasReturn := by
  cases node with
  | conditional token condition consequence alternative =>
    cases alternative <;> simp_all [branchesReturn, hasReturn]
  | _ => cases h

/-- Tells whether a value on its way out of a function can be the outcome of a tree: of a statement
or block with a return statement in it, and of a conditional whose branches return. -/
def canReturn (node : Node) : Bool :=
  match node.role? with
  | some .expression => node.branchesReturn
  | some _ => node.hasReturn
  | none => false

theorem hasReturn_of_canReturn {node : Node} (h : node.canReturn) : node.hasReturn := by
  unfold canReturn at h
  split at h
  · exact hasReturn_of_branchesReturn h
  · exact h
  · cases h

theorem anyHasReturn_of_mem {node : Node} {nodes : List Node} (hmem : node ∈ nodes)
    (h : node.hasReturn) : anyHasReturn nodes := by
  induction nodes with
  | nil => cases hmem
  | cons first nodes ih =>
    rw [anyHasReturn, Bool.or_eq_true]
    rcases List.mem_cons.1 hmem with rfl | hmem
    · exact .inl h
    · exact .inr (ih hmem)

/-- Tells whether a node is a statement that consists of an expression. -/
def isExpressionStatement : Node → Bool
  | expressionStatement .. => true
  | _ => false

/-- The conditionals in a tree whose branches return are whole expressions of statements. -/
def IsDisciplined (node : Node) : Prop :=
  ∀ part ∈ node.subtrees, ∀ place ∈ part.places,
    place.2.branchesReturn → part.isExpressionStatement

instance (node : Node) : Decidable node.IsDisciplined :=
  inferInstanceAs (Decidable (∀ part ∈ node.subtrees, ∀ place ∈ part.places, _ → _))

/-- Every part of a disciplined tree is disciplined. -/
theorem IsDisciplined.of_mem_places {node : Node} (h : node.IsDisciplined) {place : Role × Node}
    (hplace : place ∈ node.places) : place.2.IsDisciplined :=
  fun part hpart => h part (mem_subtrees.2 (.inr ⟨place, hplace, hpart⟩))

end MonkeyLang.Node
