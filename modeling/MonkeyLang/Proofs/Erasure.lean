import MonkeyLang.Syntax.Render

/-!
# Trees up to their tokens

Two trees can differ in the tokens of their nodes alone.  `Node.withoutTokens` forgets all of them,
and `Node.withoutLeads` only those of expression statements, which name the token that the
statement began with.

`Node.withoutLeads_write`: the canonical text of a tree does not depend on the leads.
-/

namespace MonkeyLang

namespace Node

mutual

/-- The tree with other tokens: `lead` changes those of expression statements, and `own` those of
the other nodes. -/
def retoken (lead own : Token → Token) : Node → Node
  | program statements => program (retokenEach lead own statements)
  | letStatement token target value =>
    letStatement (own token) ⟨own target.token, target.name⟩ (value.retoken lead own)
  | returnStatement token none => returnStatement (own token) none
  | returnStatement token (some value) =>
    returnStatement (own token) (some (value.retoken lead own))
  | expressionStatement token expression =>
    expressionStatement (lead token) (expression.retoken lead own)
  | block token statements => block (own token) (retokenEach lead own statements)
  | identifier ident => identifier ⟨own ident.token, ident.name⟩
  | integer token value => integer (own token) value
  | string token value => string (own token) value
  | boolean token value => boolean (own token) value
  | unary token operator right => unary (own token) operator (right.retoken lead own)
  | binary token left operator right =>
    binary (own token) (left.retoken lead own) operator (right.retoken lead own)
  | conditional token condition consequence none =>
    conditional (own token) (condition.retoken lead own) (consequence.retoken lead own) none
  | conditional token condition consequence (some alternative) =>
    conditional (own token) (condition.retoken lead own) (consequence.retoken lead own)
      (some (alternative.retoken lead own))
  | function token parameters body =>
    function (own token) (parameters.map fun p => ⟨own p.token, p.name⟩) (body.retoken lead own)
  | call token callee arguments =>
    call (own token) (callee.retoken lead own) (retokenEach lead own arguments)
  | array token elements => array (own token) (retokenEach lead own elements)
  | index token target position =>
    index (own token) (target.retoken lead own) (position.retoken lead own)
  | hash token pairs => hash (own token) (retokenPairs lead own pairs)
  | foreign kind text => foreign kind text

/-- Several trees with other tokens. -/
def retokenEach (lead own : Token → Token) : List Node → List Node
  | [] => []
  | node :: nodes => node.retoken lead own :: retokenEach lead own nodes

/-- The pairs of a hash literal with other tokens. -/
def retokenPairs (lead own : Token → Token) : List (Node × Node) → List (Node × Node)
  | [] => []
  | (key, value) :: pairs =>
    (key.retoken lead own, value.retoken lead own) :: retokenPairs lead own pairs

end

theorem retokenEach_eq_map (lead own : Token → Token) (nodes : List Node) :
    retokenEach lead own nodes = nodes.map (retoken lead own) := by
  induction nodes with
  | nil => rfl
  | cons node nodes ih => simp [retokenEach, ih]

theorem retokenPairs_eq_map (lead own : Token → Token) (pairs : List (Node × Node)) :
    retokenPairs lead own pairs =
      pairs.map fun p => (p.1.retoken lead own, p.2.retoken lead own) := by
  induction pairs with
  | nil => rfl
  | cons p pairs ih => simp [retokenPairs, ih]

section

variable (lead own : Token → Token) (token : Token)

theorem retoken_program (statements : List Node) :
    (program statements).retoken lead own = program (statements.map (retoken lead own)) := by
  rw [retoken, retokenEach_eq_map]

theorem retoken_block (statements : List Node) :
    (block token statements).retoken lead own =
      block (own token) (statements.map (retoken lead own)) := by
  rw [retoken, retokenEach_eq_map]

theorem retoken_call (callee : Node) (arguments : List Node) :
    (call token callee arguments).retoken lead own =
      call (own token) (callee.retoken lead own) (arguments.map (retoken lead own)) := by
  rw [retoken, retokenEach_eq_map]

theorem retoken_array (elements : List Node) :
    (array token elements).retoken lead own =
      array (own token) (elements.map (retoken lead own)) := by
  rw [retoken, retokenEach_eq_map]

theorem retoken_hash (pairs : List (Node × Node)) :
    (hash token pairs).retoken lead own =
      hash (own token) (pairs.map fun p => (p.1.retoken lead own, p.2.retoken lead own)) := by
  rw [retoken, retokenPairs_eq_map]

end

/-- The tree without the tokens of its expression statements. -/
def withoutLeads (node : Node) : Node := node.retoken (fun _ => .eof) id

/-- The tree without its tokens. -/
def withoutTokens (node : Node) : Node := node.retoken (fun _ => .eof) fun _ => .eof

theorem withoutLeads_program (statements : List Node) :
    (program statements).withoutLeads = program (statements.map withoutLeads) :=
  retoken_program _ _ statements

theorem withoutLeads_block (token : Token) (statements : List Node) :
    (block token statements).withoutLeads = block token (statements.map withoutLeads) :=
  retoken_block _ _ token statements

theorem withoutLeads_call (token : Token) (callee : Node) (arguments : List Node) :
    (call token callee arguments).withoutLeads =
      call token callee.withoutLeads (arguments.map withoutLeads) :=
  retoken_call _ _ token callee arguments

theorem withoutLeads_array (token : Token) (elements : List Node) :
    (array token elements).withoutLeads = array token (elements.map withoutLeads) :=
  retoken_array _ _ token elements

theorem withoutLeads_hash (token : Token) (pairs : List (Node × Node)) :
    (hash token pairs).withoutLeads =
      hash token (pairs.map fun p => (p.1.withoutLeads, p.2.withoutLeads)) :=
  retoken_hash _ _ token pairs

theorem retoken_isEnclosed (lead own : Token → Token) (node : Node) :
    (node.retoken lead own).isEnclosed = node.isEnclosed := by
  cases node with
  | returnStatement token value => cases value <;> rfl
  | conditional token condition consequence alternative => cases alternative <;> rfl
  | _ => rfl

mutual

theorem retoken_write (lead : Token → Token) :
    (node : Node) → (node.retoken lead id).write = node.write
  | program statements => by simp [retoken, write, retokenEach_write lead statements]
  | letStatement token target value => by simp [retoken, write, retoken_write lead value]
  | returnStatement token none => by simp [retoken, write]
  | returnStatement token (some value) => by simp [retoken, write, retoken_write lead value]
  | expressionStatement token expression => by simp [retoken, write, retoken_write lead expression]
  | block token statements => by simp [retoken, write, retokenEach_write lead statements]
  | identifier ident => by simp [retoken, write]
  | integer token value => by simp [retoken, write]
  | string token value => by simp [retoken, write]
  | boolean token value => by simp [retoken, write]
  | unary token operator right => by simp [retoken, write, retoken_write lead right]
  | binary token left operator right => by
    simp [retoken, write, retoken_write lead left, retoken_write lead right]
  | conditional token condition consequence none => by
    simp [retoken, write, retoken_isEnclosed, retoken_write lead condition,
      retoken_write lead consequence]
  | conditional token condition consequence (some alternative) => by
    simp [retoken, write, retoken_isEnclosed, retoken_write lead condition,
      retoken_write lead consequence, retoken_write lead alternative]
  | function token parameters body => by simp [retoken, write, retoken_write lead body]
  | call token callee arguments => by
    simp [retoken, write, retoken_write lead callee, retokenEach_write lead arguments]
  | array token elements => by simp [retoken, write, retokenEach_write lead elements]
  | index token target position => by
    simp [retoken, write, retoken_write lead target, retoken_write lead position]
  | hash token pairs => by simp [retoken, write, retokenPairs_write lead pairs]
  | foreign kind text => by simp [retoken, write]

theorem retokenEach_write (lead : Token → Token) :
    (nodes : List Node) → writeEach (retokenEach lead id nodes) = writeEach nodes
  | [] => rfl
  | node :: nodes => by
    simp [retokenEach, writeEach, retoken_write lead node, retokenEach_write lead nodes]

theorem retokenPairs_write (lead : Token → Token) :
    (pairs : List (Node × Node)) → writePairs (retokenPairs lead id pairs) = writePairs pairs
  | [] => rfl
  | (key, value) :: pairs => by
    simp [retokenPairs, writePairs, retoken_write lead key, retoken_write lead value,
      retokenPairs_write lead pairs]

end

/-- The canonical text of a tree does not show the tokens of expression statements. -/
theorem withoutLeads_write (node : Node) : node.withoutLeads.write = node.write :=
  retoken_write _ node

/-- Trees that differ in the tokens of expression statements alone have the same text. -/
theorem write_eq_of_withoutLeads_eq {a b : Node} (h : a.withoutLeads = b.withoutLeads) :
    a.write = b.write := by
  rw [← withoutLeads_write a, h, withoutLeads_write b]

end Node

end MonkeyLang
