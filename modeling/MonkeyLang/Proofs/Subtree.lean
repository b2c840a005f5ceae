import MonkeyLang.Proofs.Formed

/-!
# The parts of syntax trees

`Node.places` lists the trees that a tree is directly made of, each with the role that its place
calls for: a statement in the list of a block, a block as the body of a function, an expression as
an operand.  `Node.role?` is the role that a tree can play, and `Node.subtrees` lists the tree and
all trees inside it.

A tree is `WellPlaced` if every tree inside it, itself included, has parts of the right roles only.
What its names, literals and operators are is another matter, and nothing is said of it.
-/

namespace MonkeyLang

deriving instance DecidableEq for Role

namespace Node

/-- The trees that a tree is directly made of, with the roles that their places call for. -/
def places : Node → List (Role × Node)
  | program statements | block _ statements => statements.map fun s => (.statement, s)
  | letStatement _ _ value => [(.expression, value)]
  | returnStatement _ value => value.toList.map fun v => (.expression, v)
  | expressionStatement _ expression => [(.expression, expression)]
  | unary _ _ right => [(.expression, right)]
  | binary _ left _ right => [(.expression, left), (.expression, right)]
  | conditional _ condition consequence alternative =>
    (.expression, condition) :: (.block, consequence) ::
      alternative.toList.map fun a => (.block, a)
  | function _ _ body => [(.block, body)]
  | call _ callee arguments =>
    (.expression, callee) :: arguments.map fun a => (.expression, a)
  | array _ elements => elements.map fun e => (.expression, e)
  | index _ target position => [(.expression, target), (.expression, position)]
  | hash _ pairs => pairs.flatMap fun p => [(.expression, p.1), (.expression, p.2)]
  | identifier _ | integer .. | string .. | boolean .. | foreign .. => []

/-- The role that a tree can play; a program and a foreign node play none. -/
def role? : Node → Option Role
  | letStatement .. | returnStatement .. | expressionStatement .. => some .statement
  | block .. => some .block
  | identifier _ | integer .. | string .. | boolean .. | unary .. | binary .. | conditional ..
  | function .. | call .. | array .. | index .. | hash .. => some .expression
  | program _ | foreign .. => none

mutual

/-- A tree and all trees inside it. -/
def subtrees : Node → List Node
  | program statements => program statements :: subtreesEach statements
  | letStatement token target value => letStatement token target value :: value.subtrees
  | returnStatement token none => [returnStatement token none]
  | returnStatement token (some value) => returnStatement token (some value) :: value.subtrees
  | expressionStatement token expression =>
    expressionStatement token expression :: expression.subtrees
  | block token statements => block token statements :: subtreesEach statements
  | unary token operator right => unary token operator right :: right.subtrees
  | binary token left operator right =>
    binary token left operator right :: (left.subtrees ++ right.subtrees)
  | conditional token condition consequence none =>
    conditional token condition consequence none :: (condition.subtrees ++ consequence.subtrees)
  | conditional token condition consequence (some alternative) =>
    conditional token condition consequence (some alternative) ::
      (condition.subtrees ++ (consequence.subtrees ++ alternative.subtrees))
  | function token parameters body => function token parameters body :: body.subtrees
  | call token callee arguments =>
    call token callee arguments :: (callee.subtrees ++ subtreesEach arguments)
  | array token elements => array token elements :: subtreesEach elements
  | index token target position =>
    index token target position :: (target.subtrees ++ position.subtrees)
  | hash token pairs => hash token pairs :: subtreesPairs pairs
  | identifier ident => [identifier ident]
  | integer token value => [integer token value]
  | string token value => [string token value]
  | boolean token value => [boolean token value]
  | foreign kind text => [foreign kind text]

/-- Several trees and all trees inside them. -/
def subtreesEach : List Node → List Node
  | [] => []
  | node :: nodes => node.subtrees ++ subtreesEach nodes

/-- The trees of the pairs of a hash literal, and all trees inside them. -/
def subtreesPairs : List (Node × Node) → List Node
  | [] => []
  | (key, value) :: pairs => key.subtrees ++ (value.subtrees ++ subtreesPairs pairs)

end

theorem subtreesEach_eq_flatMap (nodes : List Node) :
    subtreesEach nodes = nodes.flatMap subtrees := by
  induction nodes with
  | nil => rfl
  | cons node nodes ih => simp [subtreesEach, ih]

theorem subtreesPairs_eq_flatMap (pairs : List (Node × Node)) :
    subtreesPairs pairs = pairs.flatMap fun p => p.1.subtrees ++ p.2.subtrees := by
  induction pairs with
  | nil => rfl
  | cons p pairs ih => simp [subtreesPairs, ih]

/-- The trees inside a tree are those in its places and the trees inside these. -/
theorem subtrees_eq (node : Node) :
    node.subtrees = node :: node.places.flatMap fun place => place.2.subtrees := by
  cases node with
  | returnStatement token value => cases value <;> simp [subtrees, places]
  | conditional token condition consequence alternative =>
    cases alternative <;> simp [subtrees, places]
  | hash token pairs =>
    simp [subtrees, places, subtreesPairs_eq_flatMap, List.flatMap_assoc]
  | _ => simp [subtrees, places, subtreesEach_eq_flatMap, List.flatMap_map]

theorem mem_subtrees {node part : Node} :
    part ∈ node.subtrees ↔ part = node ∨ ∃ place ∈ node.places, part ∈ place.2.subtrees := by
  rw [subtrees_eq, List.mem_cons, List.mem_flatMap]

theorem sizeOf_lt_of_mem_places {node : Node} {place : Role × Node} (h : place ∈ node.places) :
    sizeOf place.2 < sizeOf node := by
  have hlist {nodes : List Node} {part : Node} (hmem : part ∈ nodes) : sizeOf part < sizeOf nodes :=
    List.sizeOf_lt_of_mem hmem
  cases node with
  | returnStatement token value =>
    cases value with
    | none => cases h
    | some value =>
      obtain rfl := List.mem_singleton.1 h
      grind
  | conditional token condition consequence alternative =>
    cases alternative <;> simp only [places, Option.toList, List.map, List.mem_cons] at h <;> grind
  | hash token pairs =>
    obtain ⟨pair, hpair, hplace⟩ := List.mem_flatMap.1 h
    have hsize : sizeOf pair < sizeOf pairs := List.sizeOf_lt_of_mem hpair
    rw [Prod.mk.sizeOf_spec] at hsize
    simp only [List.mem_cons, List.not_mem_nil, or_false] at hplace
    rcases hplace with rfl | rfl <;> grind
  | _ => simp only [places, List.mem_cons, List.mem_map, List.not_mem_nil] at h <;> grind

/-- Induction on trees: what a tree inherits from the trees in its places holds of all trees. -/
theorem places_induction {motive : Node → Prop}
    (step : ∀ node : Node, (∀ place ∈ node.places, motive place.2) → motive node) (node : Node) :
    motive node :=
  step node fun place hplace =>
    have := sizeOf_lt_of_mem_places hplace
    places_induction step place.2
termination_by node

/-- The trees inside a tree inside a tree are inside of it. -/
theorem mem_subtrees_trans {part inner outer : Node} (hpart : part ∈ inner.subtrees)
    (hinner : inner ∈ outer.subtrees) : part ∈ outer.subtrees := by
  induction outer using places_induction with
  | step outer ih =>
    rcases mem_subtrees.1 hinner with rfl | ⟨place, hplace, hinner⟩
    · exact hpart
    · exact mem_subtrees.2 (.inr ⟨place, hplace, ih place hplace hinner⟩)

/-- The parts of a tree are of the roles that their places call for. -/
def PartsFit (node : Node) : Prop :=
  ∀ place ∈ node.places, place.2.role? = some place.1

instance (node : Node) : Decidable node.PartsFit :=
  inferInstanceAs (Decidable (∀ place ∈ node.places, _))

/-- Every tree inside the tree has parts of the right roles. -/
def WellPlaced (node : Node) : Prop :=
  ∀ part ∈ node.subtrees, part.PartsFit

instance (node : Node) : Decidable node.WellPlaced :=
  inferInstanceAs (Decidable (∀ part ∈ node.subtrees, _))

theorem wellPlaced_iff {node : Node} :
    node.WellPlaced ↔ ∀ place ∈ node.places, place.2.role? = some place.1 ∧ place.2.WellPlaced := by
  constructor
  · refine fun h place hplace => ⟨h node (mem_subtrees.2 (.inl rfl)) place hplace, ?_⟩
    exact fun part hpart => h part (mem_subtrees.2 (.inr ⟨place, hplace, hpart⟩))
  · intro h part hpart
    rcases mem_subtrees.1 hpart with rfl | ⟨place, hplace, hpart⟩
    · exact fun place hplace => (h place hplace).1
    · exact (h place hplace).2 part hpart

end Node

end MonkeyLang
