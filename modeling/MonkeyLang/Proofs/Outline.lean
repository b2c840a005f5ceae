import MonkeyLang.Proofs.Erasure
import MonkeyLang.Proofs.Whole
import MonkeyLang.Syntax.Outline

/-!
# Outlines show everything but tokens

An outline leaves out parts that are absent, puts lists of parts in line with other parts, and shows
numbers and truth values as text.  Nothing is lost by this: the tree can be read back from it.

* `Outline.parts` reads what outlines show; `Outline.Part.ofBranch?` says what a branch with a given
  label and given parts shows;
* `Formed.recovers` says that the outline of a tree shows that tree, its tokens aside;
* `outline_faithful` draws the conclusion for the programs that are read from texts.
-/

namespace MonkeyLang

namespace Outline

/-! ### What outlines show -/

/-- What a leaf or a branch shows: a text, a tree, or a pair of trees. -/
inductive Part
  | text (text : String)
  | node (node : Node)
  | pair (key value : Node)

namespace Part

/-- The tree that is shown, if it is one. -/
def node? : Part → Option Node
  | node tree => some tree
  | _ => none

/-- The pair that is shown, if it is one. -/
def pair? : Part → Option (Node × Node)
  | pair key value => some (key, value)
  | _ => none

/-- The parameter that is shown, if the tree is an identifier. -/
def identifier? : Part → Option Identifier
  | node (.identifier ident) => some ident
  | _ => none

/-- What a branch shows.  Its tree has no tokens, as an outline shows none. -/
def ofBranch? : String → List Part → Option Part
  | "program", parts => some (node (.program (parts.filterMap node?)))
  | "let_statement", [node (.identifier target), node value] =>
    some (node (.letStatement .eof target value))
  | "return_statement", [] => some (node (.returnStatement .eof none))
  | "return_statement", [node value] => some (node (.returnStatement .eof (some value)))
  | "expression_statement", [node expression] => some (node (.expressionStatement .eof expression))
  | "block_statement", parts => some (node (.block .eof (parts.filterMap node?)))
  | "identifier", [text name] => some (node (.identifier ⟨.eof, name⟩))
  | "integer_literal", [text digits] =>
    some (node (.integer .eof (Nat.ofDigitChars 10 digits.toList 0)))
  | "string_literal", [text value] => some (node (.string .eof value))
  | "boolean", [text value] => some (node (.boolean .eof (value == "True")))
  | "prefix_expression", [text operator, node right] => some (node (.unary .eof operator right))
  | "infix_expression", [node left, text operator, node right] =>
    some (node (.binary .eof left operator right))
  | "if_expression", [node condition, node consequence] =>
    some (node (.conditional .eof condition consequence none))
  | "if_expression", [node condition, node consequence, node alternative] =>
    some (node (.conditional .eof condition consequence (some alternative)))
  | "function_literal", parts =>
    (parts.getLast?.bind node?).map fun body =>
      node (.function .eof (parts.dropLast.filterMap identifier?) body)
  | "call_expression", node callee :: parts =>
    some (node (.call .eof callee (parts.filterMap node?)))
  | "array_literal", parts => some (node (.array .eof (parts.filterMap node?)))
  | "index_expression", [node target, node position] => some (node (.index .eof target position))
  | "hash_literal", parts => some (node (.hash .eof (parts.filterMap pair?)))
  | "pair", [node key, node value] => some (pair key value)
  | _, _ => none

end Part

mutual

/-- What an outline shows. -/
def part? : Outline → Option Part
  | leaf _ text => some (.text text)
  | branch label children => Part.ofBranch? label (parts children)

/-- What several outlines show, those that show nothing left out. -/
def parts : List Outline → List Part
  | [] => []
  | outline :: outlines => outline.part?.toList ++ parts outlines

end

@[simp] theorem parts_cons_operator (text : String) (outlines : List Outline) :
    parts (operator text :: outlines) = .text text :: parts outlines := rfl

@[simp] theorem parts_cons_identifier (ident : Identifier) (outlines : List Outline) :
    parts (ident.outline :: outlines) =
      .node (.identifier ⟨.eof, ident.name⟩) :: parts outlines := rfl

@[simp] theorem parts_cons_branch (label : String) (children outlines : List Outline) :
    parts (branch label children :: outlines) =
      (Part.ofBranch? label (parts children)).toList ++ parts outlines := rfl

@[simp] theorem parts_append (first second : List Outline) :
    parts (first ++ second) = parts first ++ parts second := by
  induction first with
  | nil => rfl
  | cons outline first ih => simp [parts, ih]

/-- The parameters that the outlines of parameters show. -/
theorem filterMap_identifier?_parts (parameters : List Identifier) :
    (parts (parameters.map (·.outline))).filterMap Part.identifier? =
      parameters.map fun p => ⟨.eof, p.name⟩ := by
  induction parameters with
  | nil => rfl
  | cons p parameters ih => simp [Part.identifier?, ih]

/-- The number that its digits stand for. -/
theorem ofDigitChars_repr (n : Nat) : Nat.ofDigitChars 10 (n : Int).repr.toList 0 = n := by
  change Nat.ofDigitChars 10 n.repr.toList 0 = n
  rw [Nat.repr_eq_ofList_toDigits, String.toList_ofList, Nat.ofDigitChars_ten_toDigits]

/-- The outline of a tree shows the tree without its tokens. -/
def Recovers (node : Node) : Prop :=
  parts node.outline?.toList = [.node node.withoutTokens]

/-- The trees that the outlines of trees show. -/
theorem filterMap_node?_parts {nodes : List Node} (h : ∀ node ∈ nodes, Recovers node) :
    (parts (Node.outlines nodes)).filterMap Part.node? = nodes.map Node.withoutTokens := by
  induction nodes with
  | nil => rfl
  | cons node nodes ih =>
    obtain ⟨hnode, hnodes⟩ := List.forall_mem_cons.1 h
    rw [Recovers] at hnode
    simp [Node.outlines, hnode, Part.node?, ih hnodes]

/-- The pairs that the outlines of pairs show. -/
theorem filterMap_pair?_parts {pairs : List (Node × Node)} (hkeys : ∀ p ∈ pairs, Recovers p.1)
    (hvalues : ∀ p ∈ pairs, Recovers p.2) :
    (parts (Node.pairOutlines pairs)).filterMap Part.pair? =
      pairs.map fun p => (p.1.withoutTokens, p.2.withoutTokens) := by
  induction pairs with
  | nil => rfl
  | cons p pairs ih =>
    obtain ⟨hkey, hkeys⟩ := List.forall_mem_cons.1 hkeys
    obtain ⟨hvalue, hvalues⟩ := List.forall_mem_cons.1 hvalues
    rw [Recovers] at hkey hvalue
    have hpair : Part.ofBranch? "pair" [.node p.1.withoutTokens, .node p.2.withoutTokens] =
        some (.pair p.1.withoutTokens p.2.withoutTokens) := rfl
    simp [Node.pairOutlines, hkey, hvalue, hpair, Part.pair?, ih hkeys hvalues]

end Outline

/-! ### Trees without their tokens -/

namespace Node

theorem withoutTokens_program (statements : List Node) :
    (program statements).withoutTokens = program (statements.map withoutTokens) :=
  retoken_program _ _ statements

theorem withoutTokens_block (token : Token) (statements : List Node) :
    (block token statements).withoutTokens = block .eof (statements.map withoutTokens) :=
  retoken_block _ _ token statements

theorem withoutTokens_call (token : Token) (callee : Node) (arguments : List Node) :
    (call token callee arguments).withoutTokens =
      call .eof callee.withoutTokens (arguments.map withoutTokens) :=
  retoken_call _ _ token callee arguments

theorem withoutTokens_array (token : Token) (elements : List Node) :
    (array token elements).withoutTokens = array .eof (elements.map withoutTokens) :=
  retoken_array _ _ token elements

theorem withoutTokens_hash (token : Token) (pairs : List (Node × Node)) :
    (hash token pairs).withoutTokens =
      hash .eof (pairs.map fun p => (p.1.withoutTokens, p.2.withoutTokens)) :=
  retoken_hash _ _ token pairs

mutual

/-- An outline does not show tokens. -/
theorem retoken_outline? (lead own : Token → Token) :
    (node : Node) → (node.retoken lead own).outline? = node.outline?
  | program statements => by simp [retoken, outline?, retokenEach_outlines lead own statements]
  | letStatement token target value => by
    simp [retoken, outline?, Identifier.outline, retoken_outline? lead own value]
  | returnStatement token none => by simp [retoken, outline?]
  | returnStatement token (some value) => by
    simp [retoken, outline?, retoken_outline? lead own value]
  | expressionStatement token expression => by
    simp [retoken, outline?, retoken_outline? lead own expression]
  | block token statements => by simp [retoken, outline?, retokenEach_outlines lead own statements]
  | identifier ident => by simp [retoken, outline?, Identifier.outline]
  | integer token value => by simp [retoken, outline?]
  | string token value => by simp [retoken, outline?]
  | boolean token value => by simp [retoken, outline?]
  | unary token operator right => by simp [retoken, outline?, retoken_outline? lead own right]
  | binary token left operator right => by
    simp [retoken, outline?, retoken_outline? lead own left, retoken_outline? lead own right]
  | conditional token condition consequence none => by
    simp [retoken, outline?, retoken_outline? lead own condition,
      retoken_outline? lead own consequence]
  | conditional token condition consequence (some alternative) => by
    simp [retoken, outline?, retoken_outline? lead own condition,
      retoken_outline? lead own consequence, retoken_outline? lead own alternative]
  | function token parameters body => by
    simp [retoken, outline?, Identifier.outline, retoken_outline? lead own body]
  | call token callee arguments => by
    simp [retoken, outline?, retoken_outline? lead own callee,
      retokenEach_outlines lead own arguments]
  | array token elements => by simp [retoken, outline?, retokenEach_outlines lead own elements]
  | index token target position => by
    simp [retoken, outline?, retoken_outline? lead own target, retoken_outline? lead own position]
  | hash token pairs => by simp [retoken, outline?, retokenPairs_pairOutlines lead own pairs]
  | foreign kind text => by simp [retoken, outline?]

theorem retokenEach_outlines (lead own : Token → Token) :
    (nodes : List Node) → outlines (retokenEach lead own nodes) = outlines nodes
  | [] => rfl
  | node :: nodes => by
    simp [retokenEach, outlines, retoken_outline? lead own node,
      retokenEach_outlines lead own nodes]

theorem retokenPairs_pairOutlines (lead own : Token → Token) :
    (pairs : List (Node × Node)) →
      pairOutlines (retokenPairs lead own pairs) = pairOutlines pairs
  | [] => rfl
  | (key, value) :: pairs => by
    simp [retokenPairs, pairOutlines, retoken_outline? lead own key,
      retoken_outline? lead own value, retokenPairs_pairOutlines lead own pairs]

end

/-- Trees that differ in their tokens alone have the same outline. -/
theorem outline?_eq_of_withoutTokens_eq {a b : Node} (h : a.withoutTokens = b.withoutTokens) :
    a.outline? = b.outline? := by
  rw [← retoken_outline? (fun _ => .eof) (fun _ => .eof) a]
  exact (congrArg outline? h).trans (retoken_outline? _ _ b)

end Node

/-! ### Reading trees back -/

open Outline in
/-- **The outline of a tree that the grammar can build shows that tree**, its tokens aside. -/
theorem Formed.recovers {role : Role} {node : Node} (h : Formed role node) : Recovers node := by
  unfold Recovers
  induction h with
  | identifier | string | bareReturn => rfl
  | @integer literal value hliteral hvalue hle =>
    obtain ⟨n, rfl⟩ := Int.eq_ofNat_of_zero_le (Formed.integer hliteral hvalue hle).textFits.2.2.1
    change [Part.node (.integer .eof (Nat.ofDigitChars 10 (n : Int).repr.toList 0))] = _
    rw [ofDigitChars_repr]
    rfl
  | boolean value => cases value <;> rfl
  | unary _ _ ih | letStatement _ _ ih | returnStatement _ ih | expressionStatement _ ih =>
    simp only [Node.outline?, Option.toList_some, parts_cons_branch, parts_cons_operator,
      parts_cons_identifier, ih]
    rfl
  | binary _ _ _ ihfirst ihsecond | conditional _ _ ihfirst ihsecond | index _ _ ihfirst ihsecond =>
    simp only [Node.outline?, Option.toList_some, parts_cons_branch, parts_cons_operator,
      parts_append, ihfirst, ihsecond]
    rfl
  | alternative _ _ _ ihcondition ihconsequence ihalternative =>
    simp only [Node.outline?, Option.toList_some, parts_cons_branch, parts_append, ihcondition,
      ihconsequence, ihalternative]
    rfl
  | @function names body _ _ ih =>
    -- the body is the last of the parts, and the parameters are the others
    change (((parts (_ ++ body.outline?.toList)).getLast?.bind Part.node?).map
      fun body => Part.node (.function .eof _ body)).toList ++ [] = _
    rw [parts_append, ih, List.getLast?_concat, List.dropLast_concat, filterMap_identifier?_parts]
    rfl
  | @call callee arguments _ _ ihcallee iharguments =>
    simp only [Node.outline?, Option.toList_some, parts_cons_branch, parts_append, ihcallee]
    change [Part.node (.call .eof _ ((parts (Node.outlines arguments)).filterMap Part.node?))] = _
    rw [filterMap_node?_parts iharguments, Node.withoutTokens_call]
  | @array elements _ ih =>
    change [Part.node (.array .eof ((parts (Node.outlines elements)).filterMap Part.node?))] = _
    rw [filterMap_node?_parts ih, Node.withoutTokens_array]
  | @hash pairs _ _ ihkeys ihvalues =>
    change [Part.node (.hash .eof ((parts (Node.pairOutlines pairs)).filterMap Part.pair?))] = _
    rw [filterMap_pair?_parts ihkeys ihvalues, Node.withoutTokens_hash]
  | @block statements _ ih =>
    change [Part.node (.block .eof ((parts (Node.outlines statements)).filterMap Part.node?))] = _
    rw [filterMap_node?_parts ih, Node.withoutTokens_block]

open Outline in
/-- The outline of a program shows the program. -/
theorem parse_recovers (text : List Char) : Recovers (parse text).program := by
  obtain ⟨statements, hprogram, hformed⟩ := exists_formed_program text
  have hstatements := filterMap_node?_parts fun s hs => (hformed s hs).recovers
  rw [hprogram]
  change [Part.node (.program ((parts (Node.outlines statements)).filterMap Part.node?))] = _
  rw [hstatements, Node.withoutTokens_program]

/-- **Outlines are faithful.**  Every program that is read from a text has an outline, whatever
diagnostics the text leaves, and two of them have the same outline if and only if they differ in
their tokens alone. -/
theorem outline_faithful (text text' : List Char) :
    ∃ outline outline', (parse text).program.outline? = some outline ∧
      (parse text').program.outline? = some outline' ∧
      (outline = outline' ↔
        (parse text).program.withoutTokens = (parse text').program.withoutTokens) := by
  have hsome (text : List Char) : ∃ outline, (parse text).program.outline? = some outline := by
    obtain ⟨statements, hprogram, -⟩ := exists_formed_program text
    exact ⟨_, by rw [hprogram, Node.outline?]⟩
  obtain ⟨outline, houtline⟩ := hsome text
  obtain ⟨outline', houtline'⟩ := hsome text'
  refine ⟨outline, outline', houtline, houtline', fun heq => ?_, fun heq => ?_⟩
  · have hshown := parse_recovers text
    have hshown' := parse_recovers text'
    rw [Outline.Recovers, houtline] at hshown
    rw [Outline.Recovers, houtline', ← heq, hshown] at hshown'
    simpa using hshown'
  · have hsame := Node.outline?_eq_of_withoutTokens_eq heq
    rw [houtline, houtline'] at hsame
    exact Option.some.inj hsame

end MonkeyLang
