import MonkeyLang.Proofs.Numeral
import MonkeyLang.Proofs.Subtree

/-!
# Programs are made of whole nodes

A reading that fails half way leaves diagnostics, and it could also leave a node with a part missing
or a literal without its value.  It does not: `Node.IsWhole` says what a tree must be at its root,
its parts (`Node.PartsFit`) and what stands in the node itself (`Node.TextFits`), and every tree
inside the program that is read from a text is whole (`parse_isWhole`), whatever the text.
-/

namespace MonkeyLang

/-- What stands in a node besides its parts: names are names, literals have the value of their text,
and operators are operators. -/
def Node.TextFits : Node → Prop
  | letStatement _ target _ => IsName target.name
  | identifier ident => IsName ident.name
  | function _ parameters _ => ∀ parameter ∈ parameters, IsName parameter.name
  | integer token value => IsNumeral token.literal ∧ value = Text.decimalValue token.literal ∧
      0 ≤ value ∧ value ≤ 2 ^ 63 - 1
  | boolean token value => token.literal = if value then "true" else "false"
  | unary _ operator _ => operator ∈ ["!", "-"]
  | binary _ _ operator _ => operator ∈ ["==", "!=", "<", ">", "+", "-", "/", "*"]
  | foreign .. => False
  | _ => True

/-- A tree with all its parts, each of the role that its place calls for, and with a text that
fits. -/
def Node.IsWhole (node : Node) : Prop :=
  node.PartsFit ∧ node.TextFits

theorem TokenKind.IsPrefix.text_mem {kind : TokenKind} (h : kind.IsPrefix) :
    kind.text ∈ ["!", "-"] := by
  rcases h with rfl | rfl <;> decide

theorem TokenKind.IsInfix.text_mem {kind : TokenKind} (h : kind.IsInfix) :
    kind.text ∈ ["==", "!=", "<", ">", "+", "-", "/", "*"] :=
  List.mem_map_of_mem h

namespace Formed

variable {role : Role} {node : Node}

theorem role?_eq (h : Formed role node) : node.role? = some role := by
  cases h <;> rfl

/-- The parts of a well-formed tree are well formed, in the roles that their places call for. -/
theorem places (h : Formed role node) : ∀ place ∈ node.places, Formed place.1 place.2 := by
  cases h with
  | identifier | integer | string | boolean | bareReturn => exact List.forall_mem_nil _
  | unary _ h | function _ h | letStatement _ h | returnStatement h | expressionStatement h =>
    exact List.forall_mem_singleton.2 h
  | binary _ hfirst hsecond | conditional hfirst hsecond | index hfirst hsecond =>
    exact List.forall_mem_cons.2 ⟨hfirst, List.forall_mem_singleton.2 hsecond⟩
  | alternative hcondition hconsequence halternative =>
    exact List.forall_mem_cons.2 ⟨hcondition, List.forall_mem_cons.2
      ⟨hconsequence, List.forall_mem_singleton.2 halternative⟩⟩
  | array hparts | block hparts => exact List.forall_mem_map.2 hparts
  | call hcallee harguments =>
    exact List.forall_mem_cons.2 ⟨hcallee, List.forall_mem_map.2 harguments⟩
  | hash hkeys hvalues =>
    refine List.forall_mem_flatMap.2 fun pair hpair => ?_
    have hvalue := hvalues pair hpair
    exact List.forall_mem_cons.2 ⟨hkeys pair hpair, List.forall_mem_singleton.2 hvalue⟩

theorem partsFit (h : Formed role node) : node.PartsFit :=
  fun place hplace => (h.places place hplace).role?_eq

theorem textFits (h : Formed role node) : node.TextFits := by
  cases h with
  | identifier hname | letStatement hname => exact hname
  | integer hliteral hvalue hle =>
    rw [Text.readInteger_of_isNumeral hliteral] at hvalue
    split at hvalue
    · cases hvalue
    · cases hvalue
      exact ⟨hliteral, rfl, Int.natCast_nonneg _, hle⟩
  | boolean value => cases value <;> rfl
  | unary hkind => exact hkind.text_mem
  | binary hkind => exact hkind.text_mem
  | function hnames =>
    intro parameter hparameter
    obtain ⟨name, hname, rfl⟩ := List.mem_map.1 hparameter
    exact hnames name hname
  | _ => trivial

theorem isWhole (h : Formed role node) : node.IsWhole :=
  ⟨h.partsFit, h.textFits⟩

/-- All trees inside a well-formed tree are well formed. -/
theorem exists_of_mem_subtrees (h : Formed role node) {part : Node} (hpart : part ∈ node.subtrees) :
    ∃ role, Formed role part := by
  induction node using Node.places_induction generalizing role with
  | step node ih =>
    rcases Node.mem_subtrees.1 hpart with rfl | ⟨place, hplace, hpart⟩
    · exact ⟨role, h⟩
    · exact ih place hplace (h.places place hplace) hpart

theorem wellPlaced (h : Formed role node) : node.WellPlaced := by
  intro part hpart
  obtain ⟨role, hformed⟩ := h.exists_of_mem_subtrees hpart
  exact hformed.partsFit

end Formed

theorem formed_of_mem_places (text : List Char) :
    ∀ place ∈ (parse text).program.places, Formed place.1 place.2 := by
  obtain ⟨statements, hprogram, hformed⟩ := exists_formed_program text
  rw [hprogram]
  exact List.forall_mem_map.2 hformed

theorem parse_wellPlaced (text : List Char) : (parse text).program.WellPlaced :=
  Node.wellPlaced_iff.2 fun place hplace =>
    have h := formed_of_mem_places text place hplace
    ⟨h.role?_eq, h.wellPlaced⟩

/-- **No node is left half built.**  Whatever the text and the diagnostics that it leaves, what is
read from it is a program, and every tree inside it is whole. -/
theorem parse_isWhole (text : List Char) :
    (∃ statements, (parse text).program = .program statements) ∧
      ∀ node ∈ (parse text).program.subtrees, node.IsWhole := by
  obtain ⟨statements, hprogram, -⟩ := exists_formed_program text
  refine ⟨⟨statements, hprogram⟩, fun node hnode => ?_⟩
  rcases Node.mem_subtrees.1 hnode with rfl | ⟨place, hplace, hnode⟩
  · refine ⟨fun place hplace => (formed_of_mem_places text place hplace).role?_eq, ?_⟩
    rw [hprogram]
    trivial
  · obtain ⟨role, h⟩ := (formed_of_mem_places text place hplace).exists_of_mem_subtrees hnode
    exact h.isWhole

end MonkeyLang
