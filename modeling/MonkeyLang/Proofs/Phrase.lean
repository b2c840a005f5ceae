import MonkeyLang.Grammar.Precedence
import MonkeyLang.Proofs.Lexeme
import MonkeyLang.Syntax.Node

/-!
# Phrases

The vocabulary in which the modules after this one speak of trees and of the tokens that they are
written with.

* `TokenKind.IsPrefix` and `TokenKind.IsInfix` are the kinds of the operators;
* `Identifier.ofName` and `Token.ofBool` are the tree of a name and the token of a truth value;
* a `Phrase` is a part of a program with tokens of its own: an expression, a block, a statement, or
  a list of statements, of items or of pairs.
-/

namespace MonkeyLang

/-- The kinds of the operators that stand in front of their operand. -/
def TokenKind.IsPrefix (kind : TokenKind) : Prop :=
  kind = .bang ∨ kind = .minus

/-- The kinds of the operators that stand between their operands. -/
def TokenKind.IsInfix (kind : TokenKind) : Prop :=
  kind ∈ [.eq, .notEq, .lt, .gt, .plus, .minus, .slash, .asterisk]

theorem TokenKind.IsPrefix.isSign {kind : TokenKind} (h : kind.IsPrefix) : kind.IsSign := by
  rcases h with rfl | rfl <;> decide

theorem TokenKind.IsInfix.isSign {kind : TokenKind} (h : kind.IsInfix) : kind.IsSign := by
  simp only [IsInfix, List.mem_cons, List.not_mem_nil, or_false] at h
  rcases h with rfl | rfl | rfl | rfl | rfl | rfl | rfl | rfl <;> decide

theorem TokenKind.IsInfix.lowest_lt {kind : TokenKind} (h : kind.IsInfix) :
    .lowest < Precedence.ofKind kind := by
  simp only [IsInfix, List.mem_cons, List.not_mem_nil, or_false] at h
  rcases h with rfl | rfl | rfl | rfl | rfl | rfl | rfl | rfl <;> decide

theorem TokenKind.IsInfix.rank_lt_unary {kind : TokenKind} (h : kind.IsInfix) :
    (Precedence.ofKind kind).rank < Precedence.unary.rank := by
  simp only [IsInfix, List.mem_cons, List.not_mem_nil, or_false] at h
  rcases h with rfl | rfl | rfl | rfl | rfl | rfl | rfl | rfl <;> decide

/-- A token that continues an expression is an infix operator or an opening bracket. -/
theorem TokenKind.isInfix_of_lt {p : Precedence} {kind : TokenKind} (h : p < .ofKind kind)
    (hparen : kind ≠ .lparen) (hbracket : kind ≠ .lbracket) : kind.IsInfix := by
  have hlowest : ¬ p < .lowest := by cases p <;> decide
  cases kind <;> simp_all [IsInfix, Precedence.ofKind]

theorem TokenKind.isSign_of_lt {p : Precedence} {kind : TokenKind} (h : p < .ofKind kind) :
    kind.IsSign := by
  have hlowest : ¬ p < .lowest := by cases p <;> decide
  cases kind <;> simp_all [IsSign, Precedence.ofKind]

/-- A name with its token. -/
def Identifier.ofName (name : String) : Identifier := ⟨⟨.ident, name⟩, name⟩

/-- The token of a truth value. -/
def Token.ofBool (value : Bool) : Token := if value then .sign .true else .sign .false

/-- The tokens of a list of names, with commas between them. -/
def nameTokens : List String → List Token
  | [] => []
  | name :: names => ⟨.ident, name⟩ :: names.flatMap fun name => [.sign .comma, ⟨.ident, name⟩]

/-- A part of a program that has tokens of its own. -/
inductive Phrase
  | expression (e : Node)
  | block (b : Node)
  | statement (s : Node)
  | statements (ss : List Node)
  | items (es : List Node)
  | pairs (ps : List (Node × Node))

end MonkeyLang
