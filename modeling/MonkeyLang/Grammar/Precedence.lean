import MonkeyLang.Token.Basic

/-!
# Precedence

How strongly operators bind, from lowest to highest.  `Precedence.ofKind` is the precedence with
which a token continues the expression before it; a token that continues none has the lowest one.
-/

namespace MonkeyLang

/-- The levels of binding strength. -/
inductive Precedence
  | lowest | equals | lessGreater | sum | product | unary | call | index
  deriving DecidableEq

namespace Precedence

/-- The levels, from lowest to highest. -/
def all : List Precedence :=
  [.lowest, .equals, .lessGreater, .sum, .product, .unary, .call, .index]

theorem mem_all (p : Precedence) : p ∈ all := by
  cases p <;> decide

/-- The place of a level among the others. -/
def rank : Precedence → Nat
  | .lowest => 1
  | .equals => 2
  | .lessGreater => 3
  | .sum => 4
  | .product => 5
  | .unary => 6
  | .call => 7
  | .index => 8

theorem rank_le_index (p : Precedence) : p.rank ≤ index.rank := by
  cases p <;> decide

instance : LT Precedence := ⟨fun p q => p.rank < q.rank⟩

instance (p q : Precedence) : Decidable (p < q) :=
  inferInstanceAs (Decidable (p.rank < q.rank))

/-- The word for a level. -/
def name : Precedence → String
  | .lowest => "LOWEST"
  | .equals => "EQUALS"
  | .lessGreater => "LESSGREATER"
  | .sum => "SUM"
  | .product => "PRODUCT"
  | .unary => "PREFIX"
  | .call => "CALL"
  | .index => "INDEX"

/-- The level that has a given name. -/
def ofName? (text : String) : Option Precedence :=
  all.find? fun p => p.name == text

/-- How strongly a token of this kind binds the expression before it. -/
def ofKind : TokenKind → Precedence
  | .eq | .notEq => .equals
  | .lt | .gt => .lessGreater
  | .plus | .minus => .sum
  | .slash | .asterisk => .product
  | .lparen => .call
  | .lbracket => .index
  | _ => .lowest

end Precedence

end MonkeyLang
