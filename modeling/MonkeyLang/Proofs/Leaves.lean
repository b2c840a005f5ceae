import MonkeyLang.Grammar.Expression
import MonkeyLang.Proofs.Rule

/-!
# What the rules of the grammar leave

Every rule of the grammar, given a rule for expressions that leaves the end of its tokens, leaves
the end of its own tokens, and so does the rule for expressions at every depth
(`expressionWithin_leaves`).
-/

namespace MonkeyLang.Grammar

open Rule

variable {expr : ExpressionRule}

theorem name_leaves : Leaves name :=
  .bind .current fun _ => .pure _

theorem letStatement_leaves (h : ∀ p, Leaves (expr p)) : Leaves (letStatement expr) :=
  .bind .current fun _ => .bind (.expect _) fun _ => .bind name_leaves fun _ =>
    .bind (.expect _) fun _ => .bind .advance fun _ => .bind (h _).attempt fun _ =>
      .bind (.skip _) fun _ => .bind (.ofOption _) fun _ => .pure _

theorem returnStatement_leaves (h : ∀ p, Leaves (expr p)) : Leaves (returnStatement expr) := by
  refine .bind .current fun _ => .bind .next fun t => ?_
  split
  · exact .bind .advance fun _ => .pure _
  · exact .pure _
  · exact .pure _
  · exact .bind .advance fun _ => .bind (h _).attempt fun _ => .bind (.skip _) fun _ =>
      .bind (.ofOption _) fun _ => .pure _

theorem expressionStatement_leaves (h : ∀ p, Leaves (expr p)) :
    Leaves (expressionStatement expr) :=
  .bind .current fun _ => .bind (h _).attempt fun _ => .bind (.skip _) fun _ =>
    .bind (.ofOption _) fun _ => .pure _

theorem statement_leaves (h : ∀ p, Leaves (expr p)) : Leaves (statement expr) := by
  refine .bind .current fun t => ?_
  split
  · exact letStatement_leaves h
  · exact returnStatement_leaves h
  · exact expressionStatement_leaves h

theorem statementRound_leaves (h : ∀ p, Leaves (expr p)) :
    Leaves (do let found ← attempt (statement expr); advance; return found) :=
  .bind (statement_leaves h).attempt fun _ => .bind .advance fun _ => .pure _

theorem statements_leaves (h : ∀ p, Leaves (expr p)) (ends : TokenKind → Bool) :
    Leaves (statements expr ends) :=
  .bind (.many _ (statementRound_leaves h)) fun _ => .pure _

theorem block_leaves (h : ∀ p, Leaves (expr p)) : Leaves (block expr) :=
  .bind .current fun _ => .bind .advance fun _ => .bind (statements_leaves h _) fun _ => .pure _

theorem integer_leaves : Leaves integer := by
  refine .bind .current fun t => ?_
  split
  · exact .reject _
  · exact .ite (.reject _) (.pure _)

theorem unary_leaves (h : ∀ p, Leaves (expr p)) : Leaves (unary expr) :=
  .bind .current fun _ => .bind .advance fun _ => .bind (h _) fun _ => .pure _

theorem grouped_leaves (h : ∀ p, Leaves (expr p)) : Leaves (grouped expr) :=
  .bind .advance fun _ => .bind (h _).attempt fun _ => .bind (.expect _) fun _ => .ofOption _

theorem elseBlock_leaves (h : ∀ p, Leaves (expr p)) : Leaves (elseBlock expr) :=
  .bind .next fun _ => .ite (.bind .advance fun _ => .bind (.expect _) fun _ =>
    .bind (block_leaves h) fun _ => .pure _) (.pure _)

theorem conditional_leaves (h : ∀ p, Leaves (expr p)) : Leaves (conditional expr) :=
  .bind .current fun _ => .bind (.expect _) fun _ => .bind .advance fun _ =>
    .bind (h _).attempt fun _ => .bind (.expect _) fun _ => .bind (.expect _) fun _ =>
      .bind (block_leaves h) fun _ => .bind (elseBlock_leaves h) fun _ =>
        .bind (.ofOption _) fun _ => .pure _

theorem parameterRound_leaves : Leaves (do advance; expect .ident; name) :=
  .bind .advance fun _ => .bind (.expect _) fun _ => name_leaves

theorem parameters_leaves : Leaves parameters :=
  .bind .next fun _ => .ite (.bind .advance fun _ => .pure _) (.bind (.expect _) fun _ =>
    .bind name_leaves fun _ => .bind (.many _ parameterRound_leaves) fun _ =>
      .bind (.expect _) fun _ => .pure _)

theorem function_leaves (h : ∀ p, Leaves (expr p)) : Leaves (function expr) :=
  .bind .current fun _ => .bind (.expect _) fun _ => .bind parameters_leaves fun _ =>
    .bind (.expect _) fun _ => .bind (block_leaves h) fun _ => .pure _

theorem itemRound_leaves (h : ∀ p, Leaves (expr p)) :
    Leaves (do advance; advance; attempt (expr .lowest)) :=
  .bind .advance fun _ => .bind .advance fun _ => (h _).attempt

theorem items_leaves (h : ∀ p, Leaves (expr p)) (closing : TokenKind) :
    Leaves (items expr closing) :=
  .bind .next fun _ => .ite (.bind .advance fun _ => .pure _) (.bind .advance fun _ =>
    .bind (h _).attempt fun _ => .bind (.many _ (itemRound_leaves h)) fun _ =>
      .bind (.expect _) fun _ => .ofOption _)

theorem array_leaves (h : ∀ p, Leaves (expr p)) : Leaves (array expr) :=
  .bind .current fun _ => .bind (items_leaves h _) fun _ => .pure _

theorem pair_leaves (h : ∀ p, Leaves (expr p)) : Leaves (pair expr) :=
  .bind .advance fun _ => .bind (h _).attempt fun _ => .bind (.expect _) fun _ =>
    .bind .advance fun _ => .bind (h _).attempt fun _ => .bind (.ofOption _) fun _ =>
      .bind (.ofOption _) fun _ => .bind .next fun _ =>
        .ite (.pure _) (.bind (.expect _) fun _ => .pure _)

theorem hash_leaves (h : ∀ p, Leaves (expr p)) : Leaves (hash expr) :=
  .bind .current fun _ => .bind (.many _ (pair_leaves h)) fun _ => .bind (.expect _) fun _ =>
    .pure _

theorem operand_leaves (h : ∀ p, Leaves (expr p)) : Leaves (operand expr) := by
  refine .bind .current fun t => ?_
  split
  · exact .bind name_leaves fun _ => .pure _
  · exact integer_leaves
  · exact .bind .current fun _ => .pure _
  · exact function_leaves h
  · exact unary_leaves h
  · exact unary_leaves h
  · exact grouped_leaves h
  · exact conditional_leaves h
  · exact .bind .current fun _ => .pure _
  · exact .bind .current fun _ => .pure _
  · exact array_leaves h
  · exact hash_leaves h
  · exact .reject _

theorem binary_leaves (h : ∀ p, Leaves (expr p)) (left : Node) : Leaves (binary expr left) :=
  .bind .current fun _ => .bind .advance fun _ => .bind (h _) fun _ => .pure _

theorem call_leaves (h : ∀ p, Leaves (expr p)) (callee : Node) : Leaves (call expr callee) :=
  .bind .current fun _ => .bind (items_leaves h _) fun _ => .pure _

theorem index_leaves (h : ∀ p, Leaves (expr p)) (target : Node) : Leaves (index expr target) :=
  .bind .current fun _ => .bind .advance fun _ => .bind (h _).attempt fun _ =>
    .bind (.expect _) fun _ => .bind (.ofOption _) fun _ => .pure _

theorem continuation_leaves (h : ∀ p, Leaves (expr p)) (left : Node) :
    Leaves (continuation expr left) := by
  refine .bind .advance fun _ => .bind .current fun t => ?_
  split
  · exact call_leaves h left
  · exact index_leaves h left
  · exact binary_leaves h left

theorem climb_leaves (h : ∀ p, Leaves (expr p)) (p : Precedence) (left : Node) :
    Leaves (climb expr p left) :=
  .iterate _ (continuation_leaves h) left

theorem expressionWithin_leaves (depth : Nat) (p : Precedence) :
    Leaves (expressionWithin depth p) := by
  induction depth generalizing p with
  | zero => exact .bind .current fun _ => .reject _
  | succ depth ih => exact .bind (operand_leaves ih) fun left => climb_leaves ih p left

theorem expression_leaves (p : Precedence) : Leaves (expression p) :=
  fun ts => expressionWithin_leaves (ts.length + 1) p ts

end MonkeyLang.Grammar
