import MonkeyLang.Proofs.Rule
import MonkeyLang.Proofs.Spelling

/-!
# What the rules read

For each rule of the grammar, tokens of the form that it calls for are read without a diagnostic if
its parts are: `expr` stands for the rule for expressions, and what it reads is assumed.

A rule ends with the current token on the last one that it used.  The tokens behind a phrase are
therefore given as `last :: rest`, where `last` belongs to the phrase.
-/

namespace MonkeyLang.Grammar

open Rule

variable {expr : ExpressionRule} {t last : Token} {us rest : List Token}

/-! ### Statements -/

/-- The tokens behind a semicolon, if there is one. -/
def afterSemicolon (rest : List Token) : List Token :=
  if (currentOf rest).kind = .semicolon then rest.tail else rest

theorem skip_semicolon_reads (last : Token) (rest : List Token) :
    ∃ last', Reads (skip .semicolon) (last :: rest) () (last' :: afterSemicolon rest) := by
  unfold afterSemicolon
  split
  · next h =>
    cases rest with
    | nil => exact absurd h (by decide)
    | cons t rest => exact ⟨t, skip_reads h⟩
  · next h => exact ⟨last, skip_reads_of_ne h⟩

theorem letStatement_reads (name : String) {v : Node}
    (hv : Reads (expr .lowest) us v (last :: rest)) :
    ∃ last', Reads (letStatement expr) (.sign .let :: ⟨.ident, name⟩ :: .sign .assign :: us)
      (.letStatement (.sign .let) (.ofName name) v) (last' :: afterSemicolon rest) := by
  obtain ⟨last', hskip⟩ := skip_semicolon_reads last rest
  refine ⟨last', .bind current_reads (.bind (expect_reads rfl) (.bind rfl ?_))⟩
  refine .bind (expect_reads rfl) (.bind advance_reads (.bind hv.attempt (.bind hskip ?_)))
  exact .bind ofOption_reads pure_reads

theorem bareReturn_reads (expr : ExpressionRule)
    (h : (currentOf rest).kind = .semicolon ∨ (currentOf rest).kind = .rbrace ∨
      (currentOf rest).kind = .eof) :
    ∃ last', Reads (returnStatement expr) (.sign .return :: rest)
      (.returnStatement (.sign .return) none) (last' :: afterSemicolon rest) := by
  have hnext : nextOf (.sign .return :: rest) = currentOf rest := rfl
  unfold afterSemicolon
  rcases h with h | h
  · cases rest with
    | nil => exact absurd h (by decide)
    | cons t rest =>
      refine ⟨t, .bind current_reads (.bind next_reads ?_)⟩
      rw [if_pos h, hnext, h]
      exact .bind advance_reads pure_reads
  · refine ⟨.sign .return, .bind current_reads (.bind next_reads ?_)⟩
    rw [if_neg (by rcases h with h | h <;> simp [h]), hnext]
    rcases h with h | h <;> rw [h] <;> exact pure_reads

theorem returnStatement_reads {v : Node} (hstart : (currentOf us).kind.StartsExpression)
    (hv : Reads (expr .lowest) us v (last :: rest)) :
    ∃ last', Reads (returnStatement expr) (.sign .return :: us)
      (.returnStatement (.sign .return) (some v)) (last' :: afterSemicolon rest) := by
  obtain ⟨last', hskip⟩ := skip_semicolon_reads last rest
  refine ⟨last', .bind current_reads (.bind next_reads ?_)⟩
  have hnext : nextOf (.sign .return :: us) = currentOf us := rfl
  rw [hnext]
  split
  · next h => simp [h, TokenKind.StartsExpression] at hstart
  · next h => simp [h, TokenKind.StartsExpression] at hstart
  · next h => simp [h, TokenKind.StartsExpression] at hstart
  · refine .bind advance_reads (.bind hv.attempt (.bind hskip ?_))
    exact .bind ofOption_reads pure_reads

theorem expressionStatement_reads {e : Node} (he : Reads (expr .lowest) us e (last :: rest)) :
    ∃ last', Reads (expressionStatement expr) us (.expressionStatement (currentOf us) e)
      (last' :: afterSemicolon rest) := by
  obtain ⟨last', hskip⟩ := skip_semicolon_reads last rest
  refine ⟨last', .bind current_reads (.bind he.attempt (.bind hskip ?_))⟩
  exact .bind ofOption_reads pure_reads

theorem statement_reads_of_let {s : Node} {vs : List Token} (h : (currentOf us).kind = .let)
    (hs : Reads (letStatement expr) us s vs) : Reads (statement expr) us s vs := by
  refine .bind current_reads ?_
  rw [h]
  exact hs

theorem statement_reads_of_return {s : Node} {vs : List Token}
    (h : (currentOf us).kind = .return) (hs : Reads (returnStatement expr) us s vs) :
    Reads (statement expr) us s vs := by
  refine .bind current_reads ?_
  rw [h]
  exact hs

theorem statement_reads_of_expression {s : Node} {vs : List Token}
    (h : (currentOf us).kind.StartsExpression) (hs : Reads (expressionStatement expr) us s vs) :
    Reads (statement expr) us s vs := by
  refine .bind current_reads ?_
  split
  · next hk => simp [hk, TokenKind.StartsExpression] at h
  · next hk => simp [hk, TokenKind.StartsExpression] at h
  · exact hs

theorem statementRound_reads {s : Node} (hs : Reads (statement expr) us s (last :: rest)) :
    Reads (do let found ← attempt (statement expr); advance; return found) us (some s) rest :=
  .bind hs.attempt (.bind advance_reads pure_reads)

theorem statements_reads {ends : TokenKind → Bool} {ss : List Node}
    (h : Collects (fun ts => !ends (currentOf ts).kind)
      (do let found ← attempt (statement expr); advance; return found) us (ss.map some) rest) :
    Reads (statements expr ends) us ss rest := by
  have hall : (ss.map some).filterMap id = ss := by simp
  refine .bind h.reads ?_
  rw [hall]
  exact pure_reads

theorem block_reads {ss : List Node} (h : Reads (statements expr endsBlock) us ss rest) :
    Reads (block expr) (.sign .lbrace :: us) (.block (.sign .lbrace) ss) rest :=
  .bind current_reads (.bind advance_reads (.bind h pure_reads))

/-! ### Operands -/

theorem integer_reads {literal : String} {value : Int}
    (hvalue : Text.readInteger literal.toList = .ok value) (hle : value ≤ maxInteger) :
    Reads (operand expr) (⟨.int, literal⟩ :: rest) (.integer ⟨.int, literal⟩ value)
      (⟨.int, literal⟩ :: rest) := by
  refine .bind current_reads (.bind current_reads ?_)
  have hcurrent : (currentOf (⟨.int, literal⟩ :: rest)).literal = literal := rfl
  rw [hcurrent, hvalue]
  dsimp only
  rw [if_neg (by omega)]
  exact pure_reads

theorem boolean_reads (value : Bool) :
    Reads (operand expr) (.ofBool value :: rest) (.boolean (.ofBool value) value)
      (.ofBool value :: rest) := by
  cases value <;> rfl

theorem unary_reads {kind : TokenKind} {e : Node} (hkind : kind.IsPrefix)
    (he : Reads (expr .unary) us e rest) :
    Reads (operand expr) (.sign kind :: us) (.unary (.sign kind) kind.text e) rest := by
  have hunary : Reads (unary expr) (.sign kind :: us) (.unary (.sign kind) kind.text e) rest :=
    .bind current_reads (.bind advance_reads (.bind he pure_reads))
  rcases hkind with rfl | rfl
  · exact .bind current_reads hunary
  · exact .bind current_reads hunary

theorem grouped_reads {e : Node}
    (he : Reads (expr .lowest) us e (last :: .sign .rparen :: rest)) :
    Reads (operand expr) (.sign .lparen :: us) e (.sign .rparen :: rest) := by
  refine .bind current_reads (.bind advance_reads (.bind he.attempt ?_))
  exact .bind (expect_reads rfl) ofOption_reads

theorem elseBlock_reads {b : Node} {vs : List Token} (hb : Reads (block expr) vs b rest)
    (hvs : (currentOf vs).kind = .lbrace) :
    Reads (elseBlock expr) (t :: .sign .else :: vs) (some b) rest := by
  refine .bind next_reads (.bind advance_reads (.bind (expect_reads hvs) ?_))
  exact .bind hb pure_reads

theorem elseBlock_reads_none (h : (currentOf rest).kind ≠ .else) :
    Reads (elseBlock expr) (t :: rest) none (t :: rest) := by
  refine .bind next_reads ?_
  have hnext : (nextOf (t :: rest)).kind ≠ .else := h
  rw [if_neg hnext]
  exact pure_reads

theorem conditional_reads {c b : Node} {a : Option Node} {vs ws : List Token}
    (hc : Reads (expr .lowest) us c (last :: .sign .rparen :: vs))
    (hvs : (currentOf vs).kind = .lbrace) (hb : Reads (block expr) vs b ws)
    (ha : Reads (elseBlock expr) ws a rest) :
    Reads (operand expr) (.sign .if :: .sign .lparen :: us)
      (.conditional (.sign .if) c b a) rest := by
  refine .bind current_reads (.bind current_reads (.bind (expect_reads rfl) ?_))
  refine .bind advance_reads (.bind hc.attempt (.bind (expect_reads rfl) ?_))
  refine .bind (expect_reads hvs) (.bind hb (.bind ha ?_))
  exact .bind ofOption_reads pure_reads

theorem parameterRound_reads (text : String) :
    Reads (do advance; expect .ident; name) (t :: .sign .comma :: ⟨.ident, text⟩ :: us)
      (.ofName text) (⟨.ident, text⟩ :: us) :=
  .bind advance_reads (.bind (expect_reads rfl) rfl)

/-- Behind each name stands the closing parenthesis, or a comma and another name. -/
theorem parameterRounds_collect (t : Token) (texts : List String) (rest : List Token) : ∃ last,
    Collects (fun ts => decide ((nextOf ts).kind = .comma)) (do advance; expect .ident; name)
      (t :: (texts.flatMap (fun text => [.sign .comma, ⟨.ident, text⟩]) ++ .sign .rparen :: rest))
      (texts.map .ofName) (last :: .sign .rparen :: rest) := by
  induction texts generalizing t with
  | nil => exact ⟨t, .done rfl⟩
  | cons text texts ih =>
    obtain ⟨last, hlast⟩ := ih ⟨.ident, text⟩
    rw [List.flatMap_cons, List.append_assoc, List.cons_append, List.cons_append, List.nil_append]
    refine ⟨last, .round rfl (parameterRound_reads text) ?_ hlast⟩
    simp only [List.length_cons]
    omega

theorem parameters_reads (texts : List String) :
    Reads parameters (t :: (nameTokens texts ++ .sign .rparen :: rest)) (texts.map .ofName)
      (.sign .rparen :: rest) := by
  refine .bind next_reads ?_
  cases texts with
  | nil => exact .bind advance_reads pure_reads
  | cons text texts =>
    obtain ⟨last, hlast⟩ := parameterRounds_collect ⟨.ident, text⟩ texts rest
    refine .bind (expect_reads rfl) (.bind rfl (.bind hlast.reads ?_))
    exact .bind (expect_reads rfl) pure_reads

theorem function_reads (texts : List String) {b : Node} {vs : List Token}
    (hvs : (currentOf vs).kind = .lbrace) (hb : Reads (block expr) vs b rest) :
    Reads (operand expr)
      (.sign .function :: .sign .lparen :: (nameTokens texts ++ .sign .rparen :: vs))
      (.function (.sign .function) (texts.map .ofName) b) rest := by
  refine .bind current_reads (.bind current_reads (.bind (expect_reads rfl) ?_))
  refine .bind (parameters_reads texts) (.bind (expect_reads hvs) ?_)
  exact .bind hb pure_reads

theorem items_reads_nil {closing : TokenKind} (h : (currentOf us).kind = closing) :
    Reads (items expr closing) (t :: us) [] us := by
  refine .bind next_reads ?_
  have hnext : (nextOf (t :: us)).kind = closing := h
  rw [if_pos hnext]
  exact .bind advance_reads pure_reads

theorem items_reads {closing : TokenKind} {e : Node} {es : List Node} {vs : List Token}
    (hne : (currentOf us).kind ≠ closing) (he : Reads (expr .lowest) us e vs)
    (hes : Collects (fun ts => decide ((nextOf ts).kind = .comma))
      (do advance; advance; attempt (expr .lowest)) vs (es.map some) (last :: rest))
    (hclosing : (currentOf rest).kind = closing) :
    Reads (items expr closing) (t :: us) (e :: es) rest := by
  refine .bind next_reads ?_
  have hnext : (nextOf (t :: us)).kind ≠ closing := hne
  rw [if_neg hnext]
  refine .bind advance_reads (.bind he.attempt (.bind hes.reads (.bind (expect_reads hclosing) ?_)))
  rw [← List.map_cons, collect_map_some]
  exact ofOption_reads

theorem array_reads {es : List Node}
    (h : Reads (items expr .rbracket) (.sign .lbracket :: us) es rest) :
    Reads (operand expr) (.sign .lbracket :: us) (.array (.sign .lbracket) es) rest :=
  .bind current_reads (.bind current_reads (.bind h pure_reads))

theorem lastPair_reads {k v : Node} {vs : List Token} {mid : Token}
    (hk : Reads (expr .lowest) us k (mid :: .sign .colon :: vs))
    (hv : Reads (expr .lowest) vs v (last :: rest)) (hrest : (currentOf rest).kind = .rbrace) :
    Reads (pair expr) (t :: us) (k, v) (last :: rest) := by
  refine .bind advance_reads (.bind hk.attempt (.bind (expect_reads rfl) ?_))
  refine .bind advance_reads (.bind hv.attempt (.bind ofOption_reads (.bind ofOption_reads ?_)))
  refine .bind next_reads ?_
  have hnext : (nextOf (last :: rest)).kind = .rbrace := hrest
  rw [if_pos hnext]
  exact pure_reads

theorem pair_reads {k v : Node} {vs : List Token} {mid : Token}
    (hk : Reads (expr .lowest) us k (mid :: .sign .colon :: vs))
    (hv : Reads (expr .lowest) vs v (last :: .sign .comma :: rest)) :
    Reads (pair expr) (t :: us) (k, v) (.sign .comma :: rest) := by
  refine .bind advance_reads (.bind hk.attempt (.bind (expect_reads rfl) ?_))
  refine .bind advance_reads (.bind hv.attempt (.bind ofOption_reads (.bind ofOption_reads ?_)))
  exact .bind next_reads (.bind (expect_reads rfl) pure_reads)

theorem hash_reads {ps : List (Node × Node)}
    (h : Collects (fun ts => decide ((nextOf ts).kind ≠ .rbrace)) (pair expr)
      (.sign .lbrace :: us) ps (last :: .sign .rbrace :: rest)) :
    Reads (operand expr) (.sign .lbrace :: us) (.hash (.sign .lbrace) ps)
      (.sign .rbrace :: rest) := by
  refine .bind current_reads (.bind current_reads (.bind h.reads ?_))
  exact .bind (expect_reads rfl) pure_reads

/-! ### Continuations -/

theorem binary_reads {kind : TokenKind} {left right : Node} (hkind : kind.IsInfix)
    (h : Reads (expr (.ofKind kind)) us right rest) :
    Reads (continuation expr left) (t :: .sign kind :: us)
      (.binary (.sign kind) left kind.text right) rest := by
  have hbinary : Reads (binary expr left) (.sign kind :: us)
      (.binary (.sign kind) left kind.text right) rest :=
    .bind current_reads (.bind advance_reads (.bind h pure_reads))
  refine .bind advance_reads (.bind current_reads ?_)
  split
  · next hk => exact absurd hk (by rintro rfl; exact absurd hkind (by simp [TokenKind.IsInfix]))
  · next hk => exact absurd hk (by rintro rfl; exact absurd hkind (by simp [TokenKind.IsInfix]))
  · exact hbinary

theorem call_reads {callee : Node} {as : List Node}
    (h : Reads (items expr .rparen) (.sign .lparen :: us) as rest) :
    Reads (continuation expr callee) (t :: .sign .lparen :: us)
      (.call (.sign .lparen) callee as) rest := by
  refine .bind advance_reads (.bind current_reads (.bind current_reads ?_))
  exact .bind h pure_reads

theorem index_reads {target position : Node}
    (h : Reads (expr .lowest) us position (last :: .sign .rbracket :: rest)) :
    Reads (continuation expr target) (t :: .sign .lbracket :: us)
      (.index (.sign .lbracket) target position) (.sign .rbracket :: rest) := by
  refine .bind advance_reads (.bind current_reads (.bind current_reads ?_))
  refine .bind advance_reads (.bind h.attempt (.bind (expect_reads rfl) ?_))
  exact .bind ofOption_reads pure_reads

end MonkeyLang.Grammar
