import MonkeyLang.Proofs.Leaves
import MonkeyLang.Proofs.RuleReads

/-!
# Reading what is spelled

Tokens that spell an expression are read as that expression, and no diagnostic is recorded
(`parseTokens_of_spelled`); the same for the statements of a program (`parseTokens_statements`).

The induction on spellings carries two things.

* An operator expression is read from the left: its left operand is read first, by the same call of
  the rule for expressions, and becomes part of the whole only when the rule goes on (`climb`).  So
  what is known of an expression is how the rule goes on behind it (`IsRead`).
* The depth to which expressions may be nested is at least the number of tokens of the phrase
  (`ReachesDepth`), and each nested phrase has fewer.
-/

namespace MonkeyLang.Grammar

open Rule

variable {loose : Prop} {k : Nat} {expr : ExpressionRule} {rest : List Token}

/-! ### Room for nested expressions -/

/-- Wherever the rule is used, it has room for expressions nested as deep as there are tokens, as
long as these are at most `n`. -/
def ReachesDepth (n : Nat) (expr : ExpressionRule) : Prop :=
  ∀ p us, ∃ depth, min n us.length ≤ depth ∧ expr p us = expressionWithin depth p us

theorem ReachesDepth.mono {m n : Nat} (h : ReachesDepth n expr) (hm : m ≤ n) :
    ReachesDepth m expr := by
  intro p us
  obtain ⟨depth, hdepth, heq⟩ := h p us
  exact ⟨depth, by omega, heq⟩

theorem reachesDepth_expressionWithin {n depth : Nat} (h : n ≤ depth) :
    ReachesDepth n (expressionWithin depth) :=
  fun _ us => ⟨depth, by omega, rfl⟩

theorem reachesDepth_expression (n : Nat) : ReachesDepth n expression :=
  fun p us => ⟨us.length + 1, by omega, expression_apply p us⟩

theorem ReachesDepth.leaves {n : Nat} (h : ReachesDepth n expr) (p : Precedence) :
    Leaves (expr p) := by
  intro us
  obtain ⟨depth, -, heq⟩ := h p us
  rw [heq]
  exact expressionWithin_leaves depth p us

/-! ### Where expressions end -/

/-- An expression whose operators have at least the strength `m` does not go on with these
tokens. -/
def EndsExpression (m : Nat) (rest : List Token) : Prop :=
  (Precedence.ofKind (currentOf rest).kind).rank ≤ m ∧ (currentOf rest).kind ≠ .else

theorem EndsExpression.mono {m n : Nat} (h : EndsExpression m rest) (hm : m ≤ n) :
    EndsExpression n rest :=
  ⟨h.1.trans hm, h.2⟩

theorem endsExpression_sign (kind : TokenKind) (rest : List Token) {m : Nat}
    (h : (Precedence.ofKind kind).rank ≤ m) (helse : kind ≠ .else) :
    EndsExpression m (.sign kind :: rest) :=
  ⟨h, helse⟩

/-- No expression goes on behind the end of a statement. -/
theorem endsExpression_of_mem (rest : List Token)
    (h : (currentOf rest).kind ∈ [.semicolon, .rbrace, .eof]) :
    EndsExpression 1 rest := by
  simp only [List.mem_cons, List.not_mem_nil, or_false] at h
  rcases h with h | h | h <;> simp [EndsExpression, h, Precedence.ofKind, Precedence.rank]

/-- An expression above `p` takes in every operator of at least the strength `m`. -/
def TakesIn (p : Precedence) (m : Nat) : Prop :=
  p.rank ≤ Precedence.unary.rank ∧
    ∀ kind : TokenKind, kind.IsInfix → m ≤ (Precedence.ofKind kind).rank → p < .ofKind kind

theorem TakesIn.mono {p : Precedence} {m n : Nat} (h : TakesIn p m) (hm : m ≤ n) : TakesIn p n :=
  ⟨h.1, fun kind hkind hn => h.2 kind hkind (hm.trans hn)⟩

theorem takesIn_lowest : TakesIn .lowest 1 :=
  ⟨by decide, fun _ hkind _ => hkind.lowest_lt⟩

/-- From the strength of prefix operators on there is no infix operator left to take in. -/
theorem takesIn_of_unary_le {p : Precedence} {m : Nat} (hp : p.rank ≤ Precedence.unary.rank)
    (hm : Precedence.unary.rank ≤ m) : TakesIn p m :=
  ⟨hp, fun _ hkind hle => absurd (hkind.rank_lt_unary) (by omega)⟩

/-- The right operand of an operator takes in what is stronger than the operator. -/
theorem takesIn_right {kind : TokenKind} (h : kind.IsInfix) :
    TakesIn (.ofKind kind) ((Precedence.ofKind kind).rank + 1) :=
  ⟨h.rank_lt_unary.le, fun _ _ hlt => hlt⟩

/-! ### The induction -/

/-- What is read of tokens that are a way to write a phrase, with operators of at least the
strength `m`. -/
def IsRead (m : Nat) (ts : List Token) : Phrase → Prop
  | .expression e => ∀ (depth : Nat) (p : Precedence) (rest : List Token), ts.length ≤ depth + 1 →
      TakesIn p m → EndsExpression m rest → ∃ last, ∀ e' us,
        Iterates (fun us => decide (p < .ofKind (nextOf us).kind))
          (continuation (expressionWithin depth)) e (last :: rest) e' us →
        Reads (expressionWithin (depth + 1) p) (ts ++ rest) e' us
  | .block b => ∀ (expr : ExpressionRule) (rest : List Token), ReachesDepth ts.length expr →
      Reads (block expr) (ts ++ rest) b (.sign .rbrace :: rest)
  | .statement s => ∀ (expr : ExpressionRule) (rest : List Token), ReachesDepth ts.length expr →
      (currentOf rest).kind ∈ [.semicolon, .rbrace, .eof] →
      ∃ last, Reads (statement expr) (ts ++ rest) s (last :: afterSemicolon rest)
  | .statements ss => ∀ (expr : ExpressionRule) (ends : TokenKind → Bool) (rest : List Token),
      ReachesDepth ts.length expr → (∀ kind, ends kind → kind = .rbrace ∨ kind = .eof) →
      ends (currentOf rest).kind →
      Collects (fun us => !ends (currentOf us).kind)
        (do let found ← attempt (statement expr); advance; return found) (ts ++ rest)
        (ss.map some) rest
  | .items [] => ts = []
  | .items (e :: es) => ∀ (expr : ExpressionRule) (rest : List Token), ReachesDepth ts.length expr →
      EndsExpression 1 rest → (currentOf rest).kind ≠ .comma → ∃ vs last,
        Reads (expr .lowest) (ts ++ rest) e vs ∧
        Collects (fun us => decide ((nextOf us).kind = .comma))
          (do advance; advance; attempt (expr .lowest)) vs (es.map some) (last :: rest)
  | .pairs ps => ∀ (expr : ExpressionRule) (t : Token) (rest : List Token),
      ReachesDepth ts.length expr → (currentOf rest).kind = .rbrace →
      ∃ last, Collects (fun us => decide ((nextOf us).kind ≠ .rbrace)) (pair expr)
        (t :: (ts ++ rest)) ps (last :: rest)

/-- An operand is read by the rule for operands, and the rule for expressions goes on from there. -/
theorem isRead_of_operand {m : Nat} {ts : List Token} {e : Node}
    (h : ∀ (expr : ExpressionRule) (rest : List Token), (∀ n < ts.length, ReachesDepth n expr) →
      EndsExpression m rest → ∃ last, Reads (operand expr) (ts ++ rest) e (last :: rest)) :
    IsRead m ts (.expression e) := by
  intro depth p rest hdepth _ hrest
  obtain ⟨last, hlast⟩ := h (expressionWithin depth) rest
    (fun n hn => reachesDepth_expressionWithin (by omega)) hrest
  exact ⟨last, fun e' us hmore => .bind hlast hmore.reads⟩

/-- What starts with an operand is read by one more round behind that operand. -/
theorem isRead_of_continuation {m n : Nat} {kind : TokenKind} {ls ks : List Token} {left e : Node}
    (hleft : IsRead n ls (.expression left)) (hkind : EndsExpression n [.sign kind])
    (hp : ∀ p, TakesIn p m → TakesIn p n ∧ p < .ofKind kind)
    (h : ∀ (expr : ExpressionRule) (t : Token) (rest : List Token), ReachesDepth ks.length expr →
      EndsExpression m rest →
      ∃ last, Reads (continuation expr left) (t :: .sign kind :: (ks ++ rest)) e (last :: rest)) :
    IsRead m (ls ++ .sign kind :: ks) (.expression e) := by
  intro depth p rest hdepth hm hrest
  rw [List.length_append, List.length_cons] at hdepth
  obtain ⟨hn, hlt⟩ := hp p hm
  obtain ⟨mid, hmid⟩ := hleft depth p (.sign kind :: (ks ++ rest)) (by omega) hn hkind
  obtain ⟨last, hlast⟩ := h (expressionWithin depth) mid rest
    (reachesDepth_expressionWithin (by omega)) hrest
  refine ⟨last, fun e' us hmore => ?_⟩
  rw [List.append_assoc, List.cons_append]
  -- the rounds behind the left operand are this one, and then those behind the whole
  refine hmid e' us (.round (decide_eq_true hlt) hlast ?_ hmore)
  simp only [List.length_cons, List.length_append]
  omega

/-- Where an expression is asked for, it is read up to the tokens that it does not go on with. -/
theorem IsRead.reads {m : Nat} {p : Precedence} {ts : List Token} {e : Node}
    (h : IsRead m ts (.expression e)) (hs : Spelled loose m k (.expression e) ts)
    (hexpr : ReachesDepth ts.length expr) (hp : TakesIn p m) (hm : p.rank ≤ m)
    (hrest : EndsExpression p.rank rest) :
    ∃ last, Reads (expr p) (ts ++ rest) e (last :: rest) := by
  obtain ⟨t, us, rfl, -⟩ := hs.starts
  obtain ⟨depth, hdepth, heq⟩ := hexpr p (t :: us ++ rest)
  simp only [List.length_append, List.length_cons] at hdepth
  obtain ⟨depth, rfl⟩ := Nat.exists_eq_succ_of_ne_zero (by omega : depth ≠ 0)
  obtain ⟨last, hlast⟩ := h depth p rest (by rw [List.length_cons]; omega) hp (hrest.mono hm)
  -- nothing binds more strongly behind the expression, so there is no further round
  refine ⟨last, heq.trans (hlast e _ (.done (decide_eq_false ?_)))⟩
  exact Nat.not_lt.2 hrest.1

theorem IsRead.reads_lowest {ts : List Token} {e : Node} (h : IsRead 1 ts (.expression e))
    (hs : Spelled loose 1 k (.expression e) ts) (hexpr : ReachesDepth ts.length expr)
    (hrest : EndsExpression 1 rest) :
    ∃ last, Reads (expr .lowest) (ts ++ rest) e (last :: rest) :=
  h.reads hs hexpr takesIn_lowest le_rfl hrest

section Expressions

variable {m : Nat} {ts : List Token}

theorem isRead_grouped {e : Node} (hs : Spelled loose 1 k (.expression e) ts)
    (h : IsRead 1 ts (.expression e)) :
    IsRead m (.sign .lparen :: (ts ++ [.sign .rparen])) (.expression e) := by
  refine isRead_of_operand fun expr rest hexpr _ => ⟨.sign .rparen, ?_⟩
  obtain ⟨last, he⟩ := h.reads_lowest hs (hexpr _ (by simp +arith))
    (endsExpression_sign .rparen rest (by decide) (by decide))
  simpa using grouped_reads he

theorem isRead_unary {kind : TokenKind} {right : Node} (hkind : kind.IsPrefix)
    (hm : m ≤ Precedence.unary.rank)
    (hs : Spelled loose Precedence.unary.rank k (.expression right) ts)
    (h : IsRead Precedence.unary.rank ts (.expression right)) :
    IsRead m (.sign kind :: ts) (.expression (.unary (.sign kind) kind.text right)) := by
  refine isRead_of_operand fun expr rest hexpr hrest => ?_
  obtain ⟨last, he⟩ := h.reads (p := .unary) hs (hexpr _ (by simp +arith))
    (takesIn_of_unary_le le_rfl le_rfl) le_rfl (hrest.mono hm)
  exact ⟨last, unary_reads hkind he⟩

theorem isRead_binary {kind : TokenKind} {left right : Node} {ls rs : List Token}
    (hkind : kind.IsInfix) (hm : m ≤ (Precedence.ofKind kind).rank)
    (hleft : IsRead (Precedence.ofKind kind).rank ls (.expression left))
    (hs : Spelled loose ((Precedence.ofKind kind).rank + 1) k (.expression right) rs)
    (hright : IsRead ((Precedence.ofKind kind).rank + 1) rs (.expression right)) :
    IsRead m (ls ++ .sign kind :: rs)
      (.expression (.binary (.sign kind) left kind.text right)) := by
  have helse : kind ≠ .else := by
    rintro rfl
    exact absurd hkind (by simp [TokenKind.IsInfix])
  refine isRead_of_continuation hleft (endsExpression_sign kind [] le_rfl helse)
    (fun p hp => ⟨hp.mono hm, hp.2 kind hkind hm⟩) fun expr t rest hexpr hrest => ?_
  -- the right operand takes in only what is stronger, so that equal operators group to the left
  obtain ⟨last, he⟩ := hright.reads hs hexpr (takesIn_right hkind) (Nat.le_succ _) (hrest.mono hm)
  exact ⟨last, binary_reads hkind he⟩

theorem isRead_conditional {condition consequence : Node} {cs bs : List Token}
    (hcs : Spelled loose 1 0 (.expression condition) cs)
    (hbs : Spelled loose 1 k (.block consequence) bs)
    (hc : IsRead 1 cs (.expression condition)) (hb : IsRead 1 bs (.block consequence)) :
    IsRead m (.sign .if :: .sign .lparen :: (cs ++ .sign .rparen :: bs))
      (.expression (.conditional (.sign .if) condition consequence none)) := by
  refine isRead_of_operand fun expr rest hexpr hrest => ⟨.sign .rbrace, ?_⟩
  obtain ⟨last, hcr⟩ := hc.reads_lowest hcs (hexpr _ (by simp +arith))
    (endsExpression_sign .rparen (bs ++ rest) (by decide) (by decide))
  have hbr := hb expr rest (hexpr _ (by simp +arith))
  obtain ⟨us, rfl⟩ := hbs.starts_block
  simpa using conditional_reads hcr rfl hbr (elseBlock_reads_none hrest.2)

theorem isRead_alternative {condition consequence alternative : Node} {cs bs as : List Token}
    (hcs : Spelled loose 1 0 (.expression condition) cs)
    (hbs : Spelled loose 1 0 (.block consequence) bs)
    (has : Spelled loose 1 k (.block alternative) as) (hc : IsRead 1 cs (.expression condition))
    (hb : IsRead 1 bs (.block consequence)) (ha : IsRead 1 as (.block alternative)) :
    IsRead m (.sign .if :: .sign .lparen :: (cs ++ .sign .rparen :: (bs ++ .sign .else :: as)))
      (.expression (.conditional (.sign .if) condition consequence (some alternative))) := by
  refine isRead_of_operand fun expr rest hexpr _ => ⟨.sign .rbrace, ?_⟩
  obtain ⟨last, hcr⟩ := hc.reads_lowest hcs (hexpr _ (by simp +arith))
    (endsExpression_sign .rparen (bs ++ .sign .else :: (as ++ rest)) (by decide) (by decide))
  have hbr := hb expr (.sign .else :: (as ++ rest)) (hexpr _ (by simp +arith))
  have har := ha expr rest (hexpr _ (by simp +arith))
  obtain ⟨us, rfl⟩ := hbs.starts_block
  obtain ⟨vs, rfl⟩ := has.starts_block
  simpa using conditional_reads hcr rfl hbr (elseBlock_reads har rfl)

theorem isRead_function (names : List String) {body : Node} {bs : List Token}
    (hbs : Spelled loose 1 k (.block body) bs) (hb : IsRead 1 bs (.block body)) :
    IsRead m (.sign .function :: .sign .lparen :: (nameTokens names ++ .sign .rparen :: bs))
      (.expression (.function (.sign .function) (names.map .ofName) body)) := by
  refine isRead_of_operand fun expr rest hexpr _ => ⟨.sign .rbrace, ?_⟩
  have hbr := hb expr rest (hexpr _ (by simp +arith))
  obtain ⟨us, rfl⟩ := hbs.starts_block
  simpa using function_reads names rfl hbr

/-- Items in brackets of one sort or the other. -/
theorem IsRead.items {es : List Node} {closing : TokenKind}
    (hclosing : closing = .rparen ∨ closing = .rbracket) (hs : Spelled loose 1 k (.items es) ts)
    (h : IsRead 1 ts (.items es)) (hexpr : ReachesDepth ts.length expr) (t : Token)
    (rest : List Token) :
    Reads (items expr closing) (t :: (ts ++ .sign closing :: rest)) es (.sign closing :: rest) := by
  cases es with
  | nil =>
    obtain rfl : ts = [] := h
    exact items_reads_nil rfl
  | cons e es =>
    have hends : EndsExpression 1 (.sign closing :: rest) := by
      rcases hclosing with rfl | rfl <;> exact endsExpression_sign _ rest (by decide) (by decide)
    obtain ⟨vs, last, he, hes⟩ := h expr (.sign closing :: rest) hexpr hends
      (by rcases hclosing with rfl | rfl <;> simp [currentOf])
    obtain ⟨first, us, rfl, hfirst⟩ := hs.starts_items
    refine items_reads ?_ he hes rfl
    rintro hkind
    rw [show (currentOf (first :: us ++ _)).kind = first.kind from rfl] at hkind
    rcases hclosing with rfl | rfl <;> simp [hkind, TokenKind.StartsExpression] at hfirst

theorem isRead_array {elements : List Node} (hs : Spelled loose 1 k (.items elements) ts)
    (h : IsRead 1 ts (.items elements)) :
    IsRead m (.sign .lbracket :: (ts ++ [.sign .rbracket]))
      (.expression (.array (.sign .lbracket) elements)) := by
  refine isRead_of_operand fun expr rest hexpr _ => ⟨.sign .rbracket, ?_⟩
  simpa using array_reads (h.items (.inr rfl) hs (hexpr _ (by simp +arith)) (.sign .lbracket) rest)

theorem isRead_call {callee : Node} {arguments : List Node} {fs : List Token}
    (hf : IsRead Precedence.call.rank fs (.expression callee))
    (hs : Spelled loose 1 k (.items arguments) ts) (h : IsRead 1 ts (.items arguments)) :
    IsRead m (fs ++ .sign .lparen :: (ts ++ [.sign .rparen]))
      (.expression (.call (.sign .lparen) callee arguments)) := by
  refine isRead_of_continuation hf (endsExpression_sign _ [] le_rfl (by decide))
    (fun p hp => ⟨takesIn_of_unary_le hp.1 (by decide), Nat.lt_succ_of_le hp.1⟩)
    fun expr t rest hexpr _ => ⟨.sign .rparen, ?_⟩
  have has := h.items (.inl rfl) hs (hexpr.mono (by simp +arith)) (.sign .lparen) rest
  simpa using call_reads has

theorem isRead_index {target position : Node} {ls : List Token}
    (ht : IsRead Precedence.index.rank ls (.expression target))
    (hs : Spelled loose 1 k (.expression position) ts) (h : IsRead 1 ts (.expression position)) :
    IsRead m (ls ++ .sign .lbracket :: (ts ++ [.sign .rbracket]))
      (.expression (.index (.sign .lbracket) target position)) := by
  refine isRead_of_continuation ht (endsExpression_sign _ [] le_rfl (by decide))
    (fun p hp => ⟨takesIn_of_unary_le hp.1 (by decide), Nat.lt_succ_of_lt (Nat.lt_succ_of_le hp.1)⟩)
    fun expr t rest hexpr _ => ⟨.sign .rbracket, ?_⟩
  obtain ⟨last, hp⟩ := h.reads_lowest hs (hexpr.mono (by simp +arith))
    (endsExpression_sign .rbracket rest (by decide) (by decide))
  simpa using index_reads hp

theorem isRead_hash {pairs : List (Node × Node)} (h : IsRead 1 ts (.pairs pairs)) :
    IsRead m (.sign .lbrace :: (ts ++ [.sign .rbrace]))
      (.expression (.hash (.sign .lbrace) pairs)) := by
  refine isRead_of_operand fun expr rest hexpr _ => ⟨.sign .rbrace, ?_⟩
  obtain ⟨last, hps⟩ := h expr (.sign .lbrace) (.sign .rbrace :: rest)
    (hexpr _ (by simp +arith)) rfl
  simpa using hash_reads hps

end Expressions

section Lists

variable {ts us : List Token}

theorem isRead_moreItems {e e' : Node} {es : List Node}
    (hs : Spelled loose 1 k (.expression e) ts) (h : IsRead 1 ts (.expression e))
    (hes : IsRead 1 us (.items (e' :: es))) :
    IsRead 1 (ts ++ .sign .comma :: us) (.items (e :: e' :: es)) := by
  intro expr rest hexpr hends hcomma
  obtain ⟨mid, he⟩ := h.reads_lowest hs (hexpr.mono (by simp))
    (endsExpression_sign .comma (us ++ rest) (by decide) (by decide))
  obtain ⟨vs, last, he', hes'⟩ := hes expr rest (hexpr.mono (by simp +arith)) hends hcomma
  -- the comma and the items behind it are the first round and the rounds after it
  refine ⟨mid :: .sign .comma :: (us ++ rest), last, by simpa using he, ?_⟩
  have hle : vs.length ≤ (us ++ rest).length := (he'.suffix (hexpr.leaves .lowest)).length_le
  refine .round rfl (.bind advance_reads (.bind advance_reads he'.attempt)) ?_ hes'
  simp only [List.length_cons]
  omega

theorem isRead_lastPair {key value : Node} {ks vs : List Token}
    (hks : Spelled loose 1 0 (.expression key) ks)
    (hvs : Spelled loose 1 0 (.expression value) vs)
    (hk : IsRead 1 ks (.expression key)) (hv : IsRead 1 vs (.expression value)) :
    IsRead 1 (ks ++ .sign .colon :: vs) (.pairs [(key, value)]) := by
  intro expr t rest hexpr hrest
  obtain ⟨mid, hkr⟩ := hk.reads_lowest hks (hexpr.mono (by simp))
    (endsExpression_sign .colon (vs ++ rest) (by decide) (by decide))
  obtain ⟨last, hvr⟩ := hv.reads_lowest hvs (hexpr.mono (by simp +arith))
    (endsExpression_of_mem rest (by simp [hrest]))
  obtain ⟨first, ks, rfl, hfirst⟩ := hks.starts
  simp only [List.append_assoc, List.cons_append] at hkr ⊢
  refine ⟨last, .round (decide_eq_true (hfirst.ne (by decide))) (lastPair_reads hkr hvr hrest) ?_
    (.done (decide_eq_false (not_not.2 hrest)))⟩
  simp +arith

theorem isRead_morePairs {key value : Node} {ps : List (Node × Node)} {ks vs us : List Token}
    (hks : Spelled loose 1 0 (.expression key) ks)
    (hvs : Spelled loose 1 0 (.expression value) vs)
    (hk : IsRead 1 ks (.expression key)) (hv : IsRead 1 vs (.expression value))
    (hps : IsRead 1 us (.pairs ps)) :
    IsRead 1 (ks ++ .sign .colon :: (vs ++ .sign .comma :: us)) (.pairs ((key, value) :: ps)) := by
  intro expr t rest hexpr hrest
  obtain ⟨mid, hkr⟩ := hk.reads_lowest hks (hexpr.mono (by simp))
    (endsExpression_sign .colon (vs ++ .sign .comma :: (us ++ rest)) (by decide) (by decide))
  obtain ⟨mid', hvr⟩ := hv.reads_lowest hvs (hexpr.mono (by simp +arith))
    (endsExpression_sign .comma (us ++ rest) (by decide) (by decide))
  obtain ⟨last, hpsr⟩ := hps expr (.sign .comma) rest (hexpr.mono (by simp +arith)) hrest
  obtain ⟨first, ks, rfl, hfirst⟩ := hks.starts
  simp only [List.append_assoc, List.cons_append] at hkr ⊢
  refine ⟨last, .round (decide_eq_true (hfirst.ne (by decide))) (pair_reads hkr hvr) ?_ hpsr⟩
  simp +arith

theorem isRead_block {ss : List Node} (h : IsRead 1 ts (.statements ss)) :
    IsRead 1 (.sign .lbrace :: (ts ++ [.sign .rbrace])) (.block (.block (.sign .lbrace) ss)) := by
  intro expr rest hexpr
  have hends : ∀ kind, endsBlock kind → kind = .rbrace ∨ kind = .eof := by
    simp [endsBlock]
  have hss := h expr endsBlock (.sign .rbrace :: rest) (hexpr.mono (by simp +arith)) hends rfl
  simpa using block_reads (statements_reads hss)

/-- A statement is one round of a list of statements, together with a semicolon behind it. -/
theorem statement_round {s : Node} {ss : List Node} {ends : TokenKind → Bool} {vs : List Token}
    (hs : Spelled loose 1 k (.statement s) ts) (h : IsRead 1 ts (.statement s))
    (hexpr : ReachesDepth ts.length expr)
    (hends : ∀ kind, ends kind → kind = .rbrace ∨ kind = .eof)
    (hvs : (currentOf vs).kind ∈ [.semicolon, .rbrace, .eof])
    (hrest : Collects (fun us => !ends (currentOf us).kind)
      (do let found ← attempt (statement expr); advance; return found) (afterSemicolon vs)
      (ss.map some) rest) :
    Collects (fun us => !ends (currentOf us).kind)
      (do let found ← attempt (statement expr); advance; return found) (ts ++ vs)
      ((s :: ss).map some) rest := by
  obtain ⟨last, hread⟩ := h expr vs hexpr hvs
  obtain ⟨first, ts, rfl, hfirst⟩ := hs.starts_statement
  refine .round ?_ (statementRound_reads hread) ?_ hrest
  · -- no statement starts with a token that ends a list of statements
    cases hkind : ends first.kind with
    | false => simp [currentOf, hkind]
    | true =>
      rcases hends _ hkind with h | h <;>
        rcases hfirst with hfirst | hfirst | hfirst <;> simp_all [TokenKind.StartsExpression]
  · unfold afterSemicolon
    split <;> simp +arith

theorem isRead_lastStatement {s : Node} (hs : Spelled loose 1 k (.statement s) ts)
    (h : IsRead 1 ts (.statement s)) : IsRead 1 ts (.statements [s]) := by
  intro expr ends rest hexpr hends hrest
  have hkind := hends _ hrest
  refine statement_round hs h hexpr hends (by rcases hkind with h | h <;> simp [h]) ?_
  rw [afterSemicolon, if_neg (by rcases hkind with h | h <;> simp [h])]
  exact .done (by simp [hrest])

theorem isRead_moreStatements {s : Node} {ss : List Node}
    (hs : Spelled loose 1 k (.statement s) ts) (h : IsRead 1 ts (.statement s))
    (hss : IsRead 1 us (.statements ss)) :
    IsRead 1 (ts ++ .sign .semicolon :: us) (.statements (s :: ss)) := by
  intro expr ends rest hexpr hends hrest
  rw [List.append_assoc, List.cons_append]
  refine statement_round hs h (hexpr.mono (by simp)) hends (by simp [currentOf]) ?_
  exact hss expr ends rest (hexpr.mono (by simp +arith)) hends hrest

theorem isRead_letStatement (name : String) {value : Node} {vs : List Token}
    (hvs : Spelled loose 1 k (.expression value) vs) (h : IsRead 1 vs (.expression value)) :
    IsRead 1 (.sign .let :: ⟨.ident, name⟩ :: .sign .assign :: vs)
      (.statement (.letStatement (.sign .let) (.ofName name) value)) := by
  intro expr rest hexpr hrest
  obtain ⟨last, hv⟩ := h.reads_lowest hvs (hexpr.mono (by simp +arith))
    (endsExpression_of_mem rest hrest)
  obtain ⟨last', hlet⟩ := letStatement_reads name hv
  exact ⟨last', statement_reads_of_let rfl hlet⟩

theorem isRead_bareReturn :
    IsRead 1 [.sign .return] (.statement (.returnStatement (.sign .return) none)) := by
  intro expr rest _ hrest
  simp only [List.mem_cons, List.not_mem_nil, or_false] at hrest
  obtain ⟨last, hreturn⟩ := bareReturn_reads expr hrest
  exact ⟨last, statement_reads_of_return rfl hreturn⟩

theorem isRead_returnStatement {value : Node} {vs : List Token}
    (hvs : Spelled loose 1 k (.expression value) vs) (h : IsRead 1 vs (.expression value)) :
    IsRead 1 (.sign .return :: vs)
      (.statement (.returnStatement (.sign .return) (some value))) := by
  intro expr rest hexpr hrest
  obtain ⟨last, hv⟩ := h.reads_lowest hvs (hexpr.mono (by simp)) (endsExpression_of_mem rest hrest)
  have hstart : (currentOf (vs ++ rest)).kind.StartsExpression := by
    obtain ⟨first, vs, rfl, hfirst⟩ := hvs.starts
    exact hfirst
  obtain ⟨last', hreturn⟩ := returnStatement_reads hstart hv
  exact ⟨last', statement_reads_of_return rfl hreturn⟩

theorem isRead_expressionStatement {e : Node} {first : Token}
    (hs : Spelled loose 1 k (.expression e) (first :: ts))
    (h : IsRead 1 (first :: ts) (.expression e)) :
    IsRead 1 (first :: ts) (.statement (.expressionStatement first e)) := by
  intro expr rest hexpr hrest
  obtain ⟨last, he⟩ := h.reads_lowest hs hexpr (endsExpression_of_mem rest hrest)
  obtain ⟨last', hstatement⟩ := expressionStatement_reads he
  obtain ⟨_, _, ⟨⟩, hfirst⟩ := hs.starts
  exact ⟨last', statement_reads_of_expression hfirst hstatement⟩

end Lists

/-- **What is spelled is read.** -/
theorem isRead_of_spelled {m k : Nat} {φ : Phrase} {ts : List Token}
    (h : Spelled False m k φ ts) : IsRead m ts φ := by
  induction h with
  | identifier name => exact isRead_of_operand fun _ _ _ _ => ⟨_, .bind current_reads rfl⟩
  | integer hvalue hle => exact isRead_of_operand fun _ _ _ _ => ⟨_, integer_reads hvalue hle⟩
  | string value => exact isRead_of_operand fun _ _ _ _ => ⟨_, .bind current_reads rfl⟩
  | boolean value => exact isRead_of_operand fun _ _ _ _ => ⟨_, boolean_reads value⟩
  | grouped he ih => exact isRead_grouped he ih
  | unary hkind hm hright ih => exact isRead_unary hkind hm hright ih
  | binary hkind hm _ hright ihleft ihright => exact isRead_binary hkind hm ihleft hright ihright
  | conditional hc hb ihc ihb => exact isRead_conditional hc hb ihc ihb
  | alternative hc hb ha ihc ihb iha => exact isRead_alternative hc hb ha ihc ihb iha
  | function names hb ih => exact isRead_function names hb ih
  | call _ ha ihf iha => exact isRead_call ihf ha iha
  | array he ih => exact isRead_array he ih
  | index _ hp iht ihp => exact isRead_index iht hp ihp
  | hash _ ih => exact isRead_hash ih
  | noItems => rfl
  | lastItem he ih =>
    intro expr rest hexpr hends hcomma
    obtain ⟨last, hread⟩ := ih.reads_lowest he hexpr hends
    exact ⟨_, last, hread, .done (decide_eq_false hcomma)⟩
  | moreItems he _ ihe ihes => exact isRead_moreItems he ihe ihes
  | noPairs => exact fun _ t _ _ hrest => ⟨t, .done (decide_eq_false (not_not.2 hrest))⟩
  | lastPair hk hv ihk ihv => exact isRead_lastPair hk hv ihk ihv
  | morePairs hk hv _ ihk ihv ihps => exact isRead_morePairs hk hv ihk ihv ihps
  | block _ ih => exact isRead_block ih
  | openBlock hloose => exact hloose.elim
  | noStatements => exact fun _ _ _ _ _ hrest => .done (by simpa using hrest)
  | lastStatement hs ih => exact isRead_lastStatement hs ih
  | moreStatements hs _ ihs ihss => exact isRead_moreStatements hs ihs ihss
  | adjacentStatements hloose => exact hloose.elim
  | letStatement name hv ih => exact isRead_letStatement name hv ih
  | bareReturn => exact isRead_bareReturn
  | returnStatement hv ih => exact isRead_returnStatement hv ih
  | expressionStatement he ih => exact isRead_expressionStatement he ih

/-! ### Programs -/

theorem program_reads {ss : List Node} {ts : List Token}
    (h : Spelled False 1 0 (.statements ss) ts) : Reads program ts (.program ss) [] := by
  have hss := isRead_of_spelled h expression (fun kind => kind = .eof) []
    (reachesDepth_expression _) (by simp) rfl
  rw [List.append_nil] at hss
  exact .bind (statements_reads hss) pure_reads

end MonkeyLang.Grammar

namespace MonkeyLang

/-- Tokens that spell statements are read as a program of these statements. -/
theorem parseTokens_statements {ss : List Node} {ts : List Token}
    (h : Spelled False 1 0 (.statements ss) ts) : parseTokens ts = ⟨.program ss, []⟩ := by
  simp [parseTokens, show Grammar.program ts = _ from Grammar.program_reads h]

/-- **Precedence and associativity.**  Tokens that spell an expression are read as a program of
this expression alone. -/
theorem parseTokens_of_spelled {e : Node} {ts : List Token}
    (h : Spelled False 1 0 (.expression e) ts) :
    parseTokens ts = ⟨.program [.expressionStatement (Rule.currentOf ts) e], []⟩ := by
  obtain ⟨first, us, rfl, -⟩ := h.starts
  exact parseTokens_statements (.lastStatement (.expressionStatement h))

/-- Subtraction groups to the left, and to the right where parentheses say so. -/
theorem parseTokens_difference :
    parseTokens [⟨.ident, "a"⟩, .sign .minus, ⟨.ident, "b"⟩, .sign .minus, .sign .lparen,
        ⟨.ident, "c"⟩, .sign .minus, ⟨.ident, "d"⟩, .sign .rparen] =
      ⟨.program [.expressionStatement ⟨.ident, "a"⟩
        (.binary (.sign .minus)
          (.binary (.sign .minus) (.identifier (.ofName "a")) "-" (.identifier (.ofName "b"))) "-"
          (.binary (.sign .minus) (.identifier (.ofName "c")) "-" (.identifier (.ofName "d"))))],
        []⟩ :=
  have hminus : TokenKind.minus.IsInfix := by simp [TokenKind.IsInfix]
  parseTokens_of_spelled (.binary hminus (by decide)
    (.binary hminus (by decide) (.identifier "a") (.identifier "b"))
    (.grouped (.binary hminus (by decide) (.identifier "c") (.identifier "d"))))

end MonkeyLang
