import MonkeyLang.Grammar.Program
import MonkeyLang.Proofs.Phrase
import MonkeyLang.Proofs.Rule

/-!
# Spellings

`Spelled loose m k φ ts` says that the tokens `ts` are a way to write the phrase `φ`, where an
operator outside of all parentheses binds with at least the strength `m`.  Parentheses may stand
around any expression, and must stand where the strength that the place asks for is not reached:

* around the left operand of an operator, if it is an infix expression of lower precedence;
* around the right operand, if it is one of lower or equal precedence;
* around the operand of a prefix operator, if it is an infix expression;
* around a callee or the target of an index, if it is an infix or prefix expression.

A semicolon stands between two statements and may stand behind the last, and a comma may stand
behind the last pair of a hash literal.  Only in a loose spelling may the semicolon between two
statements be missing, and the closing braces of blocks that are still open where the tokens end;
`k` is the number of these braces.

The trees carry the tokens that they are written with.  Strength is counted by `Precedence.rank`;
the strength 1 of `Precedence.lowest` is asked for where anything may stand.
-/

namespace MonkeyLang

/-- The tokens are a way to write the phrase, with operators of at least a given strength outside
of all parentheses and a given number of closing braces missing at the end. -/
inductive Spelled (loose : Prop) : Nat → Nat → Phrase → List Token → Prop
  | identifier {m : Nat} (name : String) :
      Spelled loose m 0 (.expression (.identifier (.ofName name))) [⟨.ident, name⟩]
  | integer {m : Nat} {literal : String} {value : Int}
      (hvalue : Text.readInteger literal.toList = .ok value) (hle : value ≤ Grammar.maxInteger) :
      Spelled loose m 0 (.expression (.integer ⟨.int, literal⟩ value)) [⟨.int, literal⟩]
  | string {m : Nat} (value : String) :
      Spelled loose m 0 (.expression (.string ⟨.string, value⟩ value)) [⟨.string, value⟩]
  | boolean {m : Nat} (value : Bool) :
      Spelled loose m 0 (.expression (.boolean (.ofBool value) value)) [.ofBool value]
  | grouped {m : Nat} {e : Node} {ts : List Token} (he : Spelled loose 1 0 (.expression e) ts) :
      Spelled loose m 0 (.expression e) (.sign .lparen :: (ts ++ [.sign .rparen]))
  | unary {m k : Nat} {kind : TokenKind} {right : Node} {ts : List Token} (hkind : kind.IsPrefix)
      (hm : m ≤ Precedence.unary.rank)
      (hright : Spelled loose Precedence.unary.rank k (.expression right) ts) :
      Spelled loose m k (.expression (.unary (.sign kind) kind.text right)) (.sign kind :: ts)
  | binary {m k : Nat} {kind : TokenKind} {left right : Node} {ls rs : List Token}
      (hkind : kind.IsInfix) (hm : m ≤ (Precedence.ofKind kind).rank)
      (hleft : Spelled loose (Precedence.ofKind kind).rank 0 (.expression left) ls)
      (hright : Spelled loose ((Precedence.ofKind kind).rank + 1) k (.expression right) rs) :
      Spelled loose m k (.expression (.binary (.sign kind) left kind.text right))
        (ls ++ .sign kind :: rs)
  | conditional {m k : Nat} {condition consequence : Node} {cs bs : List Token}
      (hcondition : Spelled loose 1 0 (.expression condition) cs)
      (hconsequence : Spelled loose 1 k (.block consequence) bs) :
      Spelled loose m k (.expression (.conditional (.sign .if) condition consequence none))
        (.sign .if :: .sign .lparen :: (cs ++ .sign .rparen :: bs))
  | alternative {m k : Nat} {condition consequence alternative : Node} {cs bs as : List Token}
      (hcondition : Spelled loose 1 0 (.expression condition) cs)
      (hconsequence : Spelled loose 1 0 (.block consequence) bs)
      (halternative : Spelled loose 1 k (.block alternative) as) :
      Spelled loose m k
        (.expression (.conditional (.sign .if) condition consequence (some alternative)))
        (.sign .if :: .sign .lparen :: (cs ++ .sign .rparen :: (bs ++ .sign .else :: as)))
  | function {m k : Nat} (names : List String) {body : Node} {bs : List Token}
      (hbody : Spelled loose 1 k (.block body) bs) :
      Spelled loose m k (.expression (.function (.sign .function) (names.map .ofName) body))
        (.sign .function :: .sign .lparen :: (nameTokens names ++ .sign .rparen :: bs))
  | call {m : Nat} {callee : Node} {arguments : List Node} {fs as : List Token}
      (hcallee : Spelled loose Precedence.call.rank 0 (.expression callee) fs)
      (harguments : Spelled loose 1 0 (.items arguments) as) :
      Spelled loose m 0 (.expression (.call (.sign .lparen) callee arguments))
        (fs ++ .sign .lparen :: (as ++ [.sign .rparen]))
  | array {m : Nat} {elements : List Node} {es : List Token}
      (helements : Spelled loose 1 0 (.items elements) es) :
      Spelled loose m 0 (.expression (.array (.sign .lbracket) elements))
        (.sign .lbracket :: (es ++ [.sign .rbracket]))
  | index {m : Nat} {target position : Node} {ts ps : List Token}
      (htarget : Spelled loose Precedence.index.rank 0 (.expression target) ts)
      (hposition : Spelled loose 1 0 (.expression position) ps) :
      Spelled loose m 0 (.expression (.index (.sign .lbracket) target position))
        (ts ++ .sign .lbracket :: (ps ++ [.sign .rbracket]))
  | hash {m : Nat} {pairs : List (Node × Node)} {ps : List Token}
      (hpairs : Spelled loose 1 0 (.pairs pairs) ps) :
      Spelled loose m 0 (.expression (.hash (.sign .lbrace) pairs))
        (.sign .lbrace :: (ps ++ [.sign .rbrace]))
  | noItems : Spelled loose 1 0 (.items []) []
  | lastItem {e : Node} {ts : List Token} (he : Spelled loose 1 0 (.expression e) ts) :
      Spelled loose 1 0 (.items [e]) ts
  | moreItems {e e' : Node} {es : List Node} {ts us : List Token}
      (he : Spelled loose 1 0 (.expression e) ts) (hes : Spelled loose 1 0 (.items (e' :: es)) us) :
      Spelled loose 1 0 (.items (e :: e' :: es)) (ts ++ .sign .comma :: us)
  | noPairs : Spelled loose 1 0 (.pairs []) []
  | lastPair {key value : Node} {ks vs : List Token} (hkey : Spelled loose 1 0 (.expression key) ks)
      (hvalue : Spelled loose 1 0 (.expression value) vs) :
      Spelled loose 1 0 (.pairs [(key, value)]) (ks ++ .sign .colon :: vs)
  | morePairs {key value : Node} {ps : List (Node × Node)} {ks vs us : List Token}
      (hkey : Spelled loose 1 0 (.expression key) ks)
      (hvalue : Spelled loose 1 0 (.expression value) vs)
      (hpairs : Spelled loose 1 0 (.pairs ps) us) :
      Spelled loose 1 0 (.pairs ((key, value) :: ps))
        (ks ++ .sign .colon :: (vs ++ .sign .comma :: us))
  | block {ss : List Node} {ts : List Token} (hbody : Spelled loose 1 0 (.statements ss) ts) :
      Spelled loose 1 0 (.block (.block (.sign .lbrace) ss))
        (.sign .lbrace :: (ts ++ [.sign .rbrace]))
  | openBlock {k : Nat} {ss : List Node} {ts : List Token} (hloose : loose)
      (hbody : Spelled loose 1 k (.statements ss) ts) :
      Spelled loose 1 (k + 1) (.block (.block (.sign .lbrace) ss)) (.sign .lbrace :: ts)
  | noStatements : Spelled loose 1 0 (.statements []) []
  | lastStatement {k : Nat} {s : Node} {ts : List Token}
      (hs : Spelled loose 1 k (.statement s) ts) :
      Spelled loose 1 k (.statements [s]) ts
  | moreStatements {k : Nat} {s : Node} {ss : List Node} {ts us : List Token}
      (hs : Spelled loose 1 0 (.statement s) ts) (hss : Spelled loose 1 k (.statements ss) us) :
      Spelled loose 1 k (.statements (s :: ss)) (ts ++ .sign .semicolon :: us)
  | adjacentStatements {k : Nat} {s : Node} {ss : List Node} {ts us : List Token} (hloose : loose)
      (hs : Spelled loose 1 0 (.statement s) ts) (hss : Spelled loose 1 k (.statements ss) us) :
      Spelled loose 1 k (.statements (s :: ss)) (ts ++ us)
  | letStatement {k : Nat} (name : String) {value : Node} {vs : List Token}
      (hvalue : Spelled loose 1 k (.expression value) vs) :
      Spelled loose 1 k (.statement (.letStatement (.sign .let) (.ofName name) value))
        (.sign .let :: ⟨.ident, name⟩ :: .sign .assign :: vs)
  | bareReturn :
      Spelled loose 1 0 (.statement (.returnStatement (.sign .return) none)) [.sign .return]
  | returnStatement {k : Nat} {value : Node} {vs : List Token}
      (hvalue : Spelled loose 1 k (.expression value) vs) :
      Spelled loose 1 k (.statement (.returnStatement (.sign .return) (some value)))
        (.sign .return :: vs)
  | expressionStatement {k : Nat} {e : Node} {first : Token} {ts : List Token}
      (he : Spelled loose 1 k (.expression e) (first :: ts)) :
      Spelled loose 1 k (.statement (.expressionStatement first e)) (first :: ts)

variable {loose : Prop} {m n k : Nat} {ts : List Token}

/-- Less strength may be asked for. -/
theorem Spelled.mono {e : Node} (h : Spelled loose n k (.expression e) ts) (hm : m ≤ n) :
    Spelled loose m k (.expression e) ts := by
  cases h with
  | identifier name => exact .identifier name
  | integer hvalue hle => exact .integer hvalue hle
  | string value => exact .string value
  | boolean value => exact .boolean value
  | grouped he => exact .grouped he
  | unary hkind hn hright => exact .unary hkind (hm.trans hn) hright
  | binary hkind hn hleft hright => exact .binary hkind (hm.trans hn) hleft hright
  | conditional hc hb => exact .conditional hc hb
  | alternative hc hb ha => exact .alternative hc hb ha
  | function names hb => exact .function names hb
  | call hf ha => exact .call hf ha
  | array he => exact .array he
  | index ht hp => exact .index ht hp
  | hash hp => exact .hash hp

/-! ### First tokens -/

/-- The kinds of token that an expression may start with. -/
def TokenKind.StartsExpression (kind : TokenKind) : Prop :=
  kind ∈ [.ident, .int, .string, .function, .bang, .minus, .lparen, .if, .true, .false, .lbracket,
    .lbrace]

instance (kind : TokenKind) : Decidable kind.StartsExpression :=
  inferInstanceAs (Decidable (kind ∈ _))

theorem TokenKind.StartsExpression.ne {kind other : TokenKind} (h : kind.StartsExpression)
    (hother : ¬ other.StartsExpression) : kind ≠ other :=
  fun heq => hother (heq ▸ h)

/-- An expression starts with a token that needs nothing before it. -/
theorem Spelled.starts {e : Node} (h : Spelled loose m k (.expression e) ts) :
    ∃ t us, ts = t :: us ∧ t.kind.StartsExpression := by
  generalize hφ : Phrase.expression e = φ at h
  induction h generalizing e with
  | unary hkind =>
    refine ⟨_, _, rfl, ?_⟩
    rcases hkind with rfl | rfl <;> simp [TokenKind.StartsExpression]
  | boolean value =>
    refine ⟨_, _, rfl, ?_⟩
    cases value <;> simp [TokenKind.StartsExpression, Token.ofBool]
  | binary _ _ _ _ ihleft _ =>
    obtain ⟨t, us, rfl, ht⟩ := ihleft rfl
    exact ⟨t, _, rfl, ht⟩
  | call _ _ ihcallee _ =>
    obtain ⟨t, us, rfl, ht⟩ := ihcallee rfl
    exact ⟨t, _, rfl, ht⟩
  | index _ _ ihtarget _ =>
    obtain ⟨t, us, rfl, ht⟩ := ihtarget rfl
    exact ⟨t, _, rfl, ht⟩
  | noItems | lastItem | moreItems | noPairs | lastPair | morePairs | block | openBlock
  | noStatements | lastStatement | moreStatements | adjacentStatements | letStatement | bareReturn
  | returnStatement | expressionStatement => cases hφ
  | _ => exact ⟨_, _, rfl, by simp [TokenKind.StartsExpression]⟩

theorem Spelled.starts_items {e : Node} {es : List Node}
    (h : Spelled loose 1 k (.items (e :: es)) ts) :
    ∃ t us, ts = t :: us ∧ t.kind.StartsExpression := by
  cases h with
  | lastItem he => exact he.starts
  | moreItems he _ =>
    obtain ⟨t, us, rfl, ht⟩ := he.starts
    exact ⟨t, _, rfl, ht⟩

theorem Spelled.starts_block {b : Node} (h : Spelled loose 1 k (.block b) ts) :
    ∃ us, ts = .sign .lbrace :: us := by
  cases h with
  | block => exact ⟨_, rfl⟩
  | openBlock => exact ⟨_, rfl⟩

/-- A statement starts with an expression or with one of two keywords. -/
theorem Spelled.starts_statement {s : Node} (h : Spelled loose 1 k (.statement s) ts) :
    ∃ t us, ts = t :: us ∧
      (t.kind.StartsExpression ∨ t.kind = .let ∨ t.kind = .return) := by
  cases h with
  | letStatement => exact ⟨_, _, rfl, .inr (.inl rfl)⟩
  | bareReturn => exact ⟨_, _, rfl, .inr (.inr rfl)⟩
  | returnStatement => exact ⟨_, _, rfl, .inr (.inr rfl)⟩
  | expressionStatement he =>
    obtain ⟨t, us, h, ht⟩ := he.starts
    exact ⟨t, us, h, .inl ht⟩

/-- Tokens that spell statements are none, or start with one of them. -/
theorem Spelled.starts_statements {ss : List Node} (h : Spelled loose 1 k (.statements ss) ts) :
    ts = [] ∨ ∃ t us, ts = t :: us ∧
      (t.kind.StartsExpression ∨ t.kind = .let ∨ t.kind = .return) := by
  cases h with
  | noStatements => exact .inl rfl
  | lastStatement hs => exact .inr hs.starts_statement
  | moreStatements hs =>
    obtain ⟨t, us, rfl, ht⟩ := hs.starts_statement
    exact .inr ⟨t, _, rfl, ht⟩
  | adjacentStatements _ hs =>
    obtain ⟨t, us, rfl, ht⟩ := hs.starts_statement
    exact .inr ⟨t, _, rfl, ht⟩

/-- No tokens spell no statements. -/
theorem Spelled.statements_eq_nil {ss : List Node} (h : Spelled loose 1 k (.statements ss) []) :
    ss = [] := by
  generalize hts : ([] : List Token) = ts at h
  cases h with
  | noStatements => rfl
  | lastStatement hs =>
    obtain ⟨t, us, rfl, -⟩ := hs.starts_statement
    cases hts
  | moreStatements => simp at hts
  | adjacentStatements _ hs =>
    obtain ⟨t, us, rfl, -⟩ := hs.starts_statement
    cases hts

end MonkeyLang
