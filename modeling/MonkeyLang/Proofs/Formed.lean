import MonkeyLang.Grammar.Program
import MonkeyLang.Proofs.Leaves
import MonkeyLang.Proofs.Phrase

/-!
# Well-formed trees

`Formed role node` says that a tree is one that the grammar can build in a given role, as an
expression, a statement or a block: all parts are there and are of the right sort, names are names,
integer literals are numerals for a number of 64 bits, and every other token is the one that its
place calls for.

`exists_formed_program`: every statement of the program that is read from a text is well formed,
whatever diagnostics the text leaves.  For each rule of the grammar there is one lemma about what it
gives.
-/

namespace MonkeyLang

/-- What a tree may be for the tree around it. -/
inductive Role
  | expression | statement | block

/-- A tree that the grammar can build in a given role. -/
inductive Formed : Role → Node → Prop
  | identifier {name : String} (hname : IsName name) :
      Formed .expression (.identifier (.ofName name))
  | integer {literal : String} {value : Int} (hliteral : IsNumeral literal)
      (hvalue : Text.readInteger literal.toList = .ok value) (hle : value ≤ Grammar.maxInteger) :
      Formed .expression (.integer ⟨.int, literal⟩ value)
  | string (value : String) : Formed .expression (.string ⟨.string, value⟩ value)
  | boolean (value : Bool) : Formed .expression (.boolean (.ofBool value) value)
  | unary {kind : TokenKind} {right : Node} (hkind : kind.IsPrefix)
      (hright : Formed .expression right) :
      Formed .expression (.unary (.sign kind) kind.text right)
  | binary {kind : TokenKind} {left right : Node} (hkind : kind.IsInfix)
      (hleft : Formed .expression left) (hright : Formed .expression right) :
      Formed .expression (.binary (.sign kind) left kind.text right)
  | conditional {condition consequence : Node} (hcondition : Formed .expression condition)
      (hconsequence : Formed .block consequence) :
      Formed .expression (.conditional (.sign .if) condition consequence none)
  | alternative {condition consequence alternative : Node}
      (hcondition : Formed .expression condition) (hconsequence : Formed .block consequence)
      (halternative : Formed .block alternative) :
      Formed .expression (.conditional (.sign .if) condition consequence (some alternative))
  | function {names : List String} {body : Node} (hnames : ∀ name ∈ names, IsName name)
      (hbody : Formed .block body) :
      Formed .expression (.function (.sign .function) (names.map .ofName) body)
  | call {callee : Node} {arguments : List Node} (hcallee : Formed .expression callee)
      (harguments : ∀ argument ∈ arguments, Formed .expression argument) :
      Formed .expression (.call (.sign .lparen) callee arguments)
  | array {elements : List Node} (helements : ∀ element ∈ elements, Formed .expression element) :
      Formed .expression (.array (.sign .lbracket) elements)
  | index {target position : Node} (htarget : Formed .expression target)
      (hposition : Formed .expression position) :
      Formed .expression (.index (.sign .lbracket) target position)
  | hash {pairs : List (Node × Node)} (hkeys : ∀ pair ∈ pairs, Formed .expression pair.1)
      (hvalues : ∀ pair ∈ pairs, Formed .expression pair.2) :
      Formed .expression (.hash (.sign .lbrace) pairs)
  | letStatement {name : String} {value : Node} (hname : IsName name)
      (hvalue : Formed .expression value) :
      Formed .statement (.letStatement (.sign .let) (.ofName name) value)
  | bareReturn : Formed .statement (.returnStatement (.sign .return) none)
  | returnStatement {value : Node} (hvalue : Formed .expression value) :
      Formed .statement (.returnStatement (.sign .return) (some value))
  | expressionStatement {first : Token} {expression : Node}
      (hexpression : Formed .expression expression) :
      Formed .statement (.expressionStatement first expression)
  | block {statements : List Node} (hstatements : ∀ statement ∈ statements,
      Formed .statement statement) : Formed .block (.block (.sign .lbrace) statements)

namespace Grammar

open Rule

/-! ### What rules give -/

theorem isLexeme_current {ts : List Token} (hts : Lexical ts) (h : (currentOf ts).kind ≠ .eof) :
    (currentOf ts).IsLexeme := by
  cases ts with
  | nil => exact absurd rfl h
  | cons t ts => exact hts t List.mem_cons_self

theorem current_eq_sign {ts : List Token} {kind : TokenKind} (hts : Lexical ts)
    (h : (currentOf ts).kind = kind) (hkind : kind.IsSign) :
    currentOf ts = .sign kind := by
  have hne : (currentOf ts).kind ≠ .eof := by
    rw [h]
    rintro rfl
    exact absurd hkind (by decide)
  exact h ▸ (isLexeme_current hts hne).eq_sign (h ▸ hkind)

theorem isName_current {ts : List Token} (hts : Lexical ts) (h : (currentOf ts).kind = .ident) :
    IsName (currentOf ts).literal :=
  (isLexeme_current hts (by simp [h])).isName h

/-- A rule for expressions that leaves the end of its tokens and gives well-formed expressions. -/
structure Forms (expr : ExpressionRule) : Prop where
  leaves : ∀ p, Leaves (expr p)
  gives : ∀ p ts, Lexical ts → Gives (expr p) ts fun e _ => Formed .expression e

section Gives

variable {expr : ExpressionRule} {ts : List Token}

theorem gives_name {post : Identifier → List Token → Prop} :
    Gives name ts post ↔ post ⟨currentOf ts, (currentOf ts).literal⟩ ts := by
  simp only [name, gives_bind, gives_current, gives_pure]

theorem eq_ofName (h : (currentOf ts).kind = .ident) :
    (⟨currentOf ts, (currentOf ts).literal⟩ : Identifier) = .ofName (currentOf ts).literal := by
  rw [Identifier.ofName, ← h]

theorem letStatement_gives (h : Forms expr) (hts : Lexical ts) (hk : (currentOf ts).kind = .let) :
    Gives (letStatement expr) ts fun s _ => Formed .statement s := by
  simp only [letStatement, gives_bind, gives_current, gives_expect, gives_name, gives_advance,
    gives_attempt, gives_skip, gives_ofOption, gives_pure]
  intro hname hassign
  rw [current_eq_sign hts hk (by decide), eq_ofName hname]
  have htarget := isName_current hts.tail hname
  have hvalue := h.gives .lowest _ hts.tail.tail.tail
  exact ⟨fun _ v hv => .letStatement htarget (hvalue v hv),
    fun _ v hv => .letStatement htarget (hvalue v hv)⟩

theorem returnStatement_gives (h : Forms expr) (hts : Lexical ts)
    (hk : (currentOf ts).kind = .return) :
    Gives (returnStatement expr) ts fun s _ => Formed .statement s := by
  simp only [returnStatement, gives_bind, gives_current, gives_next]
  rw [current_eq_sign hts hk (by decide)]
  split
  · simp only [gives_bind, gives_advance, gives_pure]
    exact .bareReturn
  · exact gives_pure.2 .bareReturn
  · exact gives_pure.2 .bareReturn
  · simp only [gives_bind, gives_advance, gives_attempt, gives_skip, gives_ofOption, gives_pure]
    have hvalue := h.gives .lowest _ hts.tail
    exact ⟨fun _ v hv => .returnStatement (hvalue v hv),
      fun _ v hv => .returnStatement (hvalue v hv)⟩

theorem expressionStatement_gives (h : Forms expr) (hts : Lexical ts) :
    Gives (expressionStatement expr) ts fun s _ => Formed .statement s := by
  simp only [expressionStatement, gives_bind, gives_current, gives_attempt, gives_skip,
    gives_ofOption, gives_pure]
  have hvalue := h.gives .lowest ts hts
  exact ⟨fun _ v hv => .expressionStatement (hvalue v hv),
    fun _ v hv => .expressionStatement (hvalue v hv)⟩

theorem statement_gives (h : Forms expr) (hts : Lexical ts) :
    Gives (statement expr) ts fun s _ => Formed .statement s := by
  simp only [statement, gives_bind, gives_current]
  split
  · next hk => exact letStatement_gives h hts hk
  · next hk => exact returnStatement_gives h hts hk
  · exact expressionStatement_gives h hts

theorem statements_gives (h : Forms expr) (ends : TokenKind → Bool) (hts : Lexical ts) :
    Gives (statements expr ends) ts fun ss _ => ∀ s ∈ ss, Formed .statement s := by
  simp only [statements, gives_bind, gives_pure]
  have hrounds : Gives (many (fun ts => !ends (currentOf ts).kind) do
      let found ← attempt (statement expr); advance; return found) ts
      fun found _ => ∀ v ∈ found, ∀ s, v = some s → Formed .statement s := by
    refine .many (statementRound_leaves h.leaves) fun us hus _ => ?_
    simp only [gives_bind, gives_attempt, gives_advance, gives_pure]
    exact statement_gives h (hts.suffix hus)
  refine hrounds.mono fun found _ hfound s hs => ?_
  obtain ⟨v, hv, hvs⟩ := List.mem_filterMap.1 hs
  exact hfound v hv s hvs

theorem block_gives (h : Forms expr) (hts : Lexical ts) (hk : (currentOf ts).kind = .lbrace) :
    Gives (block expr) ts fun b _ => Formed .block b := by
  simp only [block, gives_bind, gives_current, gives_advance, gives_pure]
  rw [current_eq_sign hts hk (by decide)]
  exact (statements_gives h _ hts.tail).mono fun ss _ hss => .block hss

theorem integer_gives (hts : Lexical ts) (hk : (currentOf ts).kind = .int) :
    Gives integer ts fun e _ => Formed .expression e := by
  simp only [integer, gives_bind, gives_current]
  have hnumeral := (isLexeme_current hts (by simp [hk])).isNumeral hk
  split
  · exact gives_reject
  · next value hvalue =>
    refine gives_ite.2 ⟨fun _ => gives_reject, fun hle => gives_pure.2 ?_⟩
    have htoken : currentOf ts = ⟨.int, (currentOf ts).literal⟩ := by rw [← hk]
    rw [htoken]
    exact .integer hnumeral hvalue (by omega)

theorem boolean_gives (hts : Lexical ts) (hk : (currentOf ts).kind = .true ∨
    (currentOf ts).kind = .false) : Gives boolean ts fun e _ => Formed .expression e := by
  simp only [boolean, gives_bind, gives_current, gives_pure]
  rcases hk with hk | hk
  · rw [current_eq_sign hts hk (by decide)]
    exact .boolean true
  · rw [current_eq_sign hts hk (by decide)]
    exact .boolean false

theorem unary_gives (h : Forms expr) (hts : Lexical ts) (hk : (currentOf ts).kind.IsPrefix) :
    Gives (unary expr) ts fun e _ => Formed .expression e := by
  simp only [unary, gives_bind, gives_current, gives_advance, gives_pure]
  have htoken : currentOf ts = .sign (currentOf ts).kind := current_eq_sign hts rfl hk.isSign
  rw [htoken]
  exact (h.gives .unary _ hts.tail).mono fun e _ he => .unary hk he

theorem grouped_gives (h : Forms expr) (hts : Lexical ts) :
    Gives (grouped expr) ts fun e _ => Formed .expression e := by
  simp only [grouped, gives_bind, gives_advance, gives_attempt, gives_expect, gives_ofOption]
  exact fun _ e he => h.gives .lowest _ hts.tail e he

theorem elseBlock_gives (h : Forms expr) (hts : Lexical ts) :
    Gives (elseBlock expr) ts fun v _ => ∀ b, v = some b → Formed .block b := by
  simp only [elseBlock, gives_bind, gives_next, gives_ite, gives_advance, gives_expect, gives_pure]
  refine ⟨fun _ hbrace => ?_, fun _ b hb => nomatch hb⟩
  refine (block_gives h hts.tail.tail hbrace).mono ?_
  rintro b _ hb _ ⟨⟩
  exact hb

theorem conditional_gives (h : Forms expr) (hts : Lexical ts) (hk : (currentOf ts).kind = .if) :
    Gives (conditional expr) ts fun e _ => Formed .expression e := by
  simp only [conditional, gives_bind, gives_current, gives_expect, gives_advance, gives_attempt,
    gives_ofOption, gives_pure]
  intro _ _ hbrace b hb v hv c hc
  rw [current_eq_sign hts hk (by decide)]
  have hlexical : Lexical (expr .lowest ts.tail.tail).rest.tail :=
    (hts.tail.tail.suffix (h.leaves .lowest _)).tail
  have hcondition := h.gives .lowest _ hts.tail.tail c hc
  have hconsequence := block_gives h hlexical.tail hbrace b hb
  have halternative := elseBlock_gives h (hlexical.tail.suffix (block_leaves h.leaves _)) v hv
  cases v with
  | none => exact .conditional hcondition hconsequence
  | some a => exact .alternative hcondition hconsequence (halternative a rfl)

theorem parameters_gives (hts : Lexical ts) :
    Gives parameters ts fun ps _ => ∃ names : List String, (∀ n ∈ names, IsName n) ∧
      ps = names.map .ofName := by
  have hround : ∀ us, Lexical us → Gives (do advance; expect .ident; name) us
      fun p _ => ∃ n, IsName n ∧ p = .ofName n := by
    intro us hus
    simp only [gives_bind, gives_advance, gives_expect, gives_name]
    exact fun hk => ⟨_, isName_current hus.tail.tail hk, eq_ofName hk⟩
  simp only [parameters, gives_bind, gives_next, gives_ite, gives_advance, gives_expect, gives_name,
    gives_pure]
  refine ⟨fun _ => ⟨[], by simp⟩, fun _ hk => ?_⟩
  have hrounds : Gives (many (fun ts => decide ((nextOf ts).kind = .comma)) do
      advance; expect .ident; name) ts.tail fun ps _ => ∀ p ∈ ps, ∃ n, IsName n ∧ p = .ofName n :=
    .many parameterRound_leaves fun us hus _ => hround us (hts.tail.suffix hus)
  refine hrounds.mono fun ps _ hps _ => ?_
  -- the name of each parameter, so that the parameters are the trees of a list of names
  choose! f hf using hps
  refine ⟨(currentOf ts.tail).literal :: ps.map f, ?_, ?_⟩
  · intro n hn
    rcases List.mem_cons.1 hn with rfl | hn
    · exact isName_current hts.tail hk
    · obtain ⟨p, hp, rfl⟩ := List.mem_map.1 hn
      exact (hf p hp).1
  · rw [List.map_cons, List.map_map, eq_ofName hk]
    congr 1
    conv_lhs => rw [← List.map_id ps]
    exact List.map_congr_left fun p hp => (hf p hp).2

theorem function_gives (h : Forms expr) (hts : Lexical ts)
    (hk : (currentOf ts).kind = .function) :
    Gives (function expr) ts fun e _ => Formed .expression e := by
  simp only [function, gives_bind, gives_current, gives_expect, gives_pure]
  intro _ ps hps hbrace b hb
  obtain ⟨names, hnames, rfl⟩ := parameters_gives hts.tail ps hps
  rw [current_eq_sign hts hk (by decide)]
  have hlexical : Lexical (parameters ts.tail).rest.tail :=
    (hts.tail.suffix (parameters_leaves _)).tail
  exact .function hnames (block_gives h hlexical hbrace b hb)

theorem mem_of_collect {α : Type} {vs : List (Option α)} {as : List α} (h : collect vs = some as) :
    ∀ a ∈ as, some a ∈ vs := by
  induction vs generalizing as with
  | nil =>
    obtain rfl : as = [] := by simpa [collect, eq_comm] using h
    simp
  | cons v vs ih =>
    cases v with
    | none => simp [collect] at h
    | some a =>
      obtain ⟨as', has', rfl⟩ := Option.map_eq_some_iff.1 h
      intro b hb
      rcases List.mem_cons.1 hb with rfl | hb
      · exact List.mem_cons_self
      · exact List.mem_cons_of_mem _ (ih has' b hb)

theorem items_gives (h : Forms expr) (closing : TokenKind) (hts : Lexical ts) :
    Gives (items expr closing) ts fun es _ => ∀ e ∈ es, Formed .expression e := by
  simp only [items, gives_bind, gives_next, gives_ite, gives_advance, gives_attempt, gives_expect,
    gives_ofOption, gives_pure]
  refine ⟨fun _ e he => absurd he List.not_mem_nil, fun _ => ?_⟩
  have hfirst := h.gives .lowest _ hts.tail
  have hlexical := hts.tail.suffix (h.leaves .lowest _)
  have hrounds : Gives (many (fun ts => decide ((nextOf ts).kind = .comma)) do
      advance; advance; attempt (expr .lowest)) (expr .lowest ts.tail).rest
      fun vs _ => ∀ v ∈ vs, ∀ e, v = some e → Formed .expression e := by
    refine .many (itemRound_leaves h.leaves) fun us hus _ => ?_
    simp only [gives_bind, gives_advance, gives_attempt]
    exact h.gives .lowest _ (hlexical.suffix hus).tail.tail
  refine hrounds.mono fun vs _ hvs _ es hes e he => ?_
  rcases List.mem_cons.1 (mem_of_collect hes e he) with hmem | hmem
  · exact hfirst e hmem.symm
  · exact hvs _ hmem e rfl

theorem array_gives (h : Forms expr) (hts : Lexical ts) (hk : (currentOf ts).kind = .lbracket) :
    Gives (array expr) ts fun e _ => Formed .expression e := by
  simp only [array, gives_bind, gives_current, gives_pure]
  rw [current_eq_sign hts hk (by decide)]
  exact (items_gives h _ hts).mono fun es _ hes => .array hes

theorem pair_gives (h : Forms expr) (hts : Lexical ts) :
    Gives (pair expr) ts fun p _ => Formed .expression p.1 ∧ Formed .expression p.2 := by
  simp only [pair, gives_bind, gives_advance, gives_attempt, gives_expect, gives_ofOption,
    gives_next, gives_ite, gives_pure]
  intro _ k hk v hv
  have hkey := h.gives .lowest _ hts.tail k hk
  have hvalue := h.gives .lowest _ (hts.tail.suffix (h.leaves .lowest _)).tail.tail v hv
  exact ⟨fun _ => ⟨hkey, hvalue⟩, fun _ _ => ⟨hkey, hvalue⟩⟩

theorem hash_gives (h : Forms expr) (hts : Lexical ts) (hk : (currentOf ts).kind = .lbrace) :
    Gives (hash expr) ts fun e _ => Formed .expression e := by
  simp only [hash, gives_bind, gives_current, gives_expect, gives_pure]
  rw [current_eq_sign hts hk (by decide)]
  have hrounds : Gives (many (fun ts => decide ((nextOf ts).kind ≠ .rbrace)) (pair expr)) ts
      fun ps _ => ∀ p ∈ ps, Formed .expression p.1 ∧ Formed .expression p.2 :=
    .many (pair_leaves h.leaves) fun us hus _ => pair_gives h (hts.suffix hus)
  exact hrounds.mono fun ps _ hps _ => .hash (fun p hp => (hps p hp).1) fun p hp => (hps p hp).2

theorem operand_gives (h : Forms expr) (hts : Lexical ts) :
    Gives (operand expr) ts fun e _ => Formed .expression e := by
  simp only [operand, gives_bind, gives_current]
  split
  · next hk =>
    simp only [identifier, gives_bind, gives_name, gives_pure, eq_ofName hk]
    exact .identifier (isName_current hts hk)
  · next hk => exact integer_gives hts hk
  · next hk =>
    simp only [string, gives_bind, gives_current, gives_pure]
    have htoken : currentOf ts = ⟨.string, (currentOf ts).literal⟩ := by rw [← hk]
    rw [htoken]
    exact .string _
  · next hk => exact function_gives h hts hk
  · next hk => exact unary_gives h hts (.inl hk)
  · next hk => exact unary_gives h hts (.inr hk)
  · exact grouped_gives h hts
  · next hk => exact conditional_gives h hts hk
  · next hk => exact boolean_gives hts (.inl hk)
  · next hk => exact boolean_gives hts (.inr hk)
  · next hk => exact array_gives h hts hk
  · next hk => exact hash_gives h hts hk
  · exact gives_reject

theorem binary_gives (h : Forms expr) {left : Node} (hts : Lexical ts)
    (hk : (currentOf ts).kind.IsInfix) (hleft : Formed .expression left) :
    Gives (binary expr left) ts fun e _ => Formed .expression e := by
  simp only [binary, gives_bind, gives_current, gives_advance, gives_pure]
  have htoken : currentOf ts = .sign (currentOf ts).kind :=
    current_eq_sign hts rfl hk.isSign
  rw [htoken]
  exact (h.gives _ _ hts.tail).mono fun e _ he => .binary hk hleft he

theorem call_gives (h : Forms expr) {callee : Node} (hts : Lexical ts)
    (hk : (currentOf ts).kind = .lparen) (hcallee : Formed .expression callee) :
    Gives (call expr callee) ts fun e _ => Formed .expression e := by
  simp only [call, gives_bind, gives_current, gives_pure]
  rw [current_eq_sign hts hk (by decide)]
  exact (items_gives h _ hts).mono fun es _ hes => .call hcallee hes

theorem index_gives (h : Forms expr) {target : Node} (hts : Lexical ts)
    (hk : (currentOf ts).kind = .lbracket) (htarget : Formed .expression target) :
    Gives (index expr target) ts fun e _ => Formed .expression e := by
  simp only [index, gives_bind, gives_current, gives_advance, gives_attempt, gives_expect,
    gives_ofOption, gives_pure]
  rw [current_eq_sign hts hk (by decide)]
  exact fun _ e he => .index htarget (h.gives .lowest _ hts.tail e he)

theorem continuation_gives (h : Forms expr) {p : Precedence} {left : Node} (hts : Lexical ts)
    (hp : p < .ofKind (nextOf ts).kind) (hleft : Formed .expression left) :
    Gives (continuation expr left) ts fun e _ => Formed .expression e := by
  simp only [continuation, gives_bind, gives_advance, gives_current]
  split
  · next hk => exact call_gives h hts.tail hk hleft
  · next hk => exact index_gives h hts.tail hk hleft
  · next hparen hbracket =>
    exact binary_gives h hts.tail (TokenKind.isInfix_of_lt hp hparen hbracket) hleft

theorem climb_gives (h : Forms expr) {p : Precedence} {left : Node} (hts : Lexical ts)
    (hleft : Formed .expression left) :
    Gives (climb expr p left) ts fun e _ => Formed .expression e :=
  .iterate hleft (continuation_leaves h.leaves) fun _ _ hb hus hmore =>
    continuation_gives h (hts.suffix hus) (of_decide_eq_true hmore) hb

end Gives

/-- At every depth the rule for expressions gives well-formed ones. -/
theorem expressionWithin_forms (depth : Nat) : Forms (expressionWithin depth) := by
  refine ⟨expressionWithin_leaves depth, ?_⟩
  induction depth with
  | zero =>
    intro p ts _
    simp only [expressionWithin, gives_bind, gives_current]
    exact gives_reject
  | succ depth ih =>
    intro p ts hts
    have h : Forms (expressionWithin depth) := ⟨expressionWithin_leaves depth, ih⟩
    simp only [expressionWithin, gives_bind]
    intro left hleft
    exact climb_gives h (hts.suffix (operand_leaves h.leaves ts)) (operand_gives h hts left hleft)

theorem expression_forms : Forms expression := by
  refine ⟨expression_leaves, fun p ts hts => ?_⟩
  unfold Gives
  rw [expression_apply]
  exact (expressionWithin_forms (ts.length + 1)).gives p ts hts

/-- What is read from lexemes, whatever is wrong with them, are well-formed statements. -/
theorem program_gives {ts : List Token} (hts : Lexical ts) :
    ∃ ss, (parseTokens ts).program = .program ss ∧ ∀ s ∈ ss, Formed .statement s := by
  have hgives : Gives program ts fun n _ =>
      ∃ ss, n = .program ss ∧ ∀ s ∈ ss, Formed .statement s := by
    simp only [program, gives_bind, gives_pure]
    exact (statements_gives expression_forms _ hts).mono fun ss _ hss => ⟨ss, rfl, hss⟩
  unfold parseTokens
  cases hv : (program ts).value with
  | none => exact ⟨[], by simp [hv]⟩
  | some n =>
    obtain ⟨ss, rfl, hss⟩ := hgives n hv
    exact ⟨ss, by simp [hv], hss⟩

end Grammar

/-- **Every statement that is read from a text is well formed**, whatever diagnostics the text
leaves. -/
theorem exists_formed_program (text : List Char) :
    ∃ ss, (parse text).program = .program ss ∧ ∀ s ∈ ss, Formed .statement s :=
  Grammar.program_gives (lexical_scan text)

end MonkeyLang
