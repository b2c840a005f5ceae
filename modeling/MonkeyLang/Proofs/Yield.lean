import MonkeyLang.Proofs.Spelling

/-!
# The yield of what is read

`spelled_of_parse`: if a text leaves no diagnostics, its tokens are a spelling of the program that
was read from it, in which semicolons between statements and the closing braces at the end of the
text may be missing.  So no token is lost and none is invented.

For each rule of the grammar there is one lemma about the tokens that it takes when it records no
diagnostic.  A rule ends with the current token on the last one that it used; so `Takes` compares
the tokens it was given with those behind the current one.
-/

namespace MonkeyLang.Grammar

open Rule

/-! ### Tokens by their kind -/

theorem exists_cons_of_kind (ts : List Token) {kind : TokenKind} (h : (currentOf ts).kind = kind)
    (hkind : kind ≠ .eof) : ∃ literal us, ts = ⟨kind, literal⟩ :: us := by
  cases ts with
  | nil => exact absurd h.symm hkind
  | cons t us => exact ⟨t.literal, us, by rw [← h]; rfl⟩

theorem exists_sign_cons {ts : List Token} {kind : TokenKind} (hts : Lexical ts)
    (h : (currentOf ts).kind = kind) (hkind : kind.IsSign) : ∃ us, ts = .sign kind :: us := by
  have hne : kind ≠ .eof := by
    rintro rfl
    exact absurd hkind (by decide)
  obtain ⟨literal, us, rfl⟩ := exists_cons_of_kind ts h hne
  have hsign := (hts _ List.mem_cons_self).eq_sign hkind
  exact ⟨us, by rw [hsign]⟩

theorem eq_nil_of_kind_eq_eof {ts : List Token} (hts : Lexical ts)
    (h : (currentOf ts).kind = .eof) : ts = [] := by
  cases ts with
  | nil => rfl
  | cons t us => exact absurd h (hts t List.mem_cons_self).kind_ne_eof

theorem length_lt_of_tail {ts us : List Token} (h : us.tail.length < ts.tail.length) :
    us.length < ts.length := by
  simp only [List.length_tail] at h
  omega

theorem name_reads (text : String) (ts : List Token) :
    Reads name (⟨.ident, text⟩ :: ts) (.ofName text) (⟨.ident, text⟩ :: ts) := rfl

/-! ### What is taken -/

/-- The tokens up to the current one of `us` spell the phrase.  Closing braces are missing only if
no token is left. -/
def Takes (m : Nat) (φ : Phrase) (ts us : List Token) : Prop :=
  ∃ k used, Spelled True m k φ used ∧ ts = used ++ us.tail ∧ (us.tail = [] ∨ k = 0)

section Takes

variable {m n : Nat} {φ : Phrase} {ts us : List Token}

theorem Takes.lexical (h : Takes m φ ts us) (hts : Lexical ts) : Lexical us.tail := by
  obtain ⟨k, used, -, rfl, -⟩ := h
  exact hts.behind rfl

theorem Takes.length_le (h : Takes m φ ts us) : us.tail.length ≤ ts.length := by
  obtain ⟨k, used, -, rfl, -⟩ := h
  simp

theorem Takes.mono {e : Node} (h : Takes n (.expression e) ts us) (hm : m ≤ n) :
    Takes m (.expression e) ts us := by
  obtain ⟨k, used, hs, hused, hk⟩ := h
  exact ⟨k, used, hs.mono hm, hused, hk⟩

/-- What is followed by another token is spelled to its end. -/
theorem Takes.closed {kind : TokenKind} (h : Takes m φ ts us) (hts : Lexical ts)
    (hk : (nextOf us).kind = kind) (hsign : kind.IsSign) :
    ∃ used rest, Spelled True m 0 φ used ∧ us.tail = .sign kind :: rest ∧
      ts = used ++ .sign kind :: rest := by
  obtain ⟨rest, hrest⟩ := exists_sign_cons (h.lexical hts) hk hsign
  obtain ⟨k, used, hs, hused, hk⟩ := h
  obtain rfl : k = 0 := hk.resolve_left (by simp [hrest])
  exact ⟨used, rest, hs, hrest, hrest ▸ hused⟩

end Takes

/-- A rule for expressions that takes the tokens of an expression, as far as operators bind more
strongly than the precedence asked for, unless it records a diagnostic. -/
def Understands (expr : ExpressionRule) : Prop :=
  ∀ p ts, Lexical ts → Completes (expr p) ts fun e us =>
    Takes (min (p.rank + 1) Precedence.unary.rank) (.expression e) ts us ∧
      (Precedence.ofKind (nextOf us).kind).rank ≤ p.rank

section Rules

variable {expr : ExpressionRule} {ts : List Token}

theorem Understands.lowest (h : Understands expr) (hts : Lexical ts) :
    Completes (expr .lowest) ts fun e us => Takes 1 (.expression e) ts us :=
  (h .lowest ts hts).mono fun _ _ he => he.1.mono (by decide)

/-! ### Statements -/

/-- A statement was taken, and perhaps the semicolon behind it. -/
def TakesStatement (s : Node) (ts us : List Token) : Prop :=
  Takes 1 (.statement s) ts us ∨
    ∃ used, Spelled True 1 0 (.statement s) used ∧ ts = used ++ .sign .semicolon :: us.tail

theorem skip_takes {s : Node} {us : List Token} (h : Takes 1 (.statement s) ts us)
    (hts : Lexical ts) : Completes (skip .semicolon) us fun _ vs => TakesStatement s ts vs := by
  refine completes_skip (fun hk => .inr ?_) fun _ => .inl h
  obtain ⟨used, rest, hs, hrest, hused⟩ := h.closed hts hk (by decide)
  exact ⟨used, hs, by rw [hrest]; exact hused⟩

theorem letStatement_takes (h : Understands expr) (hts : Lexical ts)
    (hk : (currentOf ts).kind = .let) :
    Completes (letStatement expr) ts fun s us => TakesStatement s ts us := by
  obtain ⟨ts, rfl⟩ := exists_sign_cons hts hk (by decide)
  refine .bind (current_reads.completes (.bind (completes_expect fun hname => ?_)))
  obtain ⟨text, ts, rfl⟩ := exists_cons_of_kind ts hname (by decide)
  refine .bind ((name_reads text ts).completes ?_)
  refine .bind (completes_expect fun hassign => ?_)
  obtain ⟨ts, rfl⟩ := exists_sign_cons hts.tail.tail hassign (by decide)
  refine .bind (advance_reads.completes (.bind (.attempt ?_)))
  refine (h.lowest hts.tail.tail.tail).mono fun v us hv => ?_
  obtain ⟨k, used, hs, hused, hk⟩ := hv
  have hlet : Takes 1 (.statement (.letStatement (.sign .let) (.ofName text) v))
      (.sign .let :: ⟨.ident, text⟩ :: .sign .assign :: ts) us :=
    ⟨k, _, .letStatement text hs, by simpa using hused, hk⟩
  refine .bind ((skip_takes hlet hts).mono fun _ vs hvs => ?_)
  exact .bind (ofOption_reads.completes (completes_pure hvs))

theorem returnStatement_takes (h : Understands expr) (hts : Lexical ts)
    (hk : (currentOf ts).kind = .return) :
    Completes (returnStatement expr) ts fun s us => TakesStatement s ts us := by
  obtain ⟨ts, rfl⟩ := exists_sign_cons hts hk (by decide)
  have hbare : Takes 1 (.statement (.returnStatement (.sign .return) none))
      (.sign .return :: ts) (.sign .return :: ts) := ⟨0, _, .bareReturn, rfl, .inr rfl⟩
  refine .bind (current_reads.completes (.bind (next_reads.completes ?_)))
  split
  · next hsemicolon =>
    -- a semicolon right behind the keyword ends the statement, and none is looked for afterwards
    obtain ⟨ts, rfl⟩ := exists_sign_cons hts.tail hsemicolon (by decide)
    exact .bind (advance_reads.completes (completes_pure (.inr ⟨_, .bareReturn, rfl⟩)))
  · exact completes_pure (.inl hbare)
  · exact completes_pure (.inl hbare)
  · refine .bind (advance_reads.completes (.bind (.attempt ?_)))
    refine (h.lowest hts.tail).mono fun v us hv => ?_
    obtain ⟨k, used, hs, hused, hk⟩ := hv
    have hreturn : Takes 1 (.statement (.returnStatement (.sign .return) (some v)))
        (.sign .return :: ts) us := ⟨k, _, .returnStatement hs, congrArg (_ :: ·) hused, hk⟩
    refine .bind ((skip_takes hreturn hts).mono fun _ vs hvs => ?_)
    exact .bind (ofOption_reads.completes (completes_pure hvs))

theorem expressionStatement_takes (h : Understands expr) (hts : Lexical ts) :
    Completes (expressionStatement expr) ts fun s us => TakesStatement s ts us := by
  refine .bind (current_reads.completes (.bind (.attempt ?_)))
  refine (h.lowest hts).mono fun e us he => ?_
  have hstatement : Takes 1 (.statement (.expressionStatement (currentOf ts) e)) ts us := by
    obtain ⟨k, used, hs, rfl, hk⟩ := he
    obtain ⟨t, used, rfl, -⟩ := hs.starts
    exact ⟨k, _, .expressionStatement hs, rfl, hk⟩
  refine .bind ((skip_takes hstatement hts).mono fun _ vs hvs => ?_)
  exact .bind (ofOption_reads.completes (completes_pure hvs))

theorem statement_takes (h : Understands expr) (hts : Lexical ts) :
    Completes (statement expr) ts fun s us => TakesStatement s ts us := by
  refine .bind (current_reads.completes ?_)
  split
  · next hk => exact letStatement_takes h hts hk
  · next hk => exact returnStatement_takes h hts hk
  · exact expressionStatement_takes h hts

/-- Statements were taken, and what is left starts with a token that ends them. -/
def TakesStatements (ends : TokenKind → Bool) (ts : List Token) (ss : List Node)
    (us : List Token) : Prop :=
  ∃ k used, Spelled True 1 k (.statements ss) used ∧ ts = used ++ us ∧ (us = [] ∨ k = 0) ∧
    ends (currentOf us).kind

/-- A statement goes before other statements. -/
theorem TakesStatement.cons {ends : TokenKind → Bool} {s : Node} {ss : List Node}
    {us vs : List Token} (h : TakesStatement s ts us) (hss : TakesStatements ends us.tail ss vs) :
    TakesStatements ends ts (s :: ss) vs := by
  obtain ⟨k', used', hss, hused', hk', hends⟩ := hss
  rcases h with ⟨k, used, hs, rfl, hk⟩ | ⟨used, hs, rfl⟩
  · rcases Nat.eq_zero_or_pos k with rfl | hpos
    · exact ⟨k', used ++ used', .adjacentStatements trivial hs hss, by simp [hused'], hk', hends⟩
    · -- a block of the statement is still open, so this is the end of the text
      have htail : us.tail = [] := hk.resolve_right (by omega)
      obtain ⟨rfl, rfl⟩ := List.append_eq_nil_iff.1 (hused'.symm.trans htail)
      obtain rfl := hss.statements_eq_nil
      exact ⟨k, used, .lastStatement hs, by rw [htail], .inl rfl, hends⟩
  · exact ⟨k', _, .moreStatements hs hss, by simp [hused'], hk', hends⟩

theorem TakesStatement.length_lt {s : Node} {us : List Token} (h : TakesStatement s ts us) :
    us.tail.length < ts.length := by
  rcases h with ⟨k, used, hs, rfl, -⟩ | ⟨used, hs, rfl⟩
  · obtain ⟨t, used, rfl, -⟩ := hs.starts_statement
    simp +arith
  · simp +arith

theorem TakesStatement.lexical {s : Node} {us : List Token} (h : TakesStatement s ts us)
    (hts : Lexical ts) : Lexical us.tail := by
  rcases h with h | ⟨used, -, rfl⟩
  · exact h.lexical hts
  · exact (hts.behind rfl).tail

theorem statements_takes (h : Understands expr) (ends : TokenKind → Bool) (hts : Lexical ts) :
    Completes (statements expr ends) ts (TakesStatements ends ts) := by
  have hrounds : Completes (many (fun ts => !ends (currentOf ts).kind) do
      let found ← attempt (statement expr); advance; return found) ts
      fun found us => ∃ ss, found = ss.map some ∧ TakesStatements ends ts ss us := by
    refine .many (I := Lexical) (Q := fun ts found us => ∃ ss, found = ss.map some ∧
      TakesStatements ends ts ss us) (fun us hus _ => ?_) (fun us _ hends => ?_) hts
    · refine .bind (.attempt ((statement_takes h hus).mono fun s vs hs => ?_))
      refine .bind (advance_reads.completes (completes_pure ⟨hs.lexical hus, hs.length_lt, ?_⟩))
      rintro _ ws ⟨ss, rfl, hss⟩
      exact ⟨s :: ss, rfl, hs.cons hss⟩
    · exact ⟨[], rfl, 0, [], .noStatements, rfl, .inr rfl, by simpa using hends⟩
  refine .bind (hrounds.mono ?_)
  rintro _ us ⟨ss, rfl, hss⟩
  exact completes_pure (by simpa using hss)

theorem block_takes (h : Understands expr) (hts : Lexical ts) (hk : (currentOf ts).kind = .lbrace) :
    Completes (block expr) ts fun b us => Takes 1 (.block b) ts us := by
  obtain ⟨ts, rfl⟩ := exists_sign_cons hts hk (by decide)
  refine .bind (current_reads.completes (.bind (advance_reads.completes (.bind ?_))))
  refine (statements_takes h endsBlock hts.tail).mono fun ss us hss => completes_pure ?_
  obtain ⟨k, used, hs, hused, hk, hends⟩ := hss
  have husl : Lexical us := hts.tail.behind hused
  simp only [endsBlock, Bool.or_eq_true, decide_eq_true_eq] at hends
  rcases hends with hends | hends
  · -- a token is left, so that every block inside is closed
    obtain ⟨us, rfl⟩ := exists_sign_cons husl hends (by decide)
    obtain rfl : k = 0 := hk.resolve_left (by simp)
    exact ⟨0, _, .block hs, by simpa using hused, .inr rfl⟩
  · -- the text is over, and one more brace is missing
    obtain rfl := eq_nil_of_kind_eq_eof husl hends
    exact ⟨k + 1, _, .openBlock trivial hs, by simpa using hused, .inl rfl⟩

/-! ### Operands -/

theorem identifier_takes (hk : (currentOf ts).kind = .ident) :
    Completes identifier ts fun e us => Takes Precedence.index.rank (.expression e) ts us := by
  obtain ⟨text, ts, rfl⟩ := exists_cons_of_kind ts hk (by decide)
  refine .bind ((name_reads text ts).completes ?_)
  exact completes_pure ⟨0, _, .identifier text, rfl, .inr rfl⟩

theorem integer_takes (hk : (currentOf ts).kind = .int) :
    Completes integer ts fun e us => Takes Precedence.index.rank (.expression e) ts us := by
  obtain ⟨literal, ts, rfl⟩ := exists_cons_of_kind ts hk (by decide)
  refine .bind (current_reads.completes ?_)
  split
  · exact completes_reject
  · next value hvalue =>
    split
    · exact completes_reject
    · next hle => exact completes_pure ⟨0, _, .integer hvalue (by omega), rfl, .inr rfl⟩

theorem string_takes (hk : (currentOf ts).kind = .string) :
    Completes string ts fun e us => Takes Precedence.index.rank (.expression e) ts us := by
  obtain ⟨value, ts, rfl⟩ := exists_cons_of_kind ts hk (by decide)
  exact .bind (current_reads.completes (completes_pure ⟨0, _, .string value, rfl, .inr rfl⟩))

theorem boolean_takes (hts : Lexical ts)
    (hk : (currentOf ts).kind = .true ∨ (currentOf ts).kind = .false) :
    Completes boolean ts fun e us => Takes Precedence.index.rank (.expression e) ts us := by
  rcases hk with hk | hk
  · obtain ⟨ts, rfl⟩ := exists_sign_cons hts hk (by decide)
    exact .bind (current_reads.completes (completes_pure ⟨0, _, .boolean true, rfl, .inr rfl⟩))
  · obtain ⟨ts, rfl⟩ := exists_sign_cons hts hk (by decide)
    exact .bind (current_reads.completes (completes_pure ⟨0, _, .boolean false, rfl, .inr rfl⟩))

theorem unary_takes (h : Understands expr) (hts : Lexical ts)
    (hk : (currentOf ts).kind.IsPrefix) :
    Completes (unary expr) ts fun e us => Takes Precedence.unary.rank (.expression e) ts us ∧
      (Precedence.ofKind (nextOf us).kind).rank ≤ Precedence.unary.rank := by
  obtain ⟨us, hus⟩ := exists_sign_cons hts rfl hk.isSign
  generalize (currentOf ts).kind = kind at hk hus
  subst hus
  refine .bind (current_reads.completes (.bind (advance_reads.completes (.bind ?_))))
  refine (h .unary us hts.tail).mono fun e vs he => completes_pure ⟨?_, he.2⟩
  obtain ⟨k, used, hs, hused, hk'⟩ := he.1
  exact ⟨k, _, .unary hk le_rfl hs, congrArg (_ :: ·) hused, hk'⟩

theorem grouped_takes (h : Understands expr) (hts : Lexical ts)
    (hk : (currentOf ts).kind = .lparen) :
    Completes (grouped expr) ts fun e us => Takes Precedence.index.rank (.expression e) ts us := by
  obtain ⟨ts, rfl⟩ := exists_sign_cons hts hk (by decide)
  refine .bind (advance_reads.completes (.bind (.attempt ?_)))
  refine (h.lowest hts.tail).mono fun e us he => .bind (completes_expect fun hclosing => ?_)
  obtain ⟨used, rest, hs, hrest, hused⟩ := he.closed hts.tail hclosing (by decide)
  refine ofOption_reads.completes ⟨0, _, .grouped hs, ?_, .inr rfl⟩
  rw [hrest, show ts = _ from hused]
  simp

theorem elseBlock_takes (h : Understands expr) (hts : Lexical ts.tail) :
    Completes (elseBlock expr) ts fun v us => (v = none ∧ us = ts) ∨
      ∃ b vs, v = some b ∧ ts.tail = .sign .else :: vs ∧ Takes 1 (.block b) vs us := by
  refine .bind (next_reads.completes ?_)
  split
  · next helse =>
    obtain ⟨vs, hvs⟩ := exists_sign_cons hts helse (by decide)
    refine .bind (advance_reads.completes ?_)
    rw [hvs] at hts ⊢
    refine .bind (completes_expect fun hbrace => .bind ?_)
    exact (block_takes h hts.tail hbrace).mono fun b us hb =>
      completes_pure (.inr ⟨b, vs, rfl, rfl, hb⟩)
  · exact completes_pure (.inl ⟨rfl, rfl⟩)

theorem conditional_takes (h : Understands expr) (hts : Lexical ts)
    (hk : (currentOf ts).kind = .if) :
    Completes (conditional expr) ts fun e us =>
      Takes Precedence.index.rank (.expression e) ts us := by
  obtain ⟨ts, rfl⟩ := exists_sign_cons hts hk (by decide)
  refine .bind (current_reads.completes (.bind (completes_expect fun hopening => ?_)))
  obtain ⟨ts, rfl⟩ := exists_sign_cons hts.tail hopening (by decide)
  have hinner : Lexical ts := hts.tail.tail
  refine .bind (advance_reads.completes (.bind (.attempt ?_)))
  refine (h.lowest hinner).mono fun c us hc => .bind (completes_expect fun hclosing => ?_)
  obtain ⟨cs, rest, hcs, hrest, rfl⟩ := hc.closed hinner hclosing (by decide)
  have hrestl : Lexical rest := (hinner.behind rfl).tail
  rw [hrest]
  refine .bind (completes_expect fun hbrace => .bind ?_)
  refine (block_takes h hrestl hbrace).mono fun b vs hb => .bind ?_
  refine (elseBlock_takes h (hb.lexical hrestl)).mono fun v ws hv => ?_
  refine .bind (ofOption_reads.completes (completes_pure ?_))
  obtain ⟨k, bs, hbs, rfl, hopen⟩ := hb
  rcases hv with ⟨rfl, rfl⟩ | ⟨a, as, rfl, has, k', used, hused, rfl, hk'⟩
  · exact ⟨k, _, .conditional hcs hbs, by simp, hopen⟩
  · -- the consequence is closed, because `else` follows
    obtain rfl : k = 0 := hopen.resolve_left (by simp [has])
    exact ⟨k', _, .alternative hcs hbs hused, by simp [has], hk'⟩

/-- Behind each name stands a comma and another name. -/
theorem parameterRounds_takes (hts : Lexical ts) :
    Completes (many (fun ts => decide ((nextOf ts).kind = .comma)) do
      advance; expect .ident; name) ts fun found us => ∃ names : List String,
        found = names.map .ofName ∧
        ts.tail = names.flatMap (fun text => [.sign .comma, ⟨.ident, text⟩]) ++ us.tail := by
  refine .many (I := Lexical) (Q := fun ts found us => ∃ names : List String,
    found = names.map Identifier.ofName ∧
    ts.tail = names.flatMap (fun text => [.sign .comma, ⟨.ident, text⟩]) ++ us.tail)
    (fun us hus hmore => ?_) (fun us _ _ => ⟨[], rfl, rfl⟩) hts
  obtain ⟨rest, hrest⟩ := exists_sign_cons hus.tail (of_decide_eq_true hmore) (by decide)
  refine .bind (advance_reads.completes (.bind (completes_expect fun hname => ?_)))
  rw [hrest] at hname ⊢
  obtain ⟨text, rest, rfl⟩ := exists_cons_of_kind rest hname (by decide)
  refine (name_reads text rest).completes ⟨?_, ?_, ?_⟩
  · have hall := hus.tail.tail
    rwa [hrest] at hall
  · have hle := congrArg List.length hrest
    simp only [List.length_tail, List.length_cons] at hle ⊢
    omega
  · rintro _ ws ⟨names, rfl, hnames⟩
    exact ⟨text :: names, rfl, by simpa [hrest] using hnames⟩

theorem parameters_takes (hts : Lexical ts) :
    Completes parameters ts fun ps us => ∃ names : List String, ps = names.map .ofName ∧
      ts.tail = nameTokens names ++ .sign .rparen :: us.tail := by
  refine .bind (next_reads.completes ?_)
  split
  · next hclosing =>
    obtain ⟨rest, hrest⟩ := exists_sign_cons hts.tail hclosing (by decide)
    refine .bind (advance_reads.completes (completes_pure ⟨[], rfl, ?_⟩))
    rw [hrest]
    rfl
  · refine .bind (completes_expect fun hname => ?_)
    obtain ⟨text, rest, hrest⟩ := exists_cons_of_kind ts.tail hname (by decide)
    have hall := hts.tail
    rw [hrest] at hall ⊢
    refine .bind ((name_reads text _).completes (.bind ?_))
    refine (parameterRounds_takes hall).mono ?_
    rintro _ us ⟨names, rfl, hnames⟩
    refine .bind (completes_expect fun hclosing => ?_)
    obtain ⟨vs, hvs⟩ := exists_sign_cons (hall.tail.behind hnames) hclosing (by decide)
    refine completes_pure ⟨text :: names, rfl, ?_⟩
    rw [hvs] at hnames ⊢
    exact congrArg (_ :: ·) hnames

theorem function_takes (h : Understands expr) (hts : Lexical ts)
    (hk : (currentOf ts).kind = .function) :
    Completes (function expr) ts fun e us =>
      Takes Precedence.index.rank (.expression e) ts us := by
  obtain ⟨ts, rfl⟩ := exists_sign_cons hts hk (by decide)
  refine .bind (current_reads.completes (.bind (completes_expect fun hopening => ?_)))
  obtain ⟨ts, rfl⟩ := exists_sign_cons hts.tail hopening (by decide)
  refine .bind ((parameters_takes hts.tail).mono ?_)
  rintro _ us ⟨names, rfl, hnames⟩
  have hall : Lexical (nameTokens names ++ .sign .rparen :: us.tail) := hnames ▸ hts.tail.tail
  have hus : Lexical us.tail := (hall.behind rfl).tail
  refine .bind (completes_expect fun hbrace => .bind ?_)
  refine (block_takes h hus hbrace).mono fun b vs hb => completes_pure ?_
  obtain ⟨k, bs, hbs, hused, hk⟩ := hb
  refine ⟨k, _, .function names hbs, ?_, hk⟩
  rw [show ts = _ from hnames, hused]
  simp

/-- Items behind a first one, of which each comes after a comma.  They are taken as a whole only
if a closing token follows; otherwise a block in the last of them may be open. -/
def TakesItems (ts : List Token) (es : List Node) (us : List Token) : Prop :=
  us.tail ≠ [] → ∀ e start, Takes 1 (.expression e) start ts →
    ∃ used, Spelled True 1 0 (.items (e :: es)) used ∧ start = used ++ us.tail

theorem itemRounds_takes (h : Understands expr) (hts : Lexical ts.tail) :
    Completes (many (fun ts => decide ((nextOf ts).kind = .comma)) do
      advance; advance; attempt (expr .lowest)) ts fun found us =>
        ∃ es, found = es.map some ∧ TakesItems ts es us := by
  refine .many (I := fun ts => Lexical ts.tail) (Q := fun ts found us =>
    ∃ es, found = es.map some ∧ TakesItems ts es us) (fun us hus hmore => ?_) (fun us _ _ => ?_) hts
  · obtain ⟨rest, hrest⟩ := exists_sign_cons hus (of_decide_eq_true hmore) (by decide)
    have hrestl : Lexical rest := by
      rw [hrest] at hus
      exact hus.tail
    have hround : Completes (do advance; advance; attempt (expr .lowest)) us fun v vs =>
        ∃ e, v = some e ∧ Takes 1 (.expression e) rest vs := by
      refine .bind (advance_reads.completes (.bind (advance_reads.completes (.attempt ?_))))
      rw [hrest]
      exact (h.lowest hrestl).mono fun e vs he => ⟨e, rfl, he⟩
    refine hround.mono ?_
    rintro _ vs ⟨e, rfl, he⟩
    refine ⟨he.lexical hrestl, length_lt_of_tail (hrest ▸ Nat.lt_succ_of_le he.length_le), ?_⟩
    rintro _ ws ⟨es, rfl, hes⟩
    refine ⟨e :: es, rfl, fun hws e₀ start he₀ => ?_⟩
    obtain ⟨used, hs, hused⟩ := hes hws e rest he
    obtain ⟨k, first, hfirst, hstart, hk⟩ := he₀
    obtain rfl : k = 0 := hk.resolve_left (by simp [hrest])
    exact ⟨_, .moreItems hfirst hs, by simp [hstart, hrest, hused]⟩
  · refine ⟨[], rfl, fun hne e start he => ?_⟩
    obtain ⟨k, used, hs, hused, hk⟩ := he
    obtain rfl : k = 0 := hk.resolve_left hne
    exact ⟨used, .lastItem hs, hused⟩

theorem items_takes (h : Understands expr) {closing : TokenKind} (hclosing : closing.IsSign)
    (hts : Lexical ts.tail) :
    Completes (items expr closing) ts fun es us => ∃ used, Spelled True 1 0 (.items es) used ∧
      ts.tail = used ++ .sign closing :: us.tail := by
  refine .bind (next_reads.completes ?_)
  split
  · next hk =>
    obtain ⟨rest, hrest⟩ := exists_sign_cons hts hk hclosing
    exact .bind (advance_reads.completes (completes_pure ⟨[], .noItems, by rw [hrest]; rfl⟩))
  · refine .bind (advance_reads.completes (.bind (.attempt ?_)))
    refine (h.lowest hts).mono fun e us he => .bind ?_
    refine (itemRounds_takes h (he.lexical hts)).mono ?_
    rintro _ vs ⟨es, rfl, hes⟩
    refine .bind (completes_expect fun hk => ?_)
    -- the closing token is there, so that the last item is complete
    have hvs : vs.tail ≠ [] := by
      intro hnil
      have heof : closing = .eof := by rw [← hk, nextOf, hnil]; rfl
      exact absurd (heof ▸ hclosing) (by decide)
    obtain ⟨used, hs, hused⟩ := hes hvs e ts.tail he
    obtain ⟨rest, hrest⟩ := exists_sign_cons (hts.behind hused) hk hclosing
    rw [← List.map_cons, collect_map_some]
    exact ofOption_reads.completes ⟨used, hs, by rw [hrest]; exact hrest ▸ hused⟩

theorem array_takes (h : Understands expr) (hts : Lexical ts)
    (hk : (currentOf ts).kind = .lbracket) :
    Completes (array expr) ts fun e us => Takes Precedence.index.rank (.expression e) ts us := by
  obtain ⟨ts, rfl⟩ := exists_sign_cons hts hk (by decide)
  refine .bind (current_reads.completes (.bind ?_))
  refine (items_takes h (by decide) hts.tail).mono fun es us ⟨used, hs, hused⟩ => ?_
  refine completes_pure ⟨0, _, .array hs, ?_, .inr rfl⟩
  rw [show ts = _ from hused]
  simp

/-- Pairs were taken from behind the current token on, up to a closing brace. -/
def TakesPairs (ts : List Token) (ps : List (Node × Node)) (us : List Token) : Prop :=
  (∃ used, Spelled True 1 0 (.pairs ps) used ∧ ts.tail = used ++ us.tail) ∧
    (nextOf us).kind = .rbrace ∧ ((nextOf ts).kind = .rbrace → ps = [])

/-- A pair is taken with the comma behind it, or a closing brace follows. -/
theorem pair_takes (h : Understands expr) (hts : Lexical ts.tail) :
    Completes (pair expr) ts fun p us => ∃ ks vs, Spelled True 1 0 (.expression p.1) ks ∧
      Spelled True 1 0 (.expression p.2) vs ∧
      (ts.tail = ks ++ .sign .colon :: (vs ++ us.tail) ∧ (nextOf us).kind = .rbrace ∨
        ts.tail = ks ++ .sign .colon :: (vs ++ .sign .comma :: us.tail)) := by
  refine .bind (advance_reads.completes (.bind (.attempt ?_)))
  refine (h.lowest hts).mono fun key us hkey => .bind (completes_expect fun hcolon => ?_)
  obtain ⟨ks, rest, hks, hrest, hused⟩ := hkey.closed hts hcolon (by decide)
  have hrestl : Lexical rest := (hts.behind hused).tail
  rw [hrest]
  refine .bind (advance_reads.completes (.bind (.attempt ?_)))
  refine (h.lowest hrestl).mono fun value vs hvalue => ?_
  refine .bind (ofOption_reads.completes (.bind (ofOption_reads.completes ?_)))
  refine .bind (next_reads.completes ?_)
  split
  · next hclosing =>
    obtain ⟨used, rest', hs, hrest', hused'⟩ := hvalue.closed hrestl hclosing (by decide)
    exact completes_pure ⟨ks, used, hks, hs, .inl ⟨by rw [hused, hused', hrest'], hclosing⟩⟩
  · refine .bind (completes_expect fun hcomma => completes_pure ?_)
    obtain ⟨used, rest', hs, hrest', hused'⟩ := hvalue.closed hrestl hcomma (by decide)
    exact ⟨ks, used, hks, hs, .inr (by rw [hused, hused', hrest']; rfl)⟩

theorem pairs_takes (h : Understands expr) (hts : Lexical ts.tail) :
    Completes (many (fun ts => decide ((nextOf ts).kind ≠ .rbrace)) (pair expr)) ts
      (TakesPairs ts) := by
  refine .many (I := fun ts => Lexical ts.tail) (Q := TakesPairs) (fun us hus hmore => ?_)
    (fun us _ hclosing => ?_) hts
  · refine (pair_takes h hus).mono ?_
    rintro ⟨key, value⟩ vs ⟨ks, used, hks, hs, hused⟩
    have hmore : (nextOf us).kind ≠ .rbrace := of_decide_eq_true hmore
    rcases hused with ⟨hused, hclosing⟩ | hused
    · refine ⟨?_, length_lt_of_tail (by rw [hused]; simp +arith), ?_⟩
      · exact (hus.behind hused).tail.behind rfl
      · rintro ps ws ⟨⟨used', hps, hused'⟩, hbrace, hnil⟩
        obtain rfl := hnil hclosing
        obtain rfl : used' = [] := by
          cases hps
          rfl
        exact ⟨⟨_, .lastPair hks hs, by simpa [hused'] using hused⟩, hbrace, (absurd · hmore)⟩
    · refine ⟨?_, length_lt_of_tail (by rw [hused]; simp +arith), ?_⟩
      · exact ((hus.behind hused).tail.behind rfl).tail
      · rintro ps ws ⟨⟨used', hps, hused'⟩, hbrace, -⟩
        exact ⟨⟨_, .morePairs hks hs hps, by simpa [hused'] using hused⟩, hbrace, (absurd · hmore)⟩
  · exact ⟨⟨[], .noPairs, rfl⟩, by simpa using hclosing, fun _ => rfl⟩

theorem hash_takes (h : Understands expr) (hts : Lexical ts) (hk : (currentOf ts).kind = .lbrace) :
    Completes (hash expr) ts fun e us => Takes Precedence.index.rank (.expression e) ts us := by
  obtain ⟨ts, rfl⟩ := exists_sign_cons hts hk (by decide)
  refine .bind (current_reads.completes (.bind ?_))
  refine (pairs_takes h hts.tail).mono fun ps us ⟨⟨used, hs, hused⟩, hclosing, _⟩ => ?_
  refine .bind (completes_expect fun _ => completes_pure ⟨0, _, .hash hs, ?_, .inr rfl⟩)
  have hus : Lexical us.tail := hts.tail.behind hused
  obtain ⟨rest, hrest⟩ := exists_sign_cons hus hclosing (by decide)
  rw [show ts = _ from hused, hrest]
  simp

/-- Operands take what they take; only a prefix operator may not be what a call or an index goes on
with, and then no such token follows. -/
theorem operand_takes (h : Understands expr) (hts : Lexical ts) :
    Completes (operand expr) ts fun e us => ∃ m, Precedence.unary.rank ≤ m ∧
      Takes m (.expression e) ts us ∧ (Precedence.ofKind (nextOf us).kind).rank ≤ m := by
  have hany : ∀ e us, Takes Precedence.index.rank (.expression e) ts us →
      ∃ m, Precedence.unary.rank ≤ m ∧ Takes m (.expression e) ts us ∧
        (Precedence.ofKind (nextOf us).kind).rank ≤ m :=
    fun e us he => ⟨_, by decide, he, Precedence.rank_le_index _⟩
  have hunary : ∀ e us, Takes Precedence.unary.rank (.expression e) ts us ∧
      (Precedence.ofKind (nextOf us).kind).rank ≤ Precedence.unary.rank →
      ∃ m, Precedence.unary.rank ≤ m ∧ Takes m (.expression e) ts us ∧
        (Precedence.ofKind (nextOf us).kind).rank ≤ m :=
    fun e us he => ⟨_, le_rfl, he⟩
  refine .bind (current_reads.completes ?_)
  split
  · next hk => exact (identifier_takes hk).mono hany
  · next hk => exact (integer_takes hk).mono hany
  · next hk => exact (string_takes hk).mono hany
  · next hk => exact (function_takes h hts hk).mono hany
  · next hk => exact (unary_takes h hts (.inl hk)).mono hunary
  · next hk => exact (unary_takes h hts (.inr hk)).mono hunary
  · next hk => exact (grouped_takes h hts hk).mono hany
  · next hk => exact (conditional_takes h hts hk).mono hany
  · next hk => exact (boolean_takes hts (.inl hk)).mono hany
  · next hk => exact (boolean_takes hts (.inr hk)).mono hany
  · next hk => exact (array_takes h hts hk).mono hany
  · next hk => exact (hash_takes h hts hk).mono hany
  · exact completes_reject

/-! ### Continuations -/

/-- What is known of an expression read above `p` so far: how strong its operators are, and that
the next token does not bind more strongly than these. -/
def TakesAbove (p : Precedence) (ts : List Token) (e : Node) (us : List Token) : Prop :=
  ∃ m, min (p.rank + 1) Precedence.unary.rank ≤ m ∧ Takes m (.expression e) ts us ∧
    (Precedence.ofKind (nextOf us).kind).rank ≤ m

theorem call_takes (h : Understands expr) {m : Nat} {p : Precedence} {callee : Node}
    {ls rest : List Token} (hls : Spelled True m 0 (.expression callee) ls)
    (hm : Precedence.call.rank ≤ m) (hrest : Lexical rest) :
    Completes (call expr callee) (.sign .lparen :: rest) fun e us =>
      TakesAbove p (ls ++ .sign .lparen :: rest) e us ∧ us.tail.length ≤ rest.length := by
  have htail : Lexical (.sign .lparen :: rest : List Token).tail := hrest
  refine .bind (current_reads.completes (.bind ?_))
  refine (items_takes h (by decide) htail).mono fun as us ⟨used, hs, hused⟩ => completes_pure ?_
  obtain rfl : rest = used ++ .sign .rparen :: us.tail := hused
  refine ⟨⟨_, ?_, ⟨0, _, .call (hls.mono hm) hs, ?_, .inr rfl⟩, Precedence.rank_le_index _⟩, ?_⟩
  · exact (Nat.min_le_right _ _).trans (by decide)
  · simp
  · rw [List.length_append, List.length_cons]
    omega

theorem index_takes (h : Understands expr) {m : Nat} {p : Precedence} {target : Node}
    {ls rest : List Token} (hls : Spelled True m 0 (.expression target) ls)
    (hm : Precedence.index.rank ≤ m) (hrest : Lexical rest) :
    Completes (index expr target) (.sign .lbracket :: rest) fun e us =>
      TakesAbove p (ls ++ .sign .lbracket :: rest) e us ∧ us.tail.length ≤ rest.length := by
  refine .bind (current_reads.completes (.bind (advance_reads.completes (.bind (.attempt ?_)))))
  refine (h.lowest hrest).mono fun position us hposition => .bind (completes_expect fun hk => ?_)
  obtain ⟨used, rest', hs, htail, rfl⟩ := hposition.closed hrest hk (by decide)
  refine .bind (ofOption_reads.completes (completes_pure ?_))
  rw [htail]
  refine ⟨⟨_, ?_, ⟨0, _, .index (hls.mono hm) hs, ?_, .inr rfl⟩, Precedence.rank_le_index _⟩, ?_⟩
  · exact (Nat.min_le_right _ _).trans (by decide)
  · simp
  · simp +arith

theorem binary_takes (h : Understands expr) {m : Nat} {p : Precedence} {kind : TokenKind}
    {left : Node} {ls rest : List Token} (hkind : kind.IsInfix) (hlt : p < .ofKind kind)
    (hls : Spelled True m 0 (.expression left) ls) (hm : (Precedence.ofKind kind).rank ≤ m)
    (hrest : Lexical rest) :
    Completes (binary expr left) (.sign kind :: rest) fun e us =>
      TakesAbove p (ls ++ .sign kind :: rest) e us ∧ us.tail.length ≤ rest.length := by
  have hweak := hkind.rank_lt_unary
  refine .bind (current_reads.completes (.bind (advance_reads.completes (.bind ?_))))
  refine (h (.ofKind kind) rest hrest).mono fun right us ⟨hright, hnext⟩ => completes_pure ?_
  refine ⟨⟨_, (Nat.min_le_left _ _).trans hlt, ?_, hnext⟩, hright.length_le⟩
  obtain ⟨k, used, hs, rfl, hk⟩ := hright
  -- infix operators are weaker than prefix operators, so the minimum is one more than their rank
  rw [Nat.min_eq_left (by omega)] at hs
  exact ⟨k, _, .binary hkind le_rfl (hls.mono hm) hs, by simp, hk⟩

theorem continuation_takes (h : Understands expr) (hts : Lexical ts) {p : Precedence} {left : Node}
    {us : List Token} (hleft : TakesAbove p ts left us) (hlt : p < .ofKind (nextOf us).kind) :
    Completes (continuation expr left) us fun e vs =>
      TakesAbove p ts e vs ∧ vs.length < us.length := by
  obtain ⟨m, -, hleft, hm⟩ := hleft
  have hsign : (nextOf us).kind.IsSign := TokenKind.isSign_of_lt hlt
  obtain ⟨ls, rest, hls, hus, rfl⟩ := hleft.closed hts rfl hsign
  have hrest : Lexical rest := (hts.behind rfl).tail
  have hlength : ∀ e vs, TakesAbove p (ls ++ .sign (nextOf us).kind :: rest) e vs ∧
      vs.tail.length ≤ rest.length → TakesAbove p (ls ++ .sign (nextOf us).kind :: rest) e vs ∧
      vs.length < us.length :=
    fun e vs he => ⟨he.1, length_lt_of_tail (hus ▸ Nat.lt_succ_of_le he.2)⟩
  refine .bind (advance_reads.completes (.bind (current_reads.completes ?_)))
  generalize (nextOf us).kind = kind at *
  rw [hus]
  split
  · next hk =>
    obtain rfl : kind = .lparen := hk
    exact (call_takes h hls hm hrest).mono hlength
  · next hk =>
    obtain rfl : kind = .lbracket := hk
    exact (index_takes h hls hm hrest).mono hlength
  · next hparen hbracket =>
    have hkind := TokenKind.isInfix_of_lt hlt hparen hbracket
    exact (binary_takes h hkind hlt hls hm hrest).mono hlength

theorem climb_takes (h : Understands expr) (hts : Lexical ts) {p : Precedence} {left : Node}
    {us : List Token} (hleft : TakesAbove p ts left us) :
    Completes (climb expr p left) us fun e vs =>
      Takes (min (p.rank + 1) Precedence.unary.rank) (.expression e) ts vs ∧
        (Precedence.ofKind (nextOf vs).kind).rank ≤ p.rank := by
  have hrounds : Completes (climb expr p left) us fun e vs => TakesAbove p ts e vs ∧
      decide (p < .ofKind (nextOf vs).kind) = false :=
    .iterate (fun e vs he hmore => continuation_takes h hts he (of_decide_eq_true hmore)) hleft
  refine hrounds.mono fun e vs ⟨⟨m, hm, he, _⟩, hend⟩ => ⟨he.mono hm, ?_⟩
  exact Nat.not_lt.1 (of_decide_eq_false hend)

end Rules

/-! ### The knot -/

theorem expressionWithin_understands (depth : Nat) : Understands (expressionWithin depth) := by
  induction depth with
  | zero => exact fun _ _ _ => .bind (current_reads.completes completes_reject)
  | succ depth ih =>
    intro p ts hts
    refine .bind ((operand_takes ih hts).mono fun left us ⟨m, hm, hleft, hnext⟩ => ?_)
    exact climb_takes ih hts ⟨m, (Nat.min_le_right _ _).trans hm, hleft, hnext⟩

theorem expression_understands : Understands expression := by
  intro p ts hts
  have h := expressionWithin_understands (ts.length + 1) p ts hts
  simp only [Completes, Reads] at h ⊢
  rw [expression_apply]
  exact h

theorem program_takes {ts : List Token} (hts : Lexical ts) :
    Completes program ts fun p _ => ∃ ss k, p = .program ss ∧
      Spelled True 1 k (.statements ss) ts := by
  refine .bind ((statements_takes expression_understands (fun kind => kind = .eof) hts).mono ?_)
  rintro ss us ⟨k, used, hs, rfl, -, hends⟩
  have hus : us = [] := eq_nil_of_kind_eq_eof (hts.behind rfl)
    (of_decide_eq_true hends)
  exact completes_pure ⟨ss, k, rfl, by simpa [hus] using hs⟩

end MonkeyLang.Grammar

namespace MonkeyLang

/-- **No token is lost or invented.**  If a text leaves no diagnostics, its tokens spell the program
that was read from it, but for the closing braces of the blocks that are open at its end. -/
theorem spelled_of_parse {text : List Char} (h : (parse text).diagnostics = []) :
    ∃ ss k, (parse text).program = .program ss ∧ Spelled True 1 k (.statements ss) (scan text) := by
  obtain ⟨p, us, hread, ss, k, rfl, hs⟩ := Grammar.program_takes (lexical_scan text) h
  refine ⟨ss, k, ?_, hs⟩
  simp [parse, parseTokens, show Grammar.program (scan text) = _ from hread]

/-- The text of a function whose body is not closed is one that leaves no diagnostics. -/
theorem spelled_of_open_function :
    (parse "fn() \x7b".toList).diagnostics = [] ∧
      ∃ ss k, (parse "fn() \x7b".toList).program = .program ss ∧
        Spelled True 1 k (.statements ss) (scan "fn() \x7b".toList) := by
  have hparse : (parse "fn() \x7b".toList).diagnostics = [] := by decide +kernel
  exact ⟨hparse, spelled_of_parse hparse⟩

end MonkeyLang
