import MonkeyLang.Proofs.Lexeme
import MonkeyLang.Proofs.Rounds

/-!
# Every diagnostic is paid for

However malformed a text is, it is read to its end, and leaves no more diagnostics than it has
tokens, the end of the text counted as one (`parse_reaches_end`).  The account is kept with a
credit.  Every token that is passed over brings in one, and every diagnostic costs one; so what a
rule may spend is what it passes over, and what it had before (`Rule.Affords`).

* An expression is called with the credit of the token on which it begins.  Where no expression can
  begin, that pays for the diagnostic.
* Otherwise the token has begun a form, and pays for the one token that was expected in this form
  and did not come: a form is abandoned at the first of these.
* A loop over statements may end with an expression that was to begin at the end of the text, which
  is the token that has not been passed over (`statements_affords`).

The account has a second use.  Every part of a form is read from fewer tokens than the form, so it
makes no difference how deeply expressions may be nested, and what would be found at the bottom, as
soon as the depth is more than the number of tokens.  `Affords` compares two rules that differ in
this.
-/

namespace MonkeyLang

namespace Rule

variable {α β : Type} {credit : Nat} {ts : List Token} {rule rule' : Rule α}
  {cont cont' : α → Rule β}

theorem length_pos_of_kind_ne_eof (h : (currentOf ts).kind ≠ .eof) : 0 < ts.length :=
  List.length_pos_iff.2 fun hnil => h (by rw [hnil]; rfl)

theorem length_pos_of_next_kind_ne_eof (h : (nextOf ts).kind ≠ .eof) : 0 < ts.length :=
  (length_pos_of_kind_ne_eof h).trans_le (List.tail_suffix ts).length_le

/-- From `ts` the rule records no more diagnostics than it passes over tokens, except for some that
the credit pays for, and the other rule does the same. -/
structure Affords (credit : Nat) (rule rule' : Rule α) (ts : List Token) : Prop where
  same : rule' ts = rule ts
  length_le : (rule ts).rest.length ≤ ts.length
  cost : (rule ts).diagnostics.length + (rule ts).rest.length ≤ ts.length + credit

namespace Affords

theorem mono {more : Nat} (h : Affords credit rule rule' ts) (hle : credit ≤ more) :
    Affords more rule rule' ts :=
  ⟨h.same, h.length_le, h.cost.trans (Nat.add_le_add_left hle _)⟩

theorem congr {other other' : Rule α} (h : Affords credit rule rule' ts)
    (happly : other ts = rule ts) (happly' : other' ts = rule' ts) :
    Affords credit other other' ts :=
  ⟨by rw [happly, happly', h.same], by rw [happly]; exact h.length_le, by
    rw [happly]; exact h.cost⟩

/-- A rule that stays where it is pays for its diagnostics out of the credit. -/
theorem of_rest (hrest : (rule ts).rest = ts) (hcost : (rule ts).diagnostics.length ≤ credit) :
    Affords credit rule rule ts :=
  ⟨rfl, by rw [hrest], by rw [hrest, Nat.add_comm]; exact Nat.add_le_add_left hcost _⟩

/-! ### Composition -/

/-- Nothing follows a step that is abandoned. -/
theorem abandoned (h : Affords credit rule rule' ts) (hnone : (rule ts).value = none) :
    Affords credit (rule >>= cont) (rule' >>= cont') ts := by
  have hnone' : (rule' ts).value = none := h.same ▸ hnone
  refine ⟨?_, ?_, ?_⟩
  · rw [bind_apply_of_none hnone, bind_apply_of_none hnone', h.same]
  · rw [bind_apply_of_none hnone]
    exact h.length_le
  · rw [bind_apply_of_none hnone]
    exact h.cost

/-- The rule for sequence, for steps that may spend something each. -/
theorem bindBoth {first rest : Nat} (h : Affords first rule rule' ts)
    (hcont : ∀ a, (rule ts).value = some a → Affords rest (cont a) (cont' a) (rule ts).rest)
    (hle : first + rest ≤ credit) : Affords credit (rule >>= cont) (rule' >>= cont') ts := by
  cases hv : (rule ts).value with
  | none => exact (h.mono ((Nat.le_add_right _ _).trans hle)).abandoned hv
  | some a =>
    have hv' : (rule' ts).value = some a := h.same ▸ hv
    have hafter := hcont a hv
    have hcost := h.cost
    have hcostAfter := hafter.cost
    refine ⟨?_, ?_, ?_⟩
    · rw [bind_apply_of_some hv, bind_apply_of_some hv', h.same, hafter.same]
    · rw [bind_apply_of_some hv]
      exact hafter.length_le.trans h.length_le
    · rw [bind_apply_of_some hv, List.length_append]
      dsimp only
      omega

/-- A step that costs nothing. -/
theorem bind (h : Affords 0 rule rule' ts)
    (hcont : ∀ a us, us.length ≤ ts.length → Affords credit (cont a) (cont' a) us) :
    Affords credit (rule >>= cont) (rule' >>= cont') ts :=
  h.bindBoth (fun a _ => hcont a _ h.length_le) (Nat.zero_add credit).le

/-- A step for which one of the credit is spent. -/
theorem spend (h : Affords 1 rule rule' ts)
    (hcont : ∀ a us, us.length ≤ ts.length → Affords credit (cont a) (cont' a) us) :
    Affords (credit + 1) (rule >>= cont) (rule' >>= cont') ts :=
  h.bindBoth (fun a _ => hcont a _ h.length_le) (Nat.add_comm 1 credit).le

theorem pure (a : α) : Affords credit (pure a) (pure a) ts :=
  of_rest rfl (Nat.zero_le _)

/-- What becomes of a result is free. -/
theorem map (h : Affords credit rule rule' ts) (f : α → β) :
    Affords credit (rule >>= fun a => Pure.pure (f a)) (rule' >>= fun a => Pure.pure (f a)) ts :=
  h.bindBoth (fun _ _ => pure _) (Nat.add_zero credit).le

theorem reject (diagnostic : Diagnostic) :
    Affords (credit + 1) (reject diagnostic : Rule α) (Rule.reject diagnostic) ts :=
  of_rest rfl (Nat.le_add_left _ _)

theorem ofOption (v : Option α) : Affords credit (ofOption v) (Rule.ofOption v) ts := by
  cases v <;> exact of_rest rfl (Nat.zero_le _)

theorem attempt (h : Affords credit rule rule' ts) :
    Affords credit (attempt rule) (Rule.attempt rule') ts :=
  ⟨by simp only [Rule.attempt, h.same], h.length_le, h.cost⟩

theorem ite {c : Prop} [Decidable c] {other other' : Rule α}
    (h : c → Affords credit rule rule' ts) (hother : ¬c → Affords credit other other' ts) :
    Affords credit (if c then rule else other) (if c then rule' else other') ts := by
  split
  · exact h ‹_›
  · exact hother ‹_›

/-! ### Tokens -/

theorem current {cont cont' : Token → Rule β}
    (h : Affords credit (cont (currentOf ts)) (cont' (currentOf ts)) ts) :
    Affords credit (current >>= cont) (Rule.current >>= cont') ts :=
  ⟨h.same, h.length_le, h.cost⟩

theorem next {cont cont' : Token → Rule β}
    (h : Affords credit (cont (nextOf ts)) (cont' (nextOf ts)) ts) :
    Affords credit (next >>= cont) (Rule.next >>= cont') ts :=
  ⟨h.same, h.length_le, h.cost⟩

/-- Moving on brings in one, if there is a token to be passed over. -/
theorem advance {cont cont' : Unit → Rule β} (hts : 0 < ts.length)
    (h : Affords (credit + 1) (cont ()) (cont' ()) ts.tail) :
    Affords credit (advance >>= cont) (Rule.advance >>= cont') ts := by
  have hlength := h.length_le
  have hcost := h.cost
  rw [List.length_tail] at hlength hcost
  refine ⟨h.same, ?_, ?_⟩
  · change (cont () ts.tail).rest.length ≤ _
    omega
  · change (cont () ts.tail).diagnostics.length + (cont () ts.tail).rest.length ≤ _
    omega

theorem advance_last : Affords 0 Rule.advance Rule.advance ts := by
  refine ⟨rfl, ?_, ?_⟩ <;> simp [Rule.advance]

/-- An expectation that is met brings in one. -/
theorem expect_met {kind : TokenKind} {cont cont' : Unit → Rule β}
    (hnext : (nextOf ts).kind = kind) (hkind : kind ≠ .eof)
    (h : Affords (credit + 1) (cont ()) (cont' ()) ts.tail) :
    Affords credit (expect kind >>= cont) (Rule.expect kind >>= cont') ts := by
  have happly : Rule.expect kind ts = Rule.advance ts := if_pos hnext
  have hpos : 0 < ts.length := length_pos_of_next_kind_ne_eof (hnext ▸ hkind)
  exact (advance hpos h).congr (bind_apply_congr happly cont) (bind_apply_congr happly cont')

/-- An expectation costs one, unless it is met. -/
theorem expect {kind : TokenKind} {cont cont' : Unit → Rule β} (hkind : kind ≠ .eof)
    (h : 0 < ts.tail.length → Affords (credit + 2) (cont ()) (cont' ()) ts.tail) :
    Affords (credit + 1) (expect kind >>= cont) (Rule.expect kind >>= cont') ts := by
  by_cases hnext : (nextOf ts).kind = kind
  · exact expect_met hnext hkind (h (length_pos_of_kind_ne_eof (hnext ▸ hkind)))
  · have happly : Rule.expect kind ts = Rule.reject (.expected kind (nextOf ts).kind) ts :=
      if_neg hnext
    have hreject : Affords (credit + 1)
        (Rule.reject (.expected kind (nextOf ts).kind) >>= cont)
        (Rule.reject (.expected kind (nextOf ts).kind) >>= cont') ts :=
      (reject _).abandoned rfl
    exact hreject.congr (bind_apply_congr happly cont) (bind_apply_congr happly cont')

theorem skip (kind : TokenKind) : Affords 0 (skip kind) (Rule.skip kind) ts := by
  unfold Rule.skip
  by_cases hnext : (nextOf ts).kind = kind
  · exact advance_last.congr (if_pos hnext) (if_pos hnext)
  · exact (pure ()).congr (if_neg hnext) (if_neg hnext)

/-! ### Repetition -/

/-- A loop is over after a round that is abandoned, or that leaves no token where the test asks for
one. -/
def EndsLoop (more : List Token → Bool) (rule : Rule α) (ts : List Token) : Prop :=
  (rule ts).value = none ∨ (rule ts).rest = [] ∧ more [] = false

/-- A loop of which only the last round may cost anything.  If the test does not ask for a token,
every round has to leave one. -/
theorem manyWithin {more : List Token → Bool} (hts : more [] = true → 0 < ts.length) (rounds : Nat)
    (h : ∀ us, us.length ≤ ts.length → 0 < us.length → more us → Affords credit rule rule' us ∧
      (EndsLoop more rule us ∨
        Affords 0 rule rule' us ∧ (more [] = true → 0 < (rule us).rest.length))) :
    Affords credit (manyWithin more rule rounds) (Rule.manyWithin more rule' rounds) ts := by
  induction rounds generalizing ts with
  | zero => exact pure []
  | succ rounds ih =>
    by_cases hm : more ts
    · have hpos : 0 < ts.length := by
        cases ts with
        | nil => exact hts hm
        | cons => exact Nat.succ_pos _
      obtain ⟨hround, hlast⟩ := h ts le_rfl hpos hm
      have hloop : Affords credit
          (rule >>= fun a => Rule.manyWithin more rule rounds >>= fun as => Pure.pure (a :: as))
          (rule' >>= fun a => Rule.manyWithin more rule' rounds >>= fun as => Pure.pure (a :: as))
          ts := by
        rcases hlast with (hnone | ⟨hnil, hmore⟩) | ⟨hfree, hleft⟩
        · exact hround.abandoned hnone
        · -- nothing is left, so what follows is the end of the loop
          refine hround.bindBoth (fun a _ => ?_) (Nat.add_zero credit).le
          rw [hnil]
          refine Affords.map ?_ _
          cases rounds with
          | zero => exact pure []
          | succ rounds =>
            exact (pure []).congr (if_neg (by simp [hmore])) (if_neg (by simp [hmore]))
        · refine hfree.bindBoth (fun a _ => Affords.map ?_ _) (Nat.zero_add credit).le
          exact ih hleft fun us hus => h us (hus.trans hfree.length_le)
      exact hloop.congr (if_pos hm) (if_pos hm)
    · exact (pure []).congr (if_neg hm) (if_neg hm)

theorem many {more : List Token → Bool} (hts : more [] = true → 0 < ts.length)
    (h : ∀ us, us.length ≤ ts.length → 0 < us.length → more us → Affords credit rule rule' us ∧
      (EndsLoop more rule us ∨
        Affords 0 rule rule' us ∧ (more [] = true → 0 < (rule us).rest.length))) :
    Affords credit (many more rule) (Rule.many more rule') ts :=
  (manyWithin hts (ts.length + 1) h).congr rfl rfl

/-- A loop of which no round costs anything. -/
theorem manyFree {more : List Token → Bool} (hnil : more [] = false)
    (h : ∀ us, us.length ≤ ts.length → more us → Affords 0 rule rule' us) :
    Affords 0 (Rule.many more rule) (Rule.many more rule') ts := by
  have hnot : ∀ n, more [] = true → 0 < n := fun _ hmore =>
    absurd (hnil.symm.trans hmore) Bool.false_ne_true
  exact many (hnot _) fun us hus _ hmore => ⟨h us hus hmore, .inr ⟨h us hus hmore, hnot _⟩⟩

theorem iterateWithin {more : List Token → Bool} {step step' : α → Rule α} (rounds : Nat)
    (h : ∀ a us, us.length ≤ ts.length → more us → Affords 0 (step a) (step' a) us) (a : α) :
    Affords 0 (iterateWithin more step rounds a) (Rule.iterateWithin more step' rounds a) ts := by
  induction rounds generalizing ts a with
  | zero => exact pure a
  | succ rounds ih =>
    by_cases hm : more ts
    · have hround := (h a ts le_rfl hm).bind fun b us hus =>
        ih (fun c vs hvs => h c vs (hvs.trans hus)) b
      exact hround.congr (if_pos hm) (if_pos hm)
    · exact (pure a).congr (if_neg hm) (if_neg hm)

theorem iterate {more : List Token → Bool} {step step' : α → Rule α}
    (h : ∀ a us, us.length ≤ ts.length → more us → Affords 0 (step a) (step' a) us) (a : α) :
    Affords 0 (iterate more step a) (Rule.iterate more step' a) ts :=
  (iterateWithin (ts.length + 1) h a).congr rfl rfl

end Affords

end Rule

namespace Grammar

open Rule

variable {expr expr' : ExpressionRule} {ts us : List Token}

/-- Where no more tokens than these are left, the rule for expressions spends one at most. -/
def AffordsAll (ts : List Token) (expr expr' : ExpressionRule) : Prop :=
  ∀ p us, us.length ≤ ts.length → Affords 1 (expr p) (expr' p) us

namespace AffordsAll

theorem here (h : AffordsAll ts expr expr') (p : Precedence) :
    Affords 1 (expr p) (expr' p) ts :=
  h p ts le_rfl

theorem mono (h : AffordsAll ts expr expr') (hus : us.length ≤ ts.length) :
    AffordsAll us expr expr' :=
  fun p vs hvs => h p vs (hvs.trans hus)

theorem tail (h : AffordsAll ts expr expr') : AffordsAll ts.tail expr expr' :=
  h.mono (List.tail_suffix ts).length_le

/-- What holds behind the current token holds behind every token after it. -/
theorem behind (h : AffordsAll ts.tail expr expr') (hus : us.length ≤ ts.length) :
    AffordsAll us.tail expr expr' :=
  h.mono (by simp only [List.length_tail]; omega)

end AffordsAll

/-! ### Statements -/

theorem name_affords : Affords 0 name name ts :=
  .current (.pure _)

theorem letStatement_affords (h : AffordsAll ts.tail expr expr') :
    Affords 1 (letStatement expr) (letStatement expr') ts :=
  .current <| .expect (by decide) fun _ => .bind name_affords fun _ us hus =>
    .expect (by decide) fun hpos => .advance hpos <| .spend ((h.mono hus).tail.tail.here _).attempt
      fun _ _ _ => .bind (.skip _) fun _ _ _ => .bind (.ofOption _) fun _ _ _ => .pure _

theorem returnStatement_affords (hts : 0 < ts.length) (h : AffordsAll ts.tail expr expr') :
    Affords 1 (returnStatement expr) (returnStatement expr') ts := by
  refine .current (.next ?_)
  split
  · exact .advance hts (.pure _)
  · exact .pure _
  · exact .pure _
  · exact .advance hts <| .spend (h.here _).attempt fun _ _ _ => .bind (.skip _) fun _ _ _ =>
      .bind (.ofOption _) fun _ _ _ => .pure _

theorem expressionStatement_affords (h : AffordsAll ts expr expr') :
    Affords 1 (expressionStatement expr) (expressionStatement expr') ts :=
  .current <| .spend (h.here _).attempt fun _ _ _ => .bind (.skip _) fun _ _ _ =>
    .bind (.ofOption _) fun _ _ _ => .pure _

theorem statement_affords (hts : 0 < ts.length) (h : AffordsAll ts expr expr') :
    Affords 1 (statement expr) (statement expr') ts := by
  refine .current ?_
  split
  · exact letStatement_affords h.tail
  · exact returnStatement_affords hts h.tail
  · exact expressionStatement_affords h

/-- What a statement spends comes back as the token behind it is passed over.  Only if there is no
such token the loop over statements has spent it, and is at its end. -/
theorem statements_affords (h : AffordsAll ts expr expr') {ends : TokenKind → Bool}
    (heof : ends .eof = true) : Affords 1 (statements expr ends) (statements expr' ends) ts := by
  have hnil : (!ends (currentOf []).kind) = false := by simp [currentOf, Token.eof, heof]
  have hnot : ∀ n, (!ends (currentOf []).kind) = true → 0 < n := fun _ hmore =>
    absurd (hnil.symm.trans hmore) Bool.false_ne_true
  refine Affords.map (Affords.many (hnot _) fun us hus hpos _ => ?_) _
  have hstatement := statement_affords hpos (h.mono hus)
  have hlength := hstatement.length_le
  have hcost := hstatement.cost
  have hround := statementRound_apply expr us
  have hround' := statementRound_apply expr' us
  rw [hstatement.same] at hround'
  have hsame := hround'.trans hround.symm
  refine ⟨⟨hsame, ?_, ?_⟩, ?_⟩
  · rw [hround, List.length_tail]
    omega
  · rw [hround, List.length_tail]
    dsimp only
    omega
  · by_cases hrest : (statement expr us).rest = []
    · exact .inl (.inr ⟨by rw [hround, hrest]; rfl, hnil⟩)
    · have hleft := List.length_pos_iff.2 hrest
      refine .inr ⟨⟨hsame, ?_, ?_⟩, hnot _⟩
      · rw [hround, List.length_tail]
        omega
      · rw [hround, List.length_tail]
        dsimp only
        omega

theorem block_affords (hts : 0 < ts.length) (h : AffordsAll ts.tail expr expr') :
    Affords 0 (block expr) (block expr') ts :=
  .current <| .advance hts <| (statements_affords h rfl).map _

/-! ### Operands -/

theorem integer_affords : Affords 1 integer integer ts := by
  refine .current ?_
  split
  · exact .reject _
  · exact .ite (fun _ => .reject _) fun _ => .pure _

theorem unary_affords (hts : 0 < ts.length) (h : AffordsAll ts.tail expr expr') :
    Affords 1 (unary expr) (unary expr') ts :=
  .current <| .advance hts <| .spend (h.here _) fun _ _ _ => .pure _

theorem grouped_affords (hts : 0 < ts.length) (h : AffordsAll ts.tail expr expr') :
    Affords 1 (grouped expr) (grouped expr') ts :=
  .advance hts <| .spend (h.here _).attempt fun _ _ _ => .expect (by decide) fun _ => .ofOption _

theorem elseBlock_affords (h : AffordsAll ts.tail expr expr') :
    Affords 0 (elseBlock expr) (elseBlock expr') ts :=
  .next <| .ite (fun hkind => .advance (length_pos_of_next_kind_ne_eof (by simp [hkind])) <|
    .expect (by decide) fun hpos => .bind (block_affords hpos h.tail.tail) fun _ _ _ => .pure _)
      fun _ => .pure _

theorem conditional_affords (h : AffordsAll ts.tail expr expr') :
    Affords 1 (conditional expr) (conditional expr') ts :=
  .current <| .expect (by decide) fun hparen => .advance hparen <|
    have hcondition := h.tail
    .spend (hcondition.here _).attempt fun _ us hus => .expect (by decide) fun _ =>
      .expect (by decide) fun hbrace =>
        have hblock := (hcondition.mono hus).tail.tail.tail
        .bind (block_affords hbrace hblock) fun _ vs hvs =>
          .bind (elseBlock_affords (hblock.behind hvs)) fun _ _ _ => .bind (.ofOption _)
            fun _ _ _ => .pure _

theorem parameters_affords : Affords 1 parameters parameters ts :=
  .next <| .ite (fun hkind => .advance (length_pos_of_next_kind_ne_eof (by simp [hkind])) <|
    .pure _) fun _ => .expect (by decide) fun _ => .bind name_affords fun _ _ _ =>
      .bind (.manyFree rfl fun _ _ hmore =>
        .advance (length_pos_of_next_kind_ne_eof (by simp [of_decide_eq_true hmore])) <|
          .expect (by decide) fun _ => name_affords.mono (Nat.zero_le _)) fun _ _ _ =>
        .expect (by decide) fun _ => .pure _

theorem function_affords (h : AffordsAll ts.tail expr expr') :
    Affords 1 (function expr) (function expr') ts :=
  .current <| .expect (by decide) fun _ => .spend parameters_affords fun _ us hus =>
    .expect (by decide) fun hbrace =>
      .bind (block_affords hbrace (h.mono hus).tail.tail) fun _ _ _ => .pure _

/-- Every comma pays for the item behind it, and the opening bracket for the first item. -/
theorem items_affords (hts : 0 < ts.length) (h : AffordsAll ts.tail expr expr')
    {closing : TokenKind} (hclosing : closing ≠ .eof) :
    Affords 1 (items expr closing) (items expr' closing) ts :=
  .next <| .ite (fun _ => .advance hts <| .pure _) fun _ => .advance hts <|
    .spend (h.here _).attempt fun _ _ hus =>
      .bind (.manyFree rfl fun vs hvs hmore =>
        have hcomma : (nextOf vs).kind ≠ .eof := by simp [of_decide_eq_true hmore]
        .advance (length_pos_of_next_kind_ne_eof hcomma) <|
          .advance (length_pos_of_kind_ne_eof hcomma) <|
            ((((h.mono hus).mono hvs).tail.tail.here _).attempt).mono (Nat.le_succ 1))
        fun _ _ _ => .expect hclosing fun _ => .ofOption _

theorem array_affords (hts : 0 < ts.length) (h : AffordsAll ts.tail expr expr') :
    Affords 1 (array expr) (array expr') ts :=
  .current <| (items_affords hts h (by decide)).map _

/-- A pair that is read leaves its last token, or the comma behind it. -/
theorem pair_gives_rest (expr : ExpressionRule) (ts : List Token) :
    Gives (pair expr) ts fun _ us => 0 < us.length := by
  simp only [pair, gives_bind, gives_advance, gives_attempt, gives_expect, gives_ofOption,
    gives_next, gives_ite, gives_pure]
  intro _ _ _ _ _
  refine ⟨fun hbrace => ?_, fun _ hcomma => ?_⟩
  · exact length_pos_of_next_kind_ne_eof (by simp [hbrace])
  · exact length_pos_of_kind_ne_eof (show (nextOf _).kind ≠ .eof by simp [hcomma])

/-- What stands behind the colon of a pair pays for itself. -/
theorem pairValue_affords (hts : 0 < ts.length) (h : AffordsAll ts.tail expr expr')
    (key : Option Node) :
    Affords 1
      (do advance
          let value ← attempt (expr .lowest)
          let key ← ofOption key
          let value ← ofOption value
          if (← next).kind = .rbrace then return (key, value)
          else
            expect .comma
            return (key, value))
      (do advance
          let value ← attempt (expr' .lowest)
          let key ← ofOption key
          let value ← ofOption value
          if (← next).kind = .rbrace then return (key, value)
          else
            expect .comma
            return (key, value)) ts :=
  .advance hts <| .spend (h.here _).attempt fun _ _ _ => .bind (.ofOption _) fun _ _ _ =>
    .bind (.ofOption _) fun _ _ _ => .next <| .ite (fun _ => .pure _) fun _ =>
      .expect (by decide) fun _ => .pure _

/-- A pair costs nothing, unless it is abandoned because no colon stands behind its key. -/
theorem pair_affords (hts : 0 < ts.length) (h : AffordsAll ts.tail expr expr') :
    Affords 1 (pair expr) (pair expr') ts ∧ ((pair expr ts).value = none ∨
      Affords 0 (pair expr) (pair expr') ts ∧ 0 < (pair expr ts).rest.length) := by
  have hkey := (h.here .lowest).attempt
  refine ⟨.advance hts <| .spend hkey fun key us hus => .expect (by decide) fun hcolon =>
    (pairValue_affords hcolon (h.mono hus).tail.tail key).mono (Nat.le_succ 1), ?_⟩
  cases hpair : (pair expr ts).value with
  | none => exact .inl rfl
  | some found =>
    refine .inr ⟨.advance hts <| hkey.bindBoth (fun key _ => ?_) (Nat.add_zero 1).le,
      pair_gives_rest expr ts found hpair⟩
    have hcolon : (nextOf (attempt (expr .lowest) ts.tail).rest).kind = .colon := by
      by_contra hmissed
      have hnone : Gives (pair expr) ts fun _ _ => False := by
        simp only [pair, gives_bind, gives_advance, gives_attempt, gives_expect]
        exact fun hmet => absurd hmet hmissed
      exact hnone found hpair
    exact .expect_met hcolon (by decide) <| pairValue_affords
      (length_pos_of_kind_ne_eof (show (nextOf _).kind ≠ .eof by simp [hcolon]))
      (h.mono hkey.length_le).tail.tail key

/-- Every pair but the last pays for itself with its comma, and the opening brace pays for the
expectation that is not met. -/
theorem hash_affords (hts : 0 < ts.length) (leaves : ∀ p, Leaves (expr p))
    (h : AffordsAll ts.tail expr expr') : Affords 1 (hash expr) (hash expr') ts := by
  have hpairs : Affords 1 (many (fun ts => (nextOf ts).kind ≠ .rbrace) (pair expr))
      (many (fun ts => (nextOf ts).kind ≠ .rbrace) (pair expr')) ts := by
    refine .many (fun _ => hts) fun us hus hpos _ => ?_
    obtain ⟨hcost, hnone | hfree⟩ := pair_affords hpos (h.behind hus)
    · exact ⟨hcost, .inl (.inl hnone)⟩
    · exact ⟨hcost, .inr ⟨hfree.1, fun _ => hfree.2⟩⟩
  have hstop : Gives (many (fun ts => (nextOf ts).kind ≠ .rbrace) (pair expr)) ts
      fun _ us => decide ((nextOf us).kind ≠ .rbrace) = false :=
    many_gives_stop (fun _ => pair_nil leaves) (advances_pair leaves) ts
  exact .current <| hpairs.bindBoth (fun found hfound => .expect_met
    (by simpa using hstop found hfound) (by decide) (.pure _)) (Nat.add_zero 1).le

theorem operand_affords (leaves : ∀ p, Leaves (expr p)) (h : AffordsAll ts.tail expr expr') :
    Affords 1 (operand expr) (operand expr') ts := by
  refine .current ?_
  by_cases hkind : (currentOf ts).kind = .eof
  · rw [hkind]
    exact .reject _
  have hts : 0 < ts.length := length_pos_of_kind_ne_eof hkind
  split
  · exact .bind name_affords fun _ _ _ => .pure _
  · exact integer_affords
  · exact .current (.pure _)
  · exact function_affords h
  · exact unary_affords hts h
  · exact unary_affords hts h
  · exact grouped_affords hts h
  · exact conditional_affords h
  · exact .current (.pure _)
  · exact .current (.pure _)
  · exact array_affords hts h
  · exact hash_affords hts leaves h
  · exact .reject _

/-! ### Continuations -/

theorem binary_affords (hts : 0 < ts.length) (h : AffordsAll ts.tail expr expr') (left : Node) :
    Affords 1 (binary expr left) (binary expr' left) ts :=
  .current <| .advance hts <| .spend (h.here _) fun _ _ _ => .pure _

theorem call_affords (hts : 0 < ts.length) (h : AffordsAll ts.tail expr expr') (callee : Node) :
    Affords 1 (call expr callee) (call expr' callee) ts :=
  .current <| (items_affords hts h (by decide)).map _

theorem index_affords (hts : 0 < ts.length) (h : AffordsAll ts.tail expr expr') (target : Node) :
    Affords 1 (index expr target) (index expr' target) ts :=
  .current <| .advance hts <| .spend (h.here _).attempt fun _ _ _ => .expect (by decide) fun _ =>
    .bind (.ofOption _) fun _ _ _ => .pure _

/-- The end of the text continues no expression, however weakly that is bound. -/
theorem ne_eof_of_lt_ofKind {p : Precedence} {kind : TokenKind} (h : p < .ofKind kind) :
    kind ≠ .eof := by
  rintro rfl
  cases p <;> exact absurd h (by decide)

/-- The token that continues an expression pays for the form that it begins. -/
theorem continuation_affords (h : AffordsAll ts.tail expr expr') (hkind : (nextOf ts).kind ≠ .eof)
    (left : Node) : Affords 0 (continuation expr left) (continuation expr' left) ts := by
  have hpos : 0 < ts.tail.length := length_pos_of_kind_ne_eof hkind
  refine .advance (length_pos_of_next_kind_ne_eof hkind) (.current ?_)
  split
  · exact call_affords hpos h.tail left
  · exact index_affords hpos h.tail left
  · exact binary_affords hpos h.tail left

theorem climb_affords (h : AffordsAll ts.tail expr expr') (p : Precedence) (left : Node) :
    Affords 0 (climb expr p left) (climb expr' p left) ts :=
  .iterate (fun left _ hus hmore => continuation_affords (h.behind hus)
    (ne_eof_of_lt_ofKind (of_decide_eq_true hmore)) left) left

/-! ### The knot -/

/-- An operand, and what continues it. -/
theorem climbing_affords (leaves : ∀ p, Leaves (expr p)) (h : AffordsAll ts.tail expr expr')
    (p : Precedence) : Affords 1 (do let left ← operand expr; climb expr p left)
      (do let left ← operand expr'; climb expr' p left) ts := by
  have hoperand := operand_affords leaves h
  exact hoperand.bindBoth (fun left _ => climb_affords (h.behind hoperand.length_le) p left)
    (Nat.add_zero 1).le

/-- The rule for expressions at a depth of nesting, over some rule for what is nested more deeply.
-/
def expressionOver (bottom : ExpressionRule) : Nat → ExpressionRule
  | 0 => bottom
  | depth + 1 => fun p => do
    let left ← operand (expressionOver bottom depth)
    climb (expressionOver bottom depth) p left

/-- Whatever the depth, no expression begins at the end of the text. -/
theorem expressionWithin_nil (depth : Nat) (p : Precedence) :
    expressionWithin depth p [] = reject (.noOperand .eof) [] := by
  cases depth <;> rfl

/-- As soon as the depth is more than the number of tokens, it makes no difference what is found at
the bottom: expressions are not nested as deeply as that. -/
theorem expressionWithin_affords {depth depth' : Nat} (hdepth : ts.length ≤ depth)
    (hdepth' : ts.length < depth') (bottom : ExpressionRule) (p : Precedence) :
    Affords 1 (expressionWithin depth p) (expressionOver bottom depth' p) ts := by
  induction depth' generalizing depth ts p with
  | zero => omega
  | succ depth' ih =>
    cases ts with
    | nil => exact (Affords.reject (.noOperand .eof)).congr (expressionWithin_nil depth p) rfl
    | cons t ts =>
      obtain ⟨depth, rfl⟩ := Nat.exists_eq_succ_of_ne_zero (Nat.ne_zero_of_lt hdepth)
      simp only [List.length_cons] at hdepth hdepth'
      exact climbing_affords (expressionWithin_leaves depth)
        (fun q us hus => ih (hus.trans (by simpa using hdepth)) (by simp at hus; omega) q) p

/-- The rule for expressions, compared with one whose depth is more than the number of tokens. -/
theorem expression_affords {depth : Nat} (hdepth : ts.length < depth) (bottom : ExpressionRule)
    (p : Precedence) : Affords 1 (expression p) (expressionOver bottom depth p) ts :=
  (expressionWithin_affords (Nat.le_succ _) hdepth bottom p).congr (expression_apply p ts) rfl

/-- An expression is an operand and what continues it, in which expressions may be nested. -/
theorem expression_eq (p : Precedence) :
    expression p = (do let left ← operand expression; climb expression p left) := by
  funext ts
  have hover : AffordsAll ts.tail (expressionWithin ts.length) expression := fun q us hus => by
    have hlength : us.length ≤ ts.length := hus.trans (List.tail_suffix ts).length_le
    have hwithin := expressionWithin_affords hlength (Nat.lt_succ_self us.length) expression q
    have hfull := expression_affords (Nat.lt_succ_self us.length) expression q
    exact ⟨hfull.same.symm.trans hwithin.same, hwithin.length_le, hwithin.cost⟩
  exact (climbing_affords (expressionWithin_leaves _) hover p).same.symm

/-! ### Programs -/

theorem program_affords (ts : List Token) : Affords 1 program program ts := by
  have hself : AffordsAll ts expression expression := fun p us _ =>
    have h := expression_affords (Nat.lt_succ_self us.length) expression p
    ⟨rfl, h.length_le, h.cost⟩
  exact (statements_affords hself rfl).map _

/-- The statements of a program are read up to the end of the text. -/
theorem program_rest (text : List Char) : (program (scan text)).rest = [] := by
  obtain ⟨found, hfound⟩ := Option.isSome_iff_exists.1 (programRounds_isSome (scan text))
  have hprogram : program (scan text) = ((many inProgram programRound >>= fun found =>
    pure (found.filterMap id)) >>= fun ss => pure (.program ss)) (scan text) := rfl
  have hgives : Gives (many inProgram programRound) (scan text) fun _ us => inProgram us = false :=
    many_gives_stop (by nofun) advances_programRound (scan text)
  have hstop : (currentOf (many inProgram programRound (scan text)).rest).kind = .eof := by
    simpa [inProgram] using hgives found hfound
  have hlexical : Lexical (many inProgram programRound (scan text)).rest :=
    (lexical_scan text).suffix (Leaves.many _ (statementRound_leaves expression_leaves) _)
  rw [hprogram, bind_pure_apply, bind_pure_apply]
  cases hrest : (many inProgram programRound (scan text)).rest with
  | nil => rfl
  | cons t us =>
    rw [hrest] at hstop hlexical
    exact absurd hstop (hlexical t List.mem_cons_self).kind_ne_eof

/-- **Reading comes to an end, and complains of no more than there is.**  The rule for expressions
is the recursion that its parts call for, which is over before it is nested more deeply than there
are tokens, whatever would be found there; its loops go round until their tests fail.  However
malformed a text is, its statements are read up to its end, and leave no more diagnostics than it
has tokens, the end of the text counted as one. -/
theorem parse_reaches_end :
    (∀ p, expression p = (do let left ← operand expression; climb expression p left)) ∧
    (∀ bottom p ts more, expressionOver bottom (ts.length + 1 + more) p ts = expression p ts) ∧
    LoopsGoRound expression ∧
    ∀ text, (program (scan text)).rest = [] ∧
      (parse text).diagnostics.length ≤ (tokens text).length := by
  refine ⟨expression_eq, fun bottom p ts more => ?_, loopsGoRound expression_leaves,
    fun text => ⟨program_rest text, ?_⟩⟩
  · exact (expression_affords (by omega) bottom p).same
  · have hcost := (program_affords (scan text)).cost
    rw [program_rest] at hcost
    simpa [tokens, parse, parseTokens] using hcost

end Grammar

end MonkeyLang
