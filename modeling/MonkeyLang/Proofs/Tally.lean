import MonkeyLang.Proofs.Lexeme
import MonkeyLang.Proofs.Sequence

/-!
# No integer literal is passed over

Whatever is wrong with a text, the parser comes to every integer literal in it.  What a rule passes
over without reading it are names and signs; a rule that is abandoned stops at a token that has been
dealt with; and the next statement begins right behind that token.  So the diagnostics about integer
literals are those of all integer tokens, in their order (`numeralFaults_parse`).

`Tallies start rule ts` is the account that a rule gives of the integer tokens between `start` and
the token behind the one on which it stops.  A rule for expressions starts with the token on which
it is called, `ts` itself, and the rules around it have dealt with that token, so that they start
with `ts.tail`.
-/

namespace MonkeyLang

/-- Tells whether a diagnostic is about an integer literal. -/
def Diagnostic.isOnNumeral : Diagnostic → Bool
  | tooLarge _ | refused _ => true
  | expected .. | noOperand _ => false

/-- What is wrong with a token as an integer literal, if it is to be one. -/
def Token.numeralFaults (t : Token) : List Diagnostic :=
  if t.kind = .int then (Grammar.integer [t]).diagnostics else []

/-- What is wrong with the integer literals among tokens. -/
def numeralFaults (ts : List Token) : List Diagnostic :=
  ts.flatMap Token.numeralFaults

namespace Rule

variable {α β : Type} {start ts : List Token} {rule : Rule α} {cont : α → Rule β}

theorem numeralFaults_cons (t : Token) (ts : List Token) :
    numeralFaults (t :: ts) = t.numeralFaults ++ numeralFaults ts :=
  List.flatMap_cons

/-- Nothing is wrong with a token of another kind. -/
theorem numeralFaults_tail (h : (currentOf ts).kind ≠ .int) :
    numeralFaults ts.tail = numeralFaults ts := by
  cases ts with
  | nil => rfl
  | cons t ts =>
    have ht : t.numeralFaults = [] := if_neg h
    rw [numeralFaults_cons, ht, List.nil_append, List.tail_cons]

theorem suffix_tail {us : List Token} (h : us <:+ ts) : us.tail <:+ ts.tail := by
  cases ts with
  | nil =>
    obtain rfl := List.suffix_nil.1 h
    exact List.suffix_rfl
  | cons t ts =>
    rcases List.suffix_cons_iff.1 h with rfl | h
    · exact List.suffix_rfl
    · exact (List.tail_suffix us).trans h

/-- The rule records what is wrong with the integer literals from `start` on, up to the token on
which it stops and including it. -/
structure Tallies (start : List Token) (rule : Rule α) (ts : List Token) : Prop where
  leaves : (rule ts).rest <:+ ts
  tally : numeralFaults start =
    (rule ts).diagnostics.filter Diagnostic.isOnNumeral ++ numeralFaults (rule ts).rest.tail

namespace Tallies

/-- A rule that does nothing about integer literals and stops on the current token. -/
theorem of_rest (hrest : (rule ts).rest = ts)
    (hdiagnostics : (rule ts).diagnostics.filter Diagnostic.isOnNumeral = []) :
    Tallies ts.tail rule ts :=
  ⟨⟨[], hrest⟩, by rw [hrest, hdiagnostics, List.nil_append]⟩

/-- The current token need not be dealt with if it is of another kind. -/
theorem ofTail (h : Tallies ts.tail rule ts) (hkind : (currentOf ts).kind ≠ .int) :
    Tallies ts rule ts :=
  ⟨h.leaves, numeralFaults_tail hkind ▸ h.tally⟩

theorem congr {rule' : Rule α} (h : Tallies start rule ts) (happly : rule' ts = rule ts) :
    Tallies start rule' ts :=
  ⟨happly ▸ h.leaves, happly ▸ h.tally⟩

theorem bind (h : Tallies start rule ts)
    (hcont : ∀ a us, us <:+ ts → Tallies us.tail (cont a) us) :
    Tallies start (rule >>= cont) ts := by
  cases hv : (rule ts).value with
  | none =>
    have happly := bind_apply_of_none hv cont
    exact ⟨by rw [happly]; exact h.leaves, by rw [happly]; exact h.tally⟩
  | some a =>
    have hafter := hcont a (rule ts).rest h.leaves
    have happly := bind_apply_of_some hv cont
    refine ⟨by rw [happly]; exact hafter.leaves.trans h.leaves, ?_⟩
    rw [happly, h.tally, hafter.tally, List.filter_append, List.append_assoc]

theorem pure (a : α) : Tallies ts.tail (pure a) ts :=
  of_rest rfl rfl

theorem reject {diagnostic : Diagnostic} (h : diagnostic.isOnNumeral = false) :
    Tallies ts.tail (reject diagnostic : Rule α) ts :=
  of_rest rfl (by simp [Rule.reject, h])

theorem ofOption (v : Option α) : Tallies ts.tail (ofOption v) ts := by
  cases v <;> exact of_rest rfl rfl

theorem attempt (h : Tallies start rule ts) : Tallies start (attempt rule) ts :=
  ⟨h.leaves, h.tally⟩

theorem ite {c : Prop} [Decidable c] {other : Rule α} (h : c → Tallies start rule ts)
    (hother : ¬c → Tallies start other ts) : Tallies start (if c then rule else other) ts := by
  split
  · exact h ‹_›
  · exact hother ‹_›

/-! ### Tokens -/

theorem current {cont : Token → Rule β} (h : Tallies start (cont (currentOf ts)) ts) :
    Tallies start (current >>= cont) ts :=
  ⟨h.leaves, h.tally⟩

theorem next {cont : Token → Rule β} (h : Tallies start (cont (nextOf ts)) ts) :
    Tallies start (next >>= cont) ts :=
  ⟨h.leaves, h.tally⟩

theorem advance {cont : Unit → Rule β} (h : Tallies start (cont ()) ts.tail) :
    Tallies start (advance >>= cont) ts :=
  ⟨h.leaves.trans (List.tail_suffix ts), h.tally⟩

/-- Moving on to a token of another kind deals with it. -/
theorem advanceOnto (hkind : (nextOf ts).kind ≠ .int) : Tallies ts.tail Rule.advance ts :=
  ⟨List.tail_suffix ts, (numeralFaults_tail hkind).symm⟩

theorem expect {kind : TokenKind} (hkind : kind ≠ .int) : Tallies ts.tail (expect kind) ts := by
  rw [expect_eq_bind]
  exact .next (.ite (fun h => .advanceOnto (h ▸ hkind)) fun _ => .reject rfl)

theorem skip {kind : TokenKind} (hkind : kind ≠ .int) : Tallies ts.tail (skip kind) ts := by
  rw [skip_eq_bind]
  exact .next (.ite (fun h => .advanceOnto (h ▸ hkind)) fun _ => .pure ())

/-! ### Repetition -/

theorem manyWithin {more : List Token → Bool} (rounds : Nat)
    (h : ∀ us, us <:+ ts → more us → Tallies us.tail rule us) :
    Tallies ts.tail (manyWithin more rule rounds) ts := by
  induction rounds generalizing ts with
  | zero => exact pure []
  | succ rounds ih =>
    by_cases hm : more ts
    · have hround := (h ts List.suffix_rfl hm).bind fun a us hus =>
        (ih fun vs hvs => h vs (hvs.trans hus)).bind fun as _ _ => pure (a :: as)
      exact hround.congr (if_pos hm)
    · exact (pure []).congr (if_neg hm)

theorem many {more : List Token → Bool}
    (h : ∀ us, us <:+ ts → more us → Tallies us.tail rule us) :
    Tallies ts.tail (many more rule) ts :=
  (manyWithin (ts.length + 1) h).congr rfl

theorem iterateWithin {more : List Token → Bool} {step : α → Rule α} (rounds : Nat)
    (h : ∀ a us, us <:+ ts → more us → Tallies us.tail (step a) us) (a : α) :
    Tallies ts.tail (iterateWithin more step rounds a) ts := by
  induction rounds generalizing ts a with
  | zero => exact pure a
  | succ rounds ih =>
    by_cases hm : more ts
    · have hround := (h a ts List.suffix_rfl hm).bind fun b us hus =>
        ih (fun c vs hvs => h c vs (hvs.trans hus)) b
      exact hround.congr (if_pos hm)
    · exact (pure a).congr (if_neg hm)

theorem iterate {more : List Token → Bool} {step : α → Rule α}
    (h : ∀ a us, us <:+ ts → more us → Tallies us.tail (step a) us) (a : α) :
    Tallies ts.tail (iterate more step a) ts :=
  (iterateWithin (ts.length + 1) h a).congr rfl

/-- A loop whose rounds account for all that they pass over, the token behind them excepted, and
that stops on a token of another kind. -/
theorem rounds {more : List Token → Bool} (hnil : more [] = false) (hadvances : Advances rule)
    (hsome : ∀ us, (rule us).value.isSome)
    (hend : ∀ us, more us = false → (currentOf us).kind ≠ .int)
    (h : ∀ us, us <:+ ts → (rule us).rest <:+ us ∧ numeralFaults us =
      (rule us).diagnostics.filter Diagnostic.isOnNumeral ++ numeralFaults (rule us).rest) :
    Tallies ts (Rule.many more rule) ts := by
  induction hlength : ts.length using Nat.strongRecOn generalizing ts with
  | ind length ih =>
    subst hlength
    cases hmore : more ts with
    | false =>
      have hnone : Tallies ts.tail (Rule.many more rule) ts :=
        (pure []).congr (many_apply_of_not hmore)
      exact hnone.ofTail (hend ts hmore)
    | true =>
      cases ts with
      | nil => simp [hnil] at hmore
      | cons t us =>
        obtain ⟨a, ha⟩ := Option.isSome_iff_exists.1 (hsome (t :: us))
        have hle := (hadvances t us a ha).length_le
        obtain ⟨hleaves, htally⟩ := h (t :: us) List.suffix_rfl
        have hrest := ih _ (by simp only [List.length_cons]; omega)
          (fun vs hvs => h vs (hvs.trans hleaves)) rfl
        have happly := many_apply hnil hadvances hmore ha
        refine ⟨by rw [happly]; exact hrest.leaves.trans hleaves, ?_⟩
        rw [happly, htally, hrest.tally, List.filter_append, List.append_assoc]

end Tallies

end Rule

namespace Grammar

open Rule

variable {expr : ExpressionRule} {ts us : List Token}

/-- At every end of the tokens, the rule for expressions accounts for the integer literals from the
current token on. -/
structure TalliesAll (expr : ExpressionRule) (ts : List Token) : Prop where
  leaves : ∀ p, Leaves (expr p)
  tallies : ∀ p us, us <:+ ts → Tallies us (expr p) us

namespace TalliesAll

theorem mono (h : TalliesAll expr ts) (hus : us <:+ ts) : TalliesAll expr us :=
  ⟨h.leaves, fun p vs hvs => h.tallies p vs (hvs.trans hus)⟩

theorem here (h : TalliesAll expr ts) (p : Precedence) : Tallies ts (expr p) ts :=
  h.tallies p ts List.suffix_rfl

theorem tail (h : TalliesAll expr ts) : TalliesAll expr ts.tail :=
  h.mono (List.tail_suffix ts)

/-- What holds behind the current token holds behind every token after it. -/
theorem behind (h : TalliesAll expr ts.tail) (hus : us <:+ ts) : TalliesAll expr us.tail :=
  h.mono (suffix_tail hus)

end TalliesAll

/-! ### Statements -/

theorem name_tallies : Tallies ts.tail name ts :=
  .current (.pure _)

theorem letStatement_tallies (h : TalliesAll expr ts.tail) :
    Tallies ts.tail (letStatement expr) ts :=
  .current <| .bind (.expect (by decide)) fun _ _ hus => .bind name_tallies fun _ _ hvs =>
    .bind (.expect (by decide)) fun _ _ hws => .advance <|
      have hvalue := ((h.behind hus).behind hvs).behind hws
      .bind (hvalue.here _).attempt fun _ _ _ => .bind (.skip (by decide)) fun _ _ _ =>
        .bind (.ofOption _) fun _ _ _ => .pure _

theorem returnStatement_tallies (h : TalliesAll expr ts.tail) :
    Tallies ts.tail (returnStatement expr) ts := by
  refine .current (.next ?_)
  split
  · next hkind => exact .bind (.advanceOnto (by simp [hkind])) fun _ _ _ => .pure _
  · exact .pure _
  · exact .pure _
  · exact .advance <| .bind (h.here _).attempt fun _ _ _ => .bind (.skip (by decide)) fun _ _ _ =>
      .bind (.ofOption _) fun _ _ _ => .pure _

theorem expressionStatement_tallies (h : TalliesAll expr ts) :
    Tallies ts (expressionStatement expr) ts :=
  .current <| .bind (h.here _).attempt fun _ _ _ => .bind (.skip (by decide)) fun _ _ _ =>
    .bind (.ofOption _) fun _ _ _ => .pure _

theorem statement_tallies (h : TalliesAll expr ts) : Tallies ts (statement expr) ts := by
  refine .current ?_
  split
  · next hkind => exact (letStatement_tallies h.tail).ofTail (by simp [hkind])
  · next hkind => exact (returnStatement_tallies h.tail).ofTail (by simp [hkind])
  · exact expressionStatement_tallies h

/-- The loop over statements stops on a token that ends them, and that is no integer. -/
theorem statements_tallies (h : TalliesAll expr ts) {ends : TokenKind → Bool}
    (heof : ends .eof = true) (hint : ends .int = false) :
    Tallies ts (statements expr ends) ts := by
  refine .bind (.rounds ?_ (advances_statementRound h.leaves) ?_ ?_ ?_) fun _ _ _ => .pure _
  · simpa [currentOf, Token.eof] using heof
  · intro us
    rw [statementRound_apply]
    rfl
  · intro us hend hkind
    simp [hkind, hint] at hend
  · intro us hus
    have hfirst := statement_tallies (h.mono hus)
    rw [statementRound_apply]
    exact ⟨(List.tail_suffix _).trans hfirst.leaves, hfirst.tally⟩

theorem block_tallies (h : TalliesAll expr ts.tail) : Tallies ts.tail (block expr) ts :=
  .current <| .advance <| .bind (statements_tallies h rfl rfl) fun _ _ _ => .pure _

/-! ### Operands -/

/-- The rule for integer literals looks at nothing but the current token, and stops on it. -/
theorem integer_apply (t : Token) (ts : List Token) : integer (t :: ts) =
    ⟨(integer [t]).value, (integer [t]).diagnostics, t :: ts⟩ := by
  rw [integer, bind_apply_of_some rfl, bind_apply_of_some rfl]
  simp only [current, currentOf, List.headD_cons]
  cases Text.readInteger t.literal.toList with
  | error cause => rfl
  | ok value => by_cases h : maxInteger < value <;> simp [h, reject]

theorem filter_integer (ts : List Token) :
    (integer ts).diagnostics.filter Diagnostic.isOnNumeral = (integer ts).diagnostics := by
  rw [integer, bind_apply_of_some rfl]
  cases Text.readInteger (currentOf ts).literal.toList with
  | error cause => rfl
  | ok value =>
    by_cases h : maxInteger < value <;> simp [h, current, reject, Diagnostic.isOnNumeral]

theorem integer_tallies (hkind : (currentOf ts).kind = .int) : Tallies ts integer ts := by
  cases ts with
  | nil => cases hkind
  | cons t us =>
    have hfaults : t.numeralFaults = (integer [t]).diagnostics := if_pos hkind
    have happly := integer_apply t us
    refine ⟨⟨[], congrArg Reading.rest happly⟩, ?_⟩
    rw [happly, filter_integer, numeralFaults_cons, hfaults, List.tail_cons]

theorem unary_tallies (h : TalliesAll expr ts.tail) : Tallies ts.tail (unary expr) ts :=
  .current <| .advance <| .bind (h.here _) fun _ _ _ => .pure _

theorem grouped_tallies (h : TalliesAll expr ts.tail) : Tallies ts.tail (grouped expr) ts :=
  .advance <| .bind (h.here _).attempt fun _ _ _ => .bind (.expect (by decide)) fun _ _ _ =>
    .ofOption _

theorem elseBlock_tallies (h : TalliesAll expr ts.tail) : Tallies ts.tail (elseBlock expr) ts :=
  .next <| .ite (fun hkind => .bind (.advanceOnto (by simp [hkind])) fun _ _ hus =>
    .bind (.expect (by decide)) fun _ _ hvs =>
      .bind (block_tallies ((h.behind hus).behind hvs)) fun _ _ _ => .pure _) fun _ => .pure _

theorem conditional_tallies (h : TalliesAll expr ts.tail) :
    Tallies ts.tail (conditional expr) ts :=
  .current <| .bind (.expect (by decide)) fun _ _ hus => .advance <|
    have hcondition := h.behind hus
    .bind (hcondition.here _).attempt fun _ _ hvs => .bind (.expect (by decide)) fun _ _ hws =>
      .bind (.expect (by decide)) fun _ _ hxs =>
        have hblock := (hcondition.mono (hxs.trans (hws.trans hvs))).tail
        .bind (block_tallies hblock) fun _ _ hys =>
          .bind (elseBlock_tallies (hblock.behind hys)) fun _ _ _ => .bind (.ofOption _)
            fun _ _ _ => .pure _

theorem parameters_tallies : Tallies ts.tail parameters ts :=
  .next <| .ite (fun hkind => .bind (.advanceOnto (by simp [hkind])) fun _ _ _ => .pure _) fun _ =>
    .bind (.expect (by decide)) fun _ _ _ => .bind name_tallies fun _ _ _ =>
      .bind (.many fun _ _ hmore => .bind (.advanceOnto (by simp [of_decide_eq_true hmore]))
        fun _ _ _ => .bind (.expect (by decide)) fun _ _ _ => name_tallies) fun _ _ _ =>
          .bind (.expect (by decide)) fun _ _ _ => .pure _

theorem function_tallies (h : TalliesAll expr ts.tail) : Tallies ts.tail (function expr) ts :=
  .current <| .bind (.expect (by decide)) fun _ _ hus => .bind parameters_tallies fun _ _ hvs =>
    .bind (.expect (by decide)) fun _ _ hws =>
      .bind (block_tallies (((h.behind hus).behind hvs).behind hws)) fun _ _ _ => .pure _

theorem items_tallies (h : TalliesAll expr ts.tail) {closing : TokenKind}
    (hclosing : closing ≠ .int) : Tallies ts.tail (items expr closing) ts :=
  .next <| .ite (fun hkind => .bind (.advanceOnto (hkind ▸ hclosing)) fun _ _ _ => .pure _)
    fun _ => .advance <| .bind (h.here _).attempt fun _ _ hus =>
      .bind (.many fun _ hvs hmore => .bind (.advanceOnto (by simp [of_decide_eq_true hmore]))
        fun _ _ hws => .advance (((h.mono hus).mono (hws.trans hvs)).tail.here _).attempt)
          fun _ _ _ => .bind (.expect hclosing) fun _ _ _ => .ofOption _

theorem array_tallies (h : TalliesAll expr ts.tail) : Tallies ts.tail (array expr) ts :=
  .current <| .bind (items_tallies h (by decide)) fun _ _ _ => .pure _

theorem pair_tallies (h : TalliesAll expr ts.tail) : Tallies ts.tail (pair expr) ts :=
  .advance <| .bind (h.here _).attempt fun _ _ hus => .bind (.expect (by decide)) fun _ _ hvs =>
    .advance <| .bind ((h.mono (hvs.trans hus)).tail.here _).attempt fun _ _ _ =>
      .bind (.ofOption _) fun _ _ _ => .bind (.ofOption _) fun _ _ _ => .next <|
        .ite (fun _ => .pure _) fun _ => .bind (.expect (by decide)) fun _ _ _ => .pure _

theorem hash_tallies (h : TalliesAll expr ts.tail) : Tallies ts.tail (hash expr) ts :=
  .current <| .bind (.many fun _ hus _ => pair_tallies (h.behind hus)) fun _ _ _ =>
    .bind (.expect (by decide)) fun _ _ _ => .pure _

theorem operand_tallies (h : TalliesAll expr ts.tail) : Tallies ts (operand expr) ts := by
  by_cases hkind : (currentOf ts).kind = .int
  · refine .current ?_
    rw [hkind]
    exact integer_tallies hkind
  · refine .ofTail (.current ?_) hkind
    split
    · exact .bind name_tallies fun _ _ _ => .pure _
    · contradiction
    · exact .current (.pure _)
    · exact function_tallies h
    · exact unary_tallies h
    · exact unary_tallies h
    · exact grouped_tallies h
    · exact conditional_tallies h
    · exact .current (.pure _)
    · exact .current (.pure _)
    · exact array_tallies h
    · exact hash_tallies h
    · exact .reject rfl

/-! ### Continuations -/

theorem binary_tallies (h : TalliesAll expr ts.tail) (left : Node) :
    Tallies ts.tail (binary expr left) ts :=
  .current <| .advance <| .bind (h.here _) fun _ _ _ => .pure _

theorem call_tallies (h : TalliesAll expr ts.tail) (callee : Node) :
    Tallies ts.tail (call expr callee) ts :=
  .current <| .bind (items_tallies h (by decide)) fun _ _ _ => .pure _

theorem index_tallies (h : TalliesAll expr ts.tail) (target : Node) :
    Tallies ts.tail (index expr target) ts :=
  .current <| .advance <| .bind (h.here _).attempt fun _ _ _ => .bind (.expect (by decide))
    fun _ _ _ => .bind (.ofOption _) fun _ _ _ => .pure _

theorem continuation_tallies (h : TalliesAll expr ts.tail) (hkind : (nextOf ts).kind ≠ .int)
    (left : Node) : Tallies ts.tail (continuation expr left) ts := by
  refine .bind (.advanceOnto hkind) fun _ us hus => .current ?_
  split
  · exact call_tallies (h.behind hus) left
  · exact index_tallies (h.behind hus) left
  · exact binary_tallies (h.behind hus) left

/-- An integer continues no expression, however weakly that is bound. -/
theorem ne_int_of_lt_ofKind {p : Precedence} {kind : TokenKind} (h : p < .ofKind kind) :
    kind ≠ .int := by
  rintro rfl
  cases p <;> exact absurd h (by decide)

theorem climb_tallies (h : TalliesAll expr ts.tail) (p : Precedence) (left : Node) :
    Tallies ts.tail (climb expr p left) ts :=
  .iterate (fun left _ hus hmore => continuation_tallies (h.behind hus)
    (ne_int_of_lt_ofKind (of_decide_eq_true hmore)) left) left

/-! ### The knot -/

/-- At a depth that is at least the number of tokens, every nested expression is reached. -/
theorem expressionWithin_tallies {depth : Nat} (hdepth : ts.length ≤ depth) (p : Precedence) :
    Tallies ts (expressionWithin depth p) ts := by
  induction depth generalizing ts p with
  | zero =>
    obtain rfl : ts = [] := List.eq_nil_of_length_eq_zero (Nat.le_zero.1 hdepth)
    have hnothing : Tallies [].tail (Rule.reject (.noOperand .eof) : Rule Node) [] := .reject rfl
    exact .current hnothing
  | succ depth ih =>
    have hparts : TalliesAll (expressionWithin depth) ts.tail := by
      refine ⟨expressionWithin_leaves depth, fun q us hus => ih ?_ q⟩
      have hle := hus.length_le
      rw [List.length_tail] at hle
      omega
    exact .bind (operand_tallies hparts) fun left _ hus => climb_tallies (hparts.behind hus) p left

theorem expression_tallies (ts : List Token) : TalliesAll expression ts := by
  refine ⟨expression_leaves, fun p us _ => ?_⟩
  exact (expressionWithin_tallies (Nat.le_succ us.length) p).congr (expression_apply p us)

/-- Of a whole program, the loop over its statements leaves no token. -/
theorem numeralFaults_statementsIn {ts : List Token} (h : Lexical ts) :
    (statementsIn ts).2.filter Diagnostic.isOnNumeral = numeralFaults ts := by
  induction hlength : ts.length using Nat.strongRecOn generalizing ts with
  | ind length ih =>
    subst hlength
    cases ts with
    | nil => rfl
    | cons t us =>
      have hfirst := statement_tallies (expression_tallies (t :: us))
      have hsuffix : (statement expression (t :: us)).rest.tail <:+ us := suffix_tail hfirst.leaves
      have hrest := ih _ (Nat.lt_succ_of_le hsuffix.length_le) (h.tail.suffix hsuffix) rfl
      have hkind : (currentOf (t :: us)).kind ≠ .eof := (h t List.mem_cons_self).kind_ne_eof
      rw [statementsIn_step hkind, List.filter_append, hrest, hfirst.tally]

end Grammar

/-- **No integer literal is passed over.**  The diagnostics about integer literals that a text
leaves are what is wrong with its integer tokens, one after the other. -/
theorem numeralFaults_parse (text : List Char) :
    (parse text).diagnostics.filter Diagnostic.isOnNumeral = numeralFaults (scan text) := by
  rw [parse, parseTokens_eq]
  exact Grammar.numeralFaults_statementsIn (lexical_scan text)

end MonkeyLang
