import MonkeyLang.Proofs.Leaves

/-!
# One token of lookahead

A rule decides what to do by the current token and the one behind it.  So if it stops at least two
tokens before the end of what it was given, nothing that stands behind the end has had a say:
`expression_follows` says that an expression is then read in the same way whatever follows, with
the same diagnostics and whether or not it is abandoned.

What follows also makes the list of tokens longer, and with it the depth of nesting and the number
of rounds that are allowed.  Therefore `Follows n` relates two rules, which may differ in these
bounds, and compares them where at most `n` tokens stand before the part that may change: a bound
that is enough for these tokens is as good as any other.
-/

namespace MonkeyLang

namespace Rule

variable {α β : Type} {n m : Nat} {rule rule' : Rule α} {cont cont' : α → Rule β}

/-- A rule uses up a token if there is one, unless it is abandoned. -/
def Advances (rule : Rule α) : Prop :=
  ∀ t ts a, (rule (t :: ts)).value = some a → (rule (t :: ts)).rest <:+ ts

/-- Where at most `n` tokens stand before others and two of them are left by the first rule, the
second rule does the same, whatever the others are. -/
structure Follows (n : Nat) (rule rule' : Rule α) : Prop where
  leaves : Leaves rule
  agrees : ∀ xs ys ys' zs : List Token, xs.length ≤ n → 2 ≤ zs.length →
    (rule (xs ++ ys)).rest = zs ++ ys →
    rule' (xs ++ ys') = ⟨(rule (xs ++ ys)).value, (rule (xs ++ ys)).diagnostics, zs ++ ys'⟩

/-- If nothing of `ys` is used up in the end, nothing of it was used up on the way. -/
theorem exists_append_of_suffix {xs ys zs vs : List Token} (hvs : vs <:+ xs ++ ys)
    (hzs : zs ++ ys <:+ vs) : ∃ us, vs = us ++ ys ∧ zs.length ≤ us.length ∧ us <:+ xs := by
  obtain ⟨used, rfl⟩ := hzs
  obtain ⟨skipped, hskipped⟩ := hvs
  refine ⟨used ++ zs, by rw [List.append_assoc], by simp, skipped, ?_⟩
  simpa [← List.append_assoc] using hskipped

theorem length_le_of_suffix_append {xs ys zs : List Token} (h : zs ++ ys <:+ xs ++ ys) :
    zs.length ≤ xs.length := by
  have hle := h.length_le
  simp only [List.length_append] at hle
  omega

theorem advances_advance : Advances advance :=
  fun _ _ _ _ => List.suffix_rfl

theorem advances_expect (kind : TokenKind) : Advances (expect kind) := by
  intro t ts a hv
  by_cases h : (nextOf (t :: ts)).kind = kind
  · simp [expect, h, advance]
  · simp [expect, h, reject] at hv

theorem advances_bind (h : Advances rule) (hcont : ∀ a, Leaves (cont a)) :
    Advances (rule >>= cont) := by
  intro t ts b hv
  cases ha : (rule (t :: ts)).value with
  | none => simp [bind_apply_of_none ha] at hv
  | some a =>
    rw [bind_apply_of_some ha]
    exact (hcont a _).trans (h t ts a ha)

theorem expect_eq_bind (kind : TokenKind) :
    expect kind = next >>= fun t =>
      if t.kind = kind then advance else reject (.expected kind t.kind) := by
  funext ts
  rw [bind_apply_of_some rfl]
  unfold expect
  split <;> rfl

theorem skip_eq_bind (kind : TokenKind) :
    skip kind = next >>= fun t => if t.kind = kind then advance else pure () := by
  funext ts
  rw [bind_apply_of_some rfl]
  unfold skip
  split <;> rfl

namespace Follows

theorem mono (h : Follows n rule rule') (hm : m ≤ n) : Follows m rule rule' :=
  ⟨h.leaves, fun xs ys ys' zs hxs => h.agrees xs ys ys' zs (Nat.le_trans hxs hm)⟩

/-- Two tokens are never left of none. -/
theorem zero (h : Leaves rule) : Follows 0 rule rule' := by
  refine ⟨h, fun xs ys ys' zs hxs hzs hrest => ?_⟩
  have hle := length_le_of_suffix_append (hrest ▸ h (xs ++ ys))
  omega

/-- What goes on with rules that agree agrees, and if the first step uses up a token, those that go
on need to agree on one token less. -/
theorem bindWithin (h : Follows n rule rule') (hcont : ∀ a, Follows m (cont a) (cont' a))
    (hm : n ≤ m ∨ Advances rule ∧ n ≤ m + 1) : Follows n (rule >>= cont) (rule' >>= cont') := by
  refine ⟨h.leaves.bind fun a => (hcont a).leaves, fun xs ys ys' zs hxs hzs hrest => ?_⟩
  cases hv : (rule (xs ++ ys)).value with
  | none =>
    rw [bind_apply_of_none hv] at hrest ⊢
    have hrule := h.agrees xs ys ys' zs hxs hzs hrest
    rw [bind_apply_of_none (by rw [hrule]; exact hv), hrule]
  | some a =>
    rw [bind_apply_of_some hv] at hrest ⊢
    obtain ⟨us, hus, hle, hsuffix⟩ := exists_append_of_suffix (h.leaves (xs ++ ys))
      (hrest ▸ (hcont a).leaves _)
    have hrule := h.agrees xs ys ys' us hxs (Nat.le_trans hzs hle) hus
    have hlength : us.length ≤ m := by
      rcases hm with hm | ⟨hadvances, hm⟩
      · exact Nat.le_trans hsuffix.length_le (Nat.le_trans hxs hm)
      · obtain ⟨t, ts, rfl⟩ := List.exists_cons_of_length_pos
          (show 0 < xs.length by have := hsuffix.length_le; omega)
        have hused := hadvances t (ts ++ ys) a hv
        rw [← List.cons_append, hus] at hused
        have := length_le_of_suffix_append hused
        simp only [List.length_cons] at hxs
        omega
    rw [hus] at hrest ⊢
    have hafter := (hcont a).agrees us ys ys' zs hlength hzs hrest
    rw [bind_apply_of_some (a := a) (by rw [hrule]; exact hv), hrule, hafter]

theorem bind (h : Follows n rule rule') (hcont : ∀ a, Follows n (cont a) (cont' a)) :
    Follows n (rule >>= cont) (rule' >>= cont') :=
  h.bindWithin hcont (.inl (Nat.le_refl n))

theorem pure (a : α) : Follows n (pure a) (pure a) := by
  refine ⟨.pure a, fun xs ys ys' zs _ _ hrest => ?_⟩
  obtain rfl : xs = zs := by simpa using hrest
  rfl

theorem reject (diagnostic : Diagnostic) :
    Follows n (reject diagnostic : Rule α) (Rule.reject diagnostic) := by
  refine ⟨.reject diagnostic, fun xs ys ys' zs _ _ hrest => ?_⟩
  obtain rfl : xs = zs := by simpa [Rule.reject] using hrest
  rfl

theorem ofOption (v : Option α) : Follows n (ofOption v) (Rule.ofOption v) := by
  refine ⟨.ofOption v, fun xs ys ys' zs _ _ hrest => ?_⟩
  cases v with
  | none =>
    obtain rfl : xs = zs := by simpa [Rule.ofOption, fail] using hrest
    rfl
  | some a =>
    obtain rfl : xs = zs := by simpa [Rule.ofOption] using hrest
    rfl

theorem attempt (h : Follows n rule rule') : Follows n (attempt rule) (Rule.attempt rule') := by
  refine ⟨h.leaves.attempt, fun xs ys ys' zs hxs hzs hrest => ?_⟩
  simp [Rule.attempt, h.agrees xs ys ys' zs hxs hzs hrest]

theorem ite {c : Prop} [Decidable c] {other other' : Rule α} (h : Follows n rule rule')
    (hother : Follows n other other') :
    Follows n (if c then rule else other) (if c then rule' else other') := by
  split <;> assumption

/-! ### Tokens

The two tokens that a step may look at stand before the change, because the step leaves no more
tokens than it was given. -/

theorem exists_cons_cons {xs ys zs : List Token} (hzs : 2 ≤ zs.length)
    (h : zs ++ ys <:+ xs ++ ys) : ∃ x x' ws, xs = x :: x' :: ws := by
  have hle := length_le_of_suffix_append h
  obtain ⟨x, xs, rfl⟩ := List.exists_cons_of_length_pos (show 0 < xs.length by omega)
  simp only [List.length_cons] at hle
  obtain ⟨x', ws, rfl⟩ := List.exists_cons_of_length_pos (show 0 < xs.length by omega)
  exact ⟨x, x', ws, rfl⟩

theorem current : Follows n current current := by
  refine ⟨.current, fun xs ys ys' zs _ hzs hrest => ?_⟩
  obtain ⟨x, x', ws, rfl⟩ := exists_cons_cons hzs (hrest ▸ Leaves.current (xs ++ ys))
  obtain rfl : x :: x' :: ws = zs := List.append_cancel_right hrest
  rfl

theorem next : Follows n next next := by
  refine ⟨.next, fun xs ys ys' zs _ hzs hrest => ?_⟩
  obtain ⟨x, x', ws, rfl⟩ := exists_cons_cons hzs (hrest ▸ Leaves.next (xs ++ ys))
  obtain rfl : x :: x' :: ws = zs := List.append_cancel_right hrest
  rfl

theorem advance : Follows n advance advance := by
  refine ⟨.advance, fun xs ys ys' zs _ hzs hrest => ?_⟩
  obtain ⟨x, x', ws, rfl⟩ := exists_cons_cons hzs (hrest ▸ Leaves.advance (xs ++ ys))
  obtain rfl : x' :: ws = zs := List.append_cancel_right hrest
  rfl

theorem expect (kind : TokenKind) : Follows n (expect kind) (expect kind) := by
  rw [expect_eq_bind]
  exact .bind .next fun _ => .ite .advance (.reject _)

theorem skip (kind : TokenKind) : Follows n (skip kind) (skip kind) := by
  rw [skip_eq_bind]
  exact .bind .next fun _ => .ite .advance (.pure _)

/-! ### Repetition -/

/-- A test that two tokens decide. -/
theorem test {more : List Token → Bool} {other other' : Rule α}
    (hmore : ∀ x x' us us', more (x :: x' :: us) = more (x :: x' :: us'))
    (h : Follows n rule rule') (hother : Follows n other other') :
    Follows n (fun ts => if more ts then rule ts else other ts)
      (fun ts => if more ts then rule' ts else other' ts) := by
  have hleaves : Leaves fun ts => if more ts then rule ts else other ts := by
    intro ts
    by_cases hm : more ts
    · simpa [hm] using h.leaves ts
    · simpa [hm] using hother.leaves ts
  refine ⟨hleaves, fun xs ys ys' zs hxs hzs hrest => ?_⟩
  obtain ⟨x, x', ws, rfl⟩ := exists_cons_cons hzs (hrest ▸ hleaves (xs ++ ys))
  have hsame := hmore x x' (ws ++ ys) (ws ++ ys')
  by_cases hm : more (x :: x' :: (ws ++ ys))
  · have hrule := h.agrees (x :: x' :: ws) ys ys' zs hxs hzs (by simpa [hm] using hrest)
    simpa [hm, hsame ▸ hm] using hrule
  · have hrule := hother.agrees (x :: x' :: ws) ys ys' zs hxs hzs (by simpa [hm] using hrest)
    simpa [hm, hsame ▸ hm] using hrule

theorem manyWithin {more : List Token → Bool}
    (hmore : ∀ x x' us us', more (x :: x' :: us) = more (x :: x' :: us'))
    (hadvances : Advances rule) (h : Follows n rule rule') {rounds rounds' : Nat}
    (hrounds : n < rounds) (hrounds' : n < rounds') :
    Follows n (manyWithin more rule rounds) (manyWithin more rule' rounds') := by
  induction n generalizing rounds rounds' with
  | zero => exact zero (h.leaves.manyWithin more rounds)
  | succ n ih =>
    obtain ⟨rounds, rfl⟩ := Nat.exists_eq_succ_of_ne_zero (by omega : rounds ≠ 0)
    obtain ⟨rounds', rfl⟩ := Nat.exists_eq_succ_of_ne_zero (by omega : rounds' ≠ 0)
    have hrest := ih (h.mono n.le_succ) (Nat.lt_of_succ_lt_succ hrounds)
      (Nat.lt_of_succ_lt_succ hrounds')
    refine test hmore ?_ (pure [])
    exact h.bindWithin (fun a => hrest.bind fun as => pure (a :: as))
      (.inr ⟨hadvances, Nat.le_refl _⟩)

/-- As many rounds are allowed as there are tokens, which is enough for those before the change. -/
theorem many {more : List Token → Bool}
    (hmore : ∀ x x' us us', more (x :: x' :: us) = more (x :: x' :: us'))
    (hadvances : Advances rule) (h : Follows n rule rule') :
    Follows n (many more rule) (many more rule') := by
  refine ⟨h.leaves.many more, fun xs ys ys' zs hxs hzs hrest => ?_⟩
  have hlength : ∀ us : List Token, xs.length < (xs ++ us).length + 1 := by
    intro us
    simp only [List.length_append]
    omega
  have hmany := (h.mono hxs).manyWithin hmore hadvances (hlength ys) (hlength ys')
  exact hmany.agrees xs ys ys' zs (Nat.le_refl _) hzs hrest

theorem iterateWithin {more : List Token → Bool} {step step' : α → Rule α}
    (hmore : ∀ x x' us us', more (x :: x' :: us) = more (x :: x' :: us'))
    (hadvances : ∀ a, Advances (step a)) (h : ∀ a, Follows n (step a) (step' a)) (a : α)
    {rounds rounds' : Nat} (hrounds : n < rounds) (hrounds' : n < rounds') :
    Follows n (iterateWithin more step rounds a) (iterateWithin more step' rounds' a) := by
  induction n generalizing a rounds rounds' with
  | zero => exact zero (Leaves.iterateWithin more (fun a => (h a).leaves) rounds a)
  | succ n ih =>
    obtain ⟨rounds, rfl⟩ := Nat.exists_eq_succ_of_ne_zero (by omega : rounds ≠ 0)
    obtain ⟨rounds', rfl⟩ := Nat.exists_eq_succ_of_ne_zero (by omega : rounds' ≠ 0)
    refine test hmore ?_ (pure a)
    refine (h a).bindWithin (fun b => ?_) (.inr ⟨hadvances a, Nat.le_refl _⟩)
    exact ih (fun a => (h a).mono n.le_succ) b (Nat.lt_of_succ_lt_succ hrounds)
      (Nat.lt_of_succ_lt_succ hrounds')

theorem iterate {more : List Token → Bool} {step step' : α → Rule α}
    (hmore : ∀ x x' us us', more (x :: x' :: us) = more (x :: x' :: us'))
    (hadvances : ∀ a, Advances (step a)) (h : ∀ a, Follows n (step a) (step' a)) (a : α) :
    Follows n (iterate more step a) (iterate more step' a) := by
  refine ⟨.iterate more (fun a => (h a).leaves) a, fun xs ys ys' zs hxs hzs hrest => ?_⟩
  have hlength : ∀ us : List Token, xs.length < (xs ++ us).length + 1 := by
    intro us
    simp only [List.length_append]
    omega
  have hiterate := iterateWithin hmore hadvances (fun b => (h b).mono hxs) a (hlength ys)
    (hlength ys')
  exact hiterate.agrees xs ys ys' zs (Nat.le_refl _) hzs hrest

/-! ### Steps that use up a token -/

theorem advanceThen {step step' : Unit → Rule α} (h : Follows n (step ()) (step' ())) :
    Follows (n + 1) (Rule.advance >>= step) (Rule.advance >>= step') :=
  advance.bindWithin (fun _ => h) (.inr ⟨advances_advance, Nat.le_refl _⟩)

theorem expectThen {kind : TokenKind} {step step' : Unit → Rule α}
    (h : Follows n (step ()) (step' ())) :
    Follows (n + 1) (Rule.expect kind >>= step) (Rule.expect kind >>= step') :=
  (expect kind).bindWithin (fun _ => h) (.inr ⟨advances_expect kind, Nat.le_refl _⟩)

end Follows

end Rule

namespace Grammar

open Rule

/-! ### The rules of the grammar

Every nested expression begins behind the first token of the form around it.  So where `n` tokens
are enough for the parts, one more is enough for the whole. -/

variable {n : Nat} {expr expr' : ExpressionRule}

theorem name_follows : Follows n name name :=
  .bind .current fun _ => .pure _

theorem letStatement_follows (h : ∀ p, Follows n (expr p) (expr' p)) :
    Follows n (letStatement expr) (letStatement expr') :=
  .bind .current fun _ => .bind (.expect _) fun _ => .bind name_follows fun _ =>
    .bind (.expect _) fun _ => .bind .advance fun _ => .bind (h _).attempt fun _ =>
      .bind (.skip _) fun _ => .bind (.ofOption _) fun _ => .pure _

theorem returnStatement_follows (h : ∀ p, Follows n (expr p) (expr' p)) :
    Follows n (returnStatement expr) (returnStatement expr') := by
  refine .bind .current fun _ => .bind .next fun t => ?_
  split
  · exact .bind .advance fun _ => .pure _
  · exact .pure _
  · exact .pure _
  · exact .bind .advance fun _ => .bind (h _).attempt fun _ => .bind (.skip _) fun _ =>
      .bind (.ofOption _) fun _ => .pure _

theorem expressionStatement_follows (h : ∀ p, Follows n (expr p) (expr' p)) :
    Follows n (expressionStatement expr) (expressionStatement expr') :=
  .bind .current fun _ => .bind (h _).attempt fun _ => .bind (.skip _) fun _ =>
    .bind (.ofOption _) fun _ => .pure _

theorem statement_follows (h : ∀ p, Follows n (expr p) (expr' p)) :
    Follows n (statement expr) (statement expr') := by
  refine .bind .current fun t => ?_
  split
  · exact letStatement_follows h
  · exact returnStatement_follows h
  · exact expressionStatement_follows h

/-- Behind a statement the rule for several of them moves on, even if it was abandoned. -/
theorem advances_statementRound (h : ∀ p, Leaves (expr p)) :
    Advances (do let found ← attempt (statement expr); advance; return found) := by
  intro t ts _ _
  rw [bind_apply_of_some rfl]
  -- `attempt` gives a result in any case, so the step behind it is always made
  change (statement expr (t :: ts)).rest.tail <:+ ts
  rcases List.suffix_cons_iff.1 (statement_leaves h (t :: ts)) with hsame | hused
  · rw [hsame]
    exact List.suffix_rfl
  · exact (List.tail_suffix _).trans hused

theorem statements_follows (h : ∀ p, Follows n (expr p) (expr' p)) (ends : TokenKind → Bool) :
    Follows n (statements expr ends) (statements expr' ends) :=
  .bind (.many (fun _ _ _ _ => rfl) (advances_statementRound fun p => (h p).leaves)
    (.bind (statement_follows h).attempt fun _ => .bind .advance fun _ => .pure _)) fun _ => .pure _

theorem block_follows (h : ∀ p, Follows n (expr p) (expr' p)) :
    Follows (n + 1) (block expr) (block expr') :=
  .bind .current fun _ => .advanceThen (.bind (statements_follows h _) fun _ => .pure _)

theorem integer_follows : Follows n integer integer := by
  refine .bind .current fun t => ?_
  split
  · exact .reject _
  · exact .ite (.reject _) (.pure _)

theorem unary_follows (h : ∀ p, Follows n (expr p) (expr' p)) :
    Follows (n + 1) (unary expr) (unary expr') :=
  .bind .current fun _ => .advanceThen (.bind (h _) fun _ => .pure _)

theorem grouped_follows (h : ∀ p, Follows n (expr p) (expr' p)) :
    Follows (n + 1) (grouped expr) (grouped expr') :=
  .advanceThen (.bind (h _).attempt fun _ => .bind (.expect _) fun _ => .ofOption _)

theorem elseBlock_follows (h : ∀ p, Follows n (expr p) (expr' p)) :
    Follows n (elseBlock expr) (elseBlock expr') :=
  .bind .next fun _ => .ite (.bind .advance fun _ => .bind (.expect _) fun _ =>
    .bind ((block_follows h).mono n.le_succ) fun _ => .pure _) (.pure _)

theorem conditional_follows (h : ∀ p, Follows n (expr p) (expr' p)) :
    Follows (n + 1) (conditional expr) (conditional expr') :=
  .bind .current fun _ => .expectThen <| .bind .advance fun _ => .bind (h _).attempt fun _ =>
    .bind (.expect _) fun _ => .bind (.expect _) fun _ =>
      .bind ((block_follows h).mono n.le_succ) fun _ => .bind (elseBlock_follows h) fun _ =>
        .bind (.ofOption _) fun _ => .pure _

theorem parameters_follows : Follows n parameters parameters :=
  .bind .next fun _ => .ite (.bind .advance fun _ => .pure _) <| .bind (.expect _) fun _ =>
    .bind name_follows fun _ => .bind (.many (fun _ _ _ _ => rfl)
      (advances_bind advances_advance fun _ => .bind (.expect _) fun _ => name_leaves)
      (.bind .advance fun _ => .bind (.expect _) fun _ => name_follows)) fun _ =>
        .bind (.expect _) fun _ => .pure _

theorem function_follows (h : ∀ p, Follows n (expr p) (expr' p)) :
    Follows (n + 1) (function expr) (function expr') :=
  .bind .current fun _ => .bind (.expect _) fun _ => .bind parameters_follows fun _ =>
    .bind (.expect _) fun _ => .bind (block_follows h) fun _ => .pure _

theorem items_follows (h : ∀ p, Follows n (expr p) (expr' p)) (closing : TokenKind) :
    Follows (n + 1) (items expr closing) (items expr' closing) :=
  .bind .next fun _ => .ite (.bind .advance fun _ => .pure _) <| .advanceThen <|
    .bind (h _).attempt fun _ => .bind (.many (fun _ _ _ _ => rfl)
      (advances_bind advances_advance fun _ => .bind .advance fun _ => (h _).leaves.attempt)
      (.bind .advance fun _ => .bind .advance fun _ => (h _).attempt)) fun _ =>
        .bind (.expect _) fun _ => .ofOption _

theorem array_follows (h : ∀ p, Follows n (expr p) (expr' p)) :
    Follows (n + 1) (array expr) (array expr') :=
  .bind .current fun _ => .bind (items_follows h _) fun _ => .pure _

theorem pair_follows (h : ∀ p, Follows n (expr p) (expr' p)) :
    Follows (n + 1) (pair expr) (pair expr') :=
  .advanceThen <| .bind (h _).attempt fun _ => .bind (.expect _) fun _ => .bind .advance fun _ =>
    .bind (h _).attempt fun _ => .bind (.ofOption _) fun _ => .bind (.ofOption _) fun _ =>
      .bind .next fun _ => .ite (.pure _) (.bind (.expect _) fun _ => .pure _)

theorem advances_pair (h : ∀ p, Leaves (expr p)) : Advances (pair expr) :=
  advances_bind advances_advance fun _ => .bind (h _).attempt fun _ => .bind (.expect _) fun _ =>
    .bind .advance fun _ => .bind (h _).attempt fun _ => .bind (.ofOption _) fun _ =>
      .bind (.ofOption _) fun _ => .bind .next fun _ =>
        .ite (.pure _) (.bind (.expect _) fun _ => .pure _)

theorem hash_follows (h : ∀ p, Follows n (expr p) (expr' p)) :
    Follows (n + 1) (hash expr) (hash expr') :=
  .bind .current fun _ =>
    .bind (.many (fun _ _ _ _ => rfl) (advances_pair fun p => (h p).leaves) (pair_follows h))
      fun _ => .bind (.expect _) fun _ => .pure _

theorem operand_follows (h : ∀ p, Follows n (expr p) (expr' p)) :
    Follows (n + 1) (operand expr) (operand expr') := by
  refine .bind .current fun t => ?_
  split
  · exact .bind name_follows fun _ => .pure _
  · exact integer_follows
  · exact .bind .current fun _ => .pure _
  · exact function_follows h
  · exact unary_follows h
  · exact unary_follows h
  · exact grouped_follows h
  · exact conditional_follows h
  · exact .bind .current fun _ => .pure _
  · exact .bind .current fun _ => .pure _
  · exact array_follows h
  · exact hash_follows h
  · exact .reject _

theorem binary_follows (h : ∀ p, Follows n (expr p) (expr' p)) (left : Node) :
    Follows n (binary expr left) (binary expr' left) :=
  .bind .current fun _ => .bind .advance fun _ => .bind (h _) fun _ => .pure _

theorem call_follows (h : ∀ p, Follows n (expr p) (expr' p)) (callee : Node) :
    Follows n (call expr callee) (call expr' callee) :=
  .bind .current fun _ => .bind ((items_follows h _).mono n.le_succ) fun _ => .pure _

theorem index_follows (h : ∀ p, Follows n (expr p) (expr' p)) (target : Node) :
    Follows n (index expr target) (index expr' target) :=
  .bind .current fun _ => .bind .advance fun _ => .bind (h _).attempt fun _ =>
    .bind (.expect _) fun _ => .bind (.ofOption _) fun _ => .pure _

theorem continuation_follows (h : ∀ p, Follows n (expr p) (expr' p)) (left : Node) :
    Follows (n + 1) (continuation expr left) (continuation expr' left) := by
  refine .advanceThen (.bind .current fun t => ?_)
  split
  · exact call_follows h left
  · exact index_follows h left
  · exact binary_follows h left

theorem advances_continuation (h : ∀ p, Leaves (expr p)) (left : Node) :
    Advances (continuation expr left) := by
  refine advances_bind advances_advance fun _ => .bind .current fun t => ?_
  split
  · exact call_leaves h left
  · exact index_leaves h left
  · exact binary_leaves h left

theorem climb_follows (h : ∀ p, Follows n (expr p) (expr' p)) (p : Precedence) (left : Node) :
    Follows (n + 1) (climb expr p left) (climb expr' p left) :=
  .iterate (fun _ _ _ _ => rfl) (fun left => advances_continuation (fun p => (h p).leaves) left)
    (continuation_follows h) left

/-- Depths of nesting that are at least the number of tokens before the change are equally good. -/
theorem expressionWithin_follows {depth depth' : Nat} (hdepth : n ≤ depth) (hdepth' : n ≤ depth')
    (p : Precedence) : Follows n (expressionWithin depth p) (expressionWithin depth' p) := by
  induction n generalizing depth depth' p with
  | zero => exact .zero (expressionWithin_leaves depth p)
  | succ n ih =>
    obtain ⟨depth, rfl⟩ := Nat.exists_eq_succ_of_ne_zero (by omega : depth ≠ 0)
    obtain ⟨depth', rfl⟩ := Nat.exists_eq_succ_of_ne_zero (by omega : depth' ≠ 0)
    have hpart := ih (Nat.le_of_succ_le_succ hdepth) (Nat.le_of_succ_le_succ hdepth')
    exact .bind (operand_follows hpart) fun left => climb_follows hpart p left

/-- **One token of lookahead.**  An expression is read in the same way, whatever stands behind the
tokens it was given, if two of them are left. -/
theorem expression_follows (p : Precedence) : Follows n (expression p) (expression p) := by
  refine ⟨expression_leaves p, fun xs ys ys' zs _ hzs hrest => ?_⟩
  have hlength : ∀ us : List Token, xs.length ≤ (xs ++ us).length + 1 := by
    intro us
    simp only [List.length_append]
    omega
  exact (expressionWithin_follows (hlength ys) (hlength ys') p).agrees xs ys ys' zs
    (Nat.le_refl _) hzs hrest

end Grammar

end MonkeyLang
