import MonkeyLang.Proofs.Sequence

/-!
# Loops end by their test

A loop of the grammar is allowed no more rounds than there are tokens, and one.  It never comes to
this bound, because every round uses up a token.

* `many_eq` and `iterate_eq` are the equations of the loops without a bound: as long as the test
  holds, there is a round and then the loop again;
* `many_gives_stop`: where a loop has collected its results, its test has failed.

For the loop over the pairs of a hash literal the test still holds at the end of the text, but no
pair is read there; so it is asked that a rule is abandoned where the test holds and no token is
left.
-/

namespace MonkeyLang

namespace Rule

variable {α : Type} {more : List Token → Bool} {rule : Rule α} {ts : List Token}

/-- The equation of a loop without a bound on its rounds. -/
theorem many_eq (hnil : more [] = true → (rule []).value = none) (hadvances : Advances rule)
    (ts : List Token) :
    many more rule ts =
      if more ts then (do let a ← rule; let as ← many more rule; return a :: as : Rule (List α)) ts
      else (pure [] : Rule (List α)) ts := by
  by_cases hm : more ts
  · have hround : many more rule ts =
        (do let a ← rule; let as ← manyWithin more rule ts.length; return a :: as) ts := if_pos hm
    rw [hround, if_pos hm]
    cases hv : (rule ts).value with
    | none => rw [bind_apply_of_none hv, bind_apply_of_none hv]
    | some a =>
      cases ts with
      | nil => cases (hnil hm).symm.trans hv
      | cons t ts =>
        have hle := (hadvances t ts a hv).length_le
        have hrest : manyWithin more rule (t :: ts).length (rule (t :: ts)).rest =
            many more rule (rule (t :: ts)).rest :=
          manyWithin_congr hnil hadvances
            (by simp only [List.length_cons]; omega) (Nat.lt_succ_self _)
        rw [bind_apply_of_some hv, bind_apply_of_some hv, bind_apply_congr hrest]
  · rw [if_neg hm, many_apply_of_not (Bool.eq_false_iff.2 hm)]
    rfl

/-- Where a loop has collected its results, its test has failed. -/
theorem many_gives_stop (hnil : more [] = true → (rule []).value = none)
    (hadvances : Advances rule) (ts : List Token) :
    Gives (many more rule) ts fun _ us => more us = false := by
  induction hlength : ts.length using Nat.strongRecOn generalizing ts with
  | ind length ih =>
    subst hlength
    have heq := many_eq hnil hadvances ts
    by_cases hm : more ts
    · have hround : Gives (do let a ← rule; let as ← many more rule; return a :: as) ts
          fun _ us => more us = false := by
        simp only [gives_bind, gives_pure]
        intro a ha
        cases ts with
        | nil => cases (hnil hm).symm.trans ha
        | cons t ts =>
          exact ih _ (Nat.lt_succ_of_le (hadvances t ts a ha).length_le) _ rfl
      rw [if_pos hm] at heq
      simpa only [Gives, heq] using hround
    · rw [if_neg hm] at heq
      simpa [Gives, heq] using hm

theorem iterateWithin_congr {step : α → Rule α} (hnil : more [] = false)
    (hadvances : ∀ a, Advances (step a)) (a : α) {rounds rounds' : Nat}
    (hrounds : ts.length < rounds) (hrounds' : ts.length < rounds') :
    iterateWithin more step rounds a ts = iterateWithin more step rounds' a ts := by
  induction rounds generalizing rounds' ts a with
  | zero => omega
  | succ rounds ih =>
    obtain ⟨rounds', rfl⟩ := Nat.exists_eq_succ_of_ne_zero (by omega : rounds' ≠ 0)
    unfold iterateWithin
    by_cases hm : more ts
    · rw [if_pos hm, if_pos hm]
      cases hv : (step a ts).value with
      | none => rw [bind_apply_of_none hv, bind_apply_of_none hv]
      | some b =>
        cases ts with
        | nil => cases hnil.symm.trans hm
        | cons t ts =>
          have hle := (hadvances a t ts b hv).length_le
          simp only [List.length_cons] at hrounds hrounds'
          have hrest : iterateWithin more step rounds b (step a (t :: ts)).rest =
              iterateWithin more step rounds' b (step a (t :: ts)).rest :=
            ih b (by omega) (by omega)
          rw [bind_apply_of_some hv, bind_apply_of_some hv, hrest]
    · rw [if_neg hm, if_neg hm]

/-- The equation of a loop that passes on a value, without a bound on its rounds. -/
theorem iterate_eq {step : α → Rule α} (hnil : more [] = false)
    (hadvances : ∀ a, Advances (step a)) (a : α) (ts : List Token) :
    iterate more step a ts =
      if more ts then (step a >>= iterate more step) ts else (pure a : Rule α) ts := by
  by_cases hm : more ts
  · have hround : iterate more step a ts =
        (step a >>= iterateWithin more step ts.length) ts := if_pos hm
    rw [hround, if_pos hm]
    cases hv : (step a ts).value with
    | none => rw [bind_apply_of_none hv, bind_apply_of_none hv]
    | some b =>
      cases ts with
      | nil => cases hnil.symm.trans hm
      | cons t ts =>
        have hle := (hadvances a t ts b hv).length_le
        have hrest : iterateWithin more step (t :: ts).length b (step a (t :: ts)).rest =
            iterate more step b (step a (t :: ts)).rest :=
          iterateWithin_congr hnil hadvances b
            (by simp only [List.length_cons]; omega) (Nat.lt_succ_self _)
        rw [bind_apply_of_some hv, bind_apply_of_some hv, hrest]
  · have hnot : iterate more step a ts = (pure a : Rule α) ts := if_neg hm
    rw [hnot, if_neg hm]

/-- The loop goes round as long as its test holds, and every round uses up a token: it comes to an
end for no other reason than its test or a round that is abandoned. -/
structure GoesRound (more : List Token → Bool) (rule : Rule α) : Prop where
  unrolls : ∀ ts, many more rule ts =
    if more ts then (do let a ← rule; let as ← many more rule; return a :: as : Rule (List α)) ts
    else (pure [] : Rule (List α)) ts
  shrinks : ∀ ts, more ts → Gives rule ts fun _ us => us.length < ts.length

theorem goesRound (hnil : more [] = true → (rule []).value = none) (hadvances : Advances rule) :
    GoesRound more rule where
  unrolls := many_eq hnil hadvances
  shrinks ts hmore a ha := by
    cases ts with
    | nil => cases (hnil hmore).symm.trans ha
    | cons t ts => exact Nat.lt_succ_of_le (hadvances t ts a ha).length_le

end Rule

namespace Grammar

open Rule

variable {expr : ExpressionRule}

/-- The loops of the grammar, for a rule for expressions, have no bound on their rounds. -/
structure LoopsGoRound (expr : ExpressionRule) : Prop where
  statements : ∀ ends : TokenKind → Bool, ends .eof = true →
    GoesRound (fun ts => !ends (currentOf ts).kind)
      (do let found ← attempt (statement expr); advance; return found)
  parameters : GoesRound (fun ts => (nextOf ts).kind = .comma) (do advance; expect .ident; name)
  items : GoesRound (fun ts => (nextOf ts).kind = .comma)
    (do advance; advance; attempt (expr .lowest))
  pairs : GoesRound (fun ts => (nextOf ts).kind ≠ .rbrace) (pair expr)
  climb : ∀ p left ts, climb expr p left ts =
    if p < .ofKind (nextOf ts).kind then (continuation expr left >>= climb expr p) ts
    else (pure left : Rule Node) ts
  climb_shrinks : ∀ (p : Precedence) left ts, p < .ofKind (nextOf ts).kind →
    Gives (continuation expr left) ts fun _ us => us.length < ts.length

/-- At the end of the text there is no pair. -/
theorem pair_nil (h : ∀ p, Leaves (expr p)) : (pair expr []).value = none := by
  have hkey : (expr .lowest []).rest = [] := List.suffix_nil.1 (h .lowest [])
  have hnone : Gives (pair expr) [] fun _ _ => False := by
    simp only [pair, gives_bind, gives_advance, gives_attempt, gives_expect]
    exact fun hcolon => nomatch (congrArg (fun ts => (nextOf ts).kind) hkey).symm.trans hcolon
  exact Option.eq_none_iff_forall_ne_some.2 hnone

theorem loopsGoRound (h : ∀ p, Leaves (expr p)) : LoopsGoRound expr where
  statements ends heof := goesRound
    (fun hmore => by simp [currentOf, Token.eof, heof] at hmore) (advances_statementRound h)
  parameters := goesRound (fun hmore => absurd hmore Bool.false_ne_true)
    (advances_bind advances_advance fun _ => .bind (.expect _) fun _ => name_leaves)
  items := goesRound (fun hmore => absurd hmore Bool.false_ne_true)
    (advances_bind advances_advance fun _ => .bind .advance fun _ => (h _).attempt)
  pairs := goesRound (fun _ => pair_nil h) (advances_pair h)
  climb p left ts := by
    have hround := @iterate_eq _ (fun ts => p < .ofKind (nextOf ts).kind) _
      (by cases p <;> rfl) (advances_continuation h) left ts
    simp only [decide_eq_true_eq] at hround
    exact hround
  climb_shrinks p left ts hlt e he := by
    cases ts with
    | nil => cases p <;> exact absurd hlt (by decide)
    | cons t ts => exact Nat.lt_succ_of_le (advances_continuation h left t ts e he).length_le

end Grammar

end MonkeyLang
