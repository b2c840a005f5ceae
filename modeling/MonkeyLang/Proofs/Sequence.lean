import MonkeyLang.Grammar.Program
import MonkeyLang.Proofs.Lookahead

/-!
# A program, statement by statement

`statementsIn` are the statements that tokens make up, with the diagnostics that they leave.
`statementsIn_step` takes the first of them away: a program is its first statement, if that could
be read, and then the program in the tokens that are left.
-/

namespace MonkeyLang

namespace Rule

variable {α β : Type} {more : List Token → Bool} {rule rule' : Rule α} {ts : List Token}

theorem bind_apply_congr (h : rule ts = rule' ts) (cont : α → Rule β) :
    (rule >>= cont) ts = (rule' >>= cont) ts := by
  change Rule.bind rule cont ts = Rule.bind rule' cont ts
  unfold Rule.bind
  rw [h]

theorem bind_pure_apply (f : α → β) :
    (rule >>= fun a => pure (f a)) ts =
      ⟨(rule ts).value.map f, (rule ts).diagnostics, (rule ts).rest⟩ := by
  cases hv : (rule ts).value with
  | none => simp [bind_apply_of_none hv]
  | some a => simp [bind_apply_of_some hv]

/-- Once there are more rounds than tokens, further rounds make no difference.  Where the test still
holds at the end of the text, a round has to be abandoned there. -/
theorem manyWithin_congr (hnil : more [] = true → (rule []).value = none)
    (hadvances : Advances rule) {rounds rounds' : Nat} (hrounds : ts.length < rounds)
    (hrounds' : ts.length < rounds') :
    manyWithin more rule rounds ts = manyWithin more rule rounds' ts := by
  induction rounds generalizing rounds' ts with
  | zero => omega
  | succ rounds ih =>
    obtain ⟨rounds', rfl⟩ := Nat.exists_eq_succ_of_ne_zero (by omega : rounds' ≠ 0)
    unfold manyWithin
    by_cases hm : more ts
    · rw [if_pos hm, if_pos hm]
      cases hv : (rule ts).value with
      | none => rw [bind_apply_of_none hv, bind_apply_of_none hv]
      | some a =>
        cases ts with
        | nil => cases (hnil hm).symm.trans hv
        | cons t ts =>
          have hle := (hadvances t ts a hv).length_le
          simp only [List.length_cons] at hrounds hrounds'
          have hrest : manyWithin more rule rounds (rule (t :: ts)).rest =
              manyWithin more rule rounds' (rule (t :: ts)).rest := ih (by omega) (by omega)
          rw [bind_apply_of_some hv, bind_apply_of_some hv, bind_apply_congr hrest]
    · rw [if_neg hm, if_neg hm]

theorem many_apply_of_not (hmore : more ts = false) : many more rule ts = ⟨some [], [], ts⟩ := by
  simp [many, manyWithin, hmore, Rule.pure]

/-- One round of a loop, and then the loop again. -/
theorem many_apply {t : Token} {a : α} (hnil : more [] = false) (hadvances : Advances rule)
    (hmore : more (t :: ts) = true) (ha : (rule (t :: ts)).value = some a) :
    many more rule (t :: ts) =
      ⟨(many more rule (rule (t :: ts)).rest).value.map (a :: ·),
        (rule (t :: ts)).diagnostics ++ (many more rule (rule (t :: ts)).rest).diagnostics,
        (many more rule (rule (t :: ts)).rest).rest⟩ := by
  have hle := (hadvances t ts a ha).length_le
  have hrest : manyWithin more rule (t :: ts).length (rule (t :: ts)).rest =
      many more rule (rule (t :: ts)).rest :=
    manyWithin_congr (fun h => nomatch hnil.symm.trans h) hadvances
      (by simp only [List.length_cons]; omega) (Nat.lt_succ_self _)
  have hround : many more rule (t :: ts) =
      (rule >>= fun a => manyWithin more rule (t :: ts).length >>= fun as => pure (a :: as))
        (t :: ts) := if_pos hmore
  rw [hround, bind_apply_of_some ha, bind_apply_congr hrest, bind_pure_apply]

/-- A loop is not abandoned if none of its rounds is. -/
theorem many_isSome (hnil : more [] = false) (hadvances : Advances rule)
    (h : ∀ us, (rule us).value.isSome) : (many more rule ts).value.isSome := by
  induction hlength : ts.length using Nat.strongRecOn generalizing ts with
  | ind length ih =>
    subst hlength
    cases hmore : more ts with
    | false => simp [many_apply_of_not hmore]
    | true =>
      cases ts with
      | nil => simp [hnil] at hmore
      | cons t ts =>
        obtain ⟨a, ha⟩ := Option.isSome_iff_exists.1 (h (t :: ts))
        have hle := (hadvances t ts a ha).length_le
        rw [many_apply hnil hadvances hmore ha, Option.isSome_map]
        exact ih _ (by simp only [List.length_cons]; omega) rfl

end Rule

open Rule Grammar

/-- Whether or not a statement was abandoned, the token behind it is the next to be read. -/
theorem Grammar.statementRound_apply (expr : ExpressionRule) (ts : List Token) :
    (do let found ← attempt (statement expr); advance; return found : Rule (Option Node)) ts =
      ⟨some (statement expr ts).value, (statement expr ts).diagnostics,
        (statement expr ts).rest.tail⟩ := by
  rw [bind_apply_of_some rfl, bind_pure_apply]
  simp [attempt, advance]

/-- One round of the loop over the statements of a program. -/
def programRound : Rule (Option Node) := do
  let found ← attempt (statement expression)
  advance
  return found

/-- Tells whether the loop over the statements of a program goes on. -/
def inProgram (ts : List Token) : Bool :=
  !decide ((currentOf ts).kind = .eof)

theorem programRound_apply (ts : List Token) :
    programRound ts = ⟨some (statement expression ts).value,
      (statement expression ts).diagnostics, (statement expression ts).rest.tail⟩ :=
  statementRound_apply expression ts

theorem advances_programRound : Advances programRound :=
  advances_statementRound expression_leaves

theorem programRounds_isSome (ts : List Token) : (many inProgram programRound ts).value.isSome :=
  many_isSome rfl advances_programRound fun us => by rw [programRound_apply]; rfl

/-- The statements that tokens make up, and the diagnostics that they leave. -/
def statementsIn (ts : List Token) : List Node × List Diagnostic :=
  let reading := many inProgram programRound ts
  ((reading.value.getD []).filterMap id, reading.diagnostics)

theorem parseTokens_eq (ts : List Token) :
    parseTokens ts = ⟨.program (statementsIn ts).1, (statementsIn ts).2⟩ := by
  have hprogram : program ts = ((many inProgram programRound >>= fun found =>
      pure (found.filterMap id)) >>= fun ss => pure (.program ss)) ts := rfl
  obtain ⟨found, hfound⟩ := Option.isSome_iff_exists.1 (programRounds_isSome ts)
  simp only [parseTokens, hprogram, bind_pure_apply, statementsIn, hfound]
  rfl

theorem statementsIn_nil : statementsIn [] = ([], []) := rfl

/-- A program is its first statement, if that could be read, and the program behind it. -/
theorem statementsIn_step {ts : List Token} (h : (currentOf ts).kind ≠ .eof) :
    statementsIn ts =
      ((statement expression ts).value.toList ++
          (statementsIn (statement expression ts).rest.tail).1,
        (statement expression ts).diagnostics ++
          (statementsIn (statement expression ts).rest.tail).2) := by
  cases ts with
  | nil => exact absurd rfl h
  | cons t ts =>
    have hround := programRound_apply (t :: ts)
    have hmany : many inProgram programRound (t :: ts) = _ :=
      many_apply rfl advances_programRound (by simpa [inProgram] using h) (by rw [hround])
    obtain ⟨found, hfound⟩ := Option.isSome_iff_exists.1
      (programRounds_isSome (statement expression (t :: ts)).rest.tail)
    simp only [statementsIn, hmany, hround, hfound]
    cases (statement expression (t :: ts)).value <;> rfl

end MonkeyLang
