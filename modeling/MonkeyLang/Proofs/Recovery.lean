import MonkeyLang.Proofs.Juncture
import MonkeyLang.Proofs.Sequence
import MonkeyLang.Proofs.Stops
import MonkeyLang.Proofs.Yield
import MonkeyLang.Syntax.Equality

/-!
# Recovery

`recovery_keeps_statements`: however malformed a text is, if it has no double quote and no opening
brace in it, then behind it and a semicolon the statements of a well-formed text are read as if they
stood alone, and the statements before them as if nothing followed.

The semicolon is not gone beyond by what stands before it (`expression_heeds`), and so nothing that
stands behind it is looked at unless the expression before it is abandoned (`expression_follows`).
Together this makes the outcome of a statement independent of what follows (`statement_stops`).  The
loop over statements then comes to the token behind the semicolon at the start of a statement.
-/

namespace MonkeyLang

namespace Grammar

open Rule

variable {xs : List Token}

theorem startsAfresh_nil : StartsAfresh [] := by
  unfold StartsAfresh
  decide

/-- An expression before a semicolon is the same, whatever follows that starts afresh. -/
theorem expression_stops (p : Precedence) (hxs : Braceless xs) :
    Stops StartsAfresh (expression p) xs fun _ zs => zs ≠ [] := by
  have hfollows (vs vs' zs : List Token) (hzs : zs ≠ [])
      (hrest : (expression p (xs ++ .sign .semicolon :: vs)).rest = zs ++ .sign .semicolon :: vs) :
      expression p (xs ++ .sign .semicolon :: vs') =
        ⟨(expression p (xs ++ .sign .semicolon :: vs)).value,
          (expression p (xs ++ .sign .semicolon :: vs)).diagnostics,
          zs ++ .sign .semicolon :: vs'⟩ := by
    have hlength : 2 ≤ (zs ++ [Token.sign .semicolon]).length := by
      have hpos := List.length_pos_iff.2 hzs
      simp only [List.length_append, List.length_singleton]
      omega
    have hagrees := (expression_follows p).agrees (xs ++ [.sign .semicolon]) vs vs'
      (zs ++ [.sign .semicolon]) (Nat.le_refl _) hlength (by simpa using hrest)
    simpa using hagrees
  -- all that follow are compared with nothing at all
  obtain ⟨v, zs, hzs, hpost, hnothing⟩ := expression_heeds startsAfresh_nil p xs hxs
  obtain ⟨hv, hrest⟩ := hnothing [] rfl
  refine ⟨v, zs, hzs, hpost, fun vs hvs => ?_⟩
  obtain ⟨v', zs', -, hpost', hrule⟩ := expression_heeds hvs p xs hxs
  obtain ⟨hv', hrest'⟩ := hrule vs rfl
  by_cases hne : zs = []
  · by_cases hne' : zs' = []
    · -- both times the semicolon was reached, and the expression abandoned
      have hnone : v = none := Option.eq_none_iff_forall_ne_some.2 fun a ha => hpost a ha hne
      have hnone' : v' = none := Option.eq_none_iff_forall_ne_some.2 fun a ha => hpost' a ha hne'
      rw [hv', hrest', hnone, hnone', hne, hne']
      exact ⟨rfl, rfl⟩
    · have hback := hfollows vs [] zs' hne' hrest'
      rw [hback, hne] at hrest
      exact absurd (List.append_cancel_right hrest) hne'
  · rw [hfollows [] vs zs hne hrest]
    exact ⟨hv, rfl⟩

/-- The end that all forms of statement with a value have. -/
theorem value_stops (hxs : Braceless xs) (form : Node → Node) :
    Stops StartsAfresh (do
      let value ← attempt (expression .lowest)
      skip .semicolon
      return form (← ofOption value)) xs fun _ _ => True := by
  refine (expression_stops _ hxs).attempt.bind fun v _ _ _ => ?_
  refine (Stops.skip fun _ => id).bind fun _ _ _ _ => ?_
  refine Stops.bind ?_ fun _ _ _ (_ : True) => .pure trivial
  exact .ofOption fun _ _ => trivial

theorem letStatement_stops (hxs : Braceless xs) (hne : xs ≠ []) :
    Stops StartsAfresh (letStatement expression) xs fun _ _ => True := by
  refine Stops.current.bind fun t zs _ ht => ?_
  obtain ⟨rfl, -⟩ := ht
  refine (Stops.expect (by decide) fun hnil => absurd hnil hne).bind fun _ ys hys hname => ?_
  have hname' : Stops StartsAfresh name ys fun _ us => us = ys :=
    Stops.current.bind fun _ _ _ h => .pure h.1
  refine hname'.bind fun _ us _ hus => ?_
  subst hus
  refine (Stops.expect (by decide) fun hnil => absurd hnil hname.1).bind fun _ ws hws hassign => ?_
  refine (Stops.advance hassign.1).bind fun _ as has _ => ?_
  exact value_stops (hxs.suffix ((has.trans hws).trans hys)) _

theorem returnStatement_stops (hxs : Braceless xs) (hne : xs ≠ []) :
    Stops StartsAfresh (returnStatement expression) xs fun _ _ => True := by
  refine Stops.current.bind fun t zs _ ht => ?_
  obtain ⟨rfl, -⟩ := ht
  refine (Stops.next hne).bind fun t ys _ ht => ?_
  obtain ⟨rfl, -⟩ := ht
  split
  · exact (Stops.advance hne).bind fun _ _ _ _ => .pure trivial
  · exact .pure trivial
  · exact .pure trivial
  · refine (Stops.advance hne).bind fun _ us hus _ => ?_
    exact value_stops (hxs.suffix hus) _

theorem expressionStatement_stops (hxs : Braceless xs) :
    Stops StartsAfresh (expressionStatement expression) xs fun _ _ => True := by
  refine Stops.current.bind fun t zs _ ht => ?_
  obtain ⟨rfl, -⟩ := ht
  exact value_stops hxs _

/-- What becomes of a statement before a semicolon does not depend on what follows, and it leaves
the semicolon as the current token or as one that is still to come. -/
theorem statement_stops (hxs : Braceless xs) :
    Stops StartsAfresh (statement expression) xs fun _ _ => True := by
  refine Stops.current.bind fun t zs _ ht => ?_
  obtain ⟨rfl, rfl⟩ := ht
  by_cases hne : zs = []
  · -- the semicolon itself is no keyword
    subst hne
    exact expressionStatement_stops hxs
  · split
    · exact letStatement_stops hxs hne
    · exact returnStatement_stops hxs hne
    · exact expressionStatement_stops hxs

end Grammar

open Rule Grammar

/-- Statements before a semicolon, and then those behind it. -/
theorem statementsIn_append_semicolon {us : List Token} (hus : StartsAfresh us) (xs : List Token)
    (hxs : Braceless xs) (heof : ∀ t ∈ xs, t.kind ≠ .eof) :
    (statementsIn (xs ++ .sign .semicolon :: us)).1 =
      (statementsIn (xs ++ [.sign .semicolon])).1 ++ (statementsIn us).1 := by
  induction hlength : xs.length using Nat.strongRecOn generalizing xs with
  | ind length ih =>
    subst hlength
    have hgoes : ∀ vs, (currentOf (xs ++ .sign .semicolon :: vs)).kind ≠ .eof := by
      intro vs
      cases xs with
      | nil =>
        change (Token.sign .semicolon).kind ≠ .eof
        decide
      | cons x xs => exact heof x List.mem_cons_self
    obtain ⟨v, zs, hzs, -, hrule⟩ := statement_stops hxs
    obtain ⟨hvalue, hrest⟩ := hrule us hus
    obtain ⟨hvalue', hrest'⟩ := hrule [] startsAfresh_nil
    rw [statementsIn_step (hgoes us), statementsIn_step (hgoes []), hvalue, hvalue', hrest, hrest']
    cases zs with
    | nil => simp [statementsIn_nil]
    | cons z zs =>
      have hsuffix : zs <:+ xs := (List.suffix_cons z zs).trans hzs
      have hle := hzs.length_le
      simp only [List.length_cons] at hle
      have htail := ih zs.length (by omega) zs (hxs.suffix hsuffix)
        (fun t ht => heof t (hsuffix.subset ht)) rfl
      simp only [List.cons_append, List.tail_cons, htail, List.append_assoc]

/-- The tokens of a text that leaves no diagnostics start afresh. -/
theorem startsAfresh_scan {text : List Char} (h : (parse text).diagnostics = []) :
    StartsAfresh (scan text) := by
  obtain ⟨p, us, -, ss, k, -, hs⟩ := program_takes (lexical_scan text) h
  rcases hs.starts_statements with hnil | ⟨t, ts, hcons, ht⟩
  · rw [hnil]
    exact startsAfresh_nil
  · rw [hcons]
    change t.kind ∉ _
    rcases ht with ht | ht | ht
    · revert ht
      cases t.kind <;> decide
    · rw [ht]
      decide
    · rw [ht]
      decide

/-- **Error recovery keeps later statements intact.**  Behind a semicolon the statements of a
well-formed text are read as they are, however malformed the text before the semicolon is. -/
theorem recovery_keeps_statements {text more : List Char} (hquote : '"' ∉ text)
    (hbrace : '\x7b' ∉ text) (hmore : (parse more).diagnostics = []) :
    ∃ ss ss', (parse (text ++ [';'])).program = .program ss ∧
      (parse more).program = .program ss' ∧
      (parse (text ++ ';' :: more)).program = .program (ss ++ ss') := by
  have hbraceless : Braceless (scan text) := fun t => kind_ne_lbrace_of_mem_scan hbrace
  have heof : ∀ t ∈ scan text, t.kind ≠ .eof := fun t ht => (isLexeme_of_mem_scan ht).kind_ne_eof
  have hstatements := statementsIn_append_semicolon (startsAfresh_scan hmore) (scan text)
    hbraceless heof
  refine ⟨_, _, congrArg Parsed.program (parseTokens_eq _), congrArg Parsed.program
    (parseTokens_eq _), ?_⟩
  rw [parse, parseTokens_eq, scan_append_semicolon hquote, scan_append_semicolon hquote, scan_nil,
    hstatements]

/-- What is left open by a malformed text is not closed or continued by the text behind it. -/
theorem recovery_keeps_statements_unclosed :
    let text := "1; let = f(1, [".toList
    let more := "-b".toList
    let ss := [.expressionStatement ⟨.int, "1"⟩ (.integer ⟨.int, "1"⟩ 1)]
    let ss' := [.expressionStatement (.sign .minus)
      (.unary (.sign .minus) "-" (.identifier (.ofName "b")))]
    '"' ∉ text ∧ '\x7b' ∉ text ∧ (parse more).diagnostics = [] ∧
      (parse (text ++ [';'])).diagnostics ≠ [] ∧ (parse (text ++ [';'])).program = .program ss ∧
      (parse more).program = .program ss' ∧
      (parse (text ++ ';' :: more)).program = .program (ss ++ ss') := by
  intro text more ss ss'
  have hquote : '"' ∉ text := by decide
  have hbrace : '\x7b' ∉ text := by decide
  have hmore : (parse more).diagnostics = [] := by decide +kernel
  have hfirst : (parse (text ++ [';'])).program = .program ss := by decide +kernel
  have hsecond : (parse more).program = .program ss' := by decide +kernel
  obtain ⟨_, _, hss, hss', hwhole⟩ := recovery_keeps_statements hquote hbrace hmore
  obtain rfl : ss = _ := Node.program.inj (hfirst.symm.trans hss)
  obtain rfl : ss' = _ := Node.program.inj (hsecond.symm.trans hss')
  exact ⟨hquote, hbrace, hmore, by decide +kernel, hfirst, hsecond, hwhole⟩

end MonkeyLang
