import MonkeyLang.Interpret
import MonkeyLang.Proofs.Balance
import MonkeyLang.Proofs.ErrorFree
import MonkeyLang.Proofs.Juncture
import MonkeyLang.Proofs.Sequence
import MonkeyLang.Proofs.Yield
import MonkeyLang.Syntax.Equality

/-!
# Splitting a program

`program_splits`: a text that leaves no diagnostics, ends with a semicolon and has no bracket open
at its end may be cut off from the text behind it.  The statements of the whole are those of both
parts, its diagnostics are those of the second part, and to interpret it is to interpret the parts
one after the other.

A last statement that takes the final semicolon has stopped two tokens before the end of its value:
the value does not take the semicolon itself, since outside of brackets no spelling ends with one.
So it is read in the same way when more tokens follow.
-/

namespace MonkeyLang

namespace Rule

variable {α β : Type} {rule : Rule α} {cont : α → Rule β} {xs ys : List Token}

/-- What the rule reads from the tokens `xs` it also reads if `ys` stands behind them, and then `ys`
is left as well. -/
def Extends (ys : List Token) (rule : Rule α) (xs : List Token) : Prop :=
  ∀ a us, Reads rule xs a us → us ≠ [] ∧ Reads rule (xs ++ ys) a (us ++ ys)

theorem exists_cons_cons (h : 2 ≤ xs.length) : ∃ x x' ws, xs = x :: x' :: ws := by
  match xs with
  | x :: x' :: ws => exact ⟨x, x', ws, rfl⟩

namespace Extends

theorem bind (h : Extends ys rule xs)
    (hcont : ∀ a us, Reads rule xs a us → us ≠ [] → Extends ys (cont a) us) :
    Extends ys (rule >>= cont) xs := by
  intro b vs hread
  obtain ⟨a, us, hrule, hafter⟩ := bind_reads.1 hread
  obtain ⟨hus, hrule'⟩ := h a us hrule
  obtain ⟨hvs, hafter'⟩ := hcont a us hrule hus b vs hafter
  exact ⟨hvs, hrule'.bind hafter'⟩

/-- A rule that has left two tokens has not looked at what stands behind them. -/
theorem of_follows (h : Follows xs.length rule rule)
    (hlong : ∀ a us, Reads rule xs a us → 2 ≤ us.length) : Extends ys rule xs := by
  intro a us hread
  have htwo := hlong a us hread
  have hagrees := h.agrees xs [] ys us (Nat.le_refl _) htwo (by simpa using hread.rest_eq)
  refine ⟨List.ne_nil_of_length_pos (by omega), ?_⟩
  rw [List.append_nil, show rule xs = _ from hread] at hagrees
  exact hagrees

/-- Where a rule that is abandoned leaves a diagnostic, one that leaves none is not abandoned. -/
theorem attempt {post : α → List Token → Prop} (hcompletes : Completes rule xs post)
    (h : Extends ys rule xs) : Extends ys (attempt rule) xs := by
  intro v us hread
  have hvalue : (rule xs).value = v := by
    simpa [Reads, Rule.attempt] using congrArg Reading.value hread
  have hdiagnostics : (rule xs).diagnostics = [] := congrArg Reading.diagnostics hread
  obtain ⟨a, vs, hrule, -⟩ := hcompletes hdiagnostics
  obtain ⟨hvs, hrule'⟩ := h a vs hrule
  obtain ⟨rfl, rfl⟩ : v = some a ∧ us = vs := by
    have heq := hread.symm.trans hrule.attempt
    simpa using heq
  exact ⟨hvs, hrule'.attempt⟩

theorem pure (a : α) (hxs : xs ≠ []) : Extends ys (pure a) xs := by
  intro b us hread
  obtain ⟨rfl, rfl⟩ : a = b ∧ xs = us := by simpa [Reads] using hread
  exact ⟨hxs, rfl⟩

theorem ofOption (v : Option α) (hxs : xs ≠ []) : Extends ys (ofOption v) xs := by
  cases v with
  | none => exact fun a us hread => by simp [Reads, Rule.ofOption, fail] at hread
  | some a => exact pure a hxs

theorem current (hxs : xs ≠ []) : Extends ys current xs := by
  intro t us hread
  obtain ⟨x, xs, rfl⟩ := List.exists_cons_of_ne_nil hxs
  obtain ⟨rfl, rfl⟩ : x = t ∧ x :: xs = us := by simpa [Reads, Rule.current, currentOf] using hread
  exact ⟨hxs, rfl⟩

theorem next (hxs : 2 ≤ xs.length) : Extends ys next xs :=
  of_follows .next fun _ us hread => by
    obtain rfl : xs = us := by simpa [Reads, Rule.next] using congrArg Reading.rest hread
    exact hxs

theorem advance (hxs : 2 ≤ xs.length) : Extends ys advance xs := by
  intro u us hread
  obtain ⟨x, x', ws, rfl⟩ := exists_cons_cons hxs
  obtain rfl : x' :: ws = us := congrArg Reading.rest hread
  exact ⟨List.cons_ne_nil x' ws, rfl⟩

theorem expect {kind : TokenKind} (hkind : kind ≠ .eof) : Extends ys (expect kind) xs := by
  intro u us hread
  by_cases hnext : (nextOf xs).kind = kind
  · obtain ⟨x, x', ws, rfl⟩ : ∃ x x' ws, xs = x :: x' :: ws := by
      match xs with
      | [] => exact absurd hnext.symm hkind
      | [x] => exact absurd hnext.symm hkind
      | x :: x' :: ws => exact ⟨x, x', ws, rfl⟩
    obtain rfl : x' :: ws = us := (expect_reads hnext).rest_eq.symm.trans hread.rest_eq
    exact ⟨List.cons_ne_nil x' ws, expect_reads hnext⟩
  · simp [Reads, Rule.expect, hnext, reject] at hread

theorem skip {kind : TokenKind} (hxs : 2 ≤ xs.length) : Extends ys (skip kind) xs := by
  intro u us hread
  obtain ⟨x, x', ws, rfl⟩ := exists_cons_cons hxs
  by_cases hnext : x'.kind = kind
  · have hmoves : Reads (Rule.skip kind) (x :: x' :: ws) () (x' :: ws) := skip_reads hnext
    obtain rfl : x' :: ws = us := hmoves.rest_eq.symm.trans hread.rest_eq
    exact ⟨List.cons_ne_nil x' ws, skip_reads hnext⟩
  · have hstays : Reads (Rule.skip kind) (x :: x' :: ws) () (x :: x' :: ws) :=
      skip_reads_of_ne hnext
    obtain rfl : x :: x' :: ws = us := hstays.rest_eq.symm.trans hread.rest_eq
    exact ⟨List.cons_ne_nil x _, skip_reads_of_ne hnext⟩

end Extends

theorem eq_tail_of_expect_reads {kind : TokenKind} {us : List Token} {u : Unit}
    (h : Reads (expect kind) xs u us) : us = xs.tail ∧ (currentOf us).kind = kind := by
  by_cases hnext : (nextOf xs).kind = kind
  · obtain rfl : xs.tail = us := (expect_reads hnext).rest_eq.symm.trans h.rest_eq
    exact ⟨rfl, hnext⟩
  · simp [Reads, expect, hnext, reject] at h

end Rule

namespace Grammar

open Rule Console

/-- Tokens that end with a semicolon, at which no bracket is open. -/
structure Terminated (xs : List Token) : Prop where
  lexical : Lexical xs
  last : xs.getLast? = some (.sign .semicolon)
  depth : depthBehind 0 xs = 0

namespace Terminated

variable {xs ys : List Token}

theorem ne_nil (h : Terminated xs) : xs ≠ [] := by
  rintro rfl
  exact absurd h.last (by simp)

theorem two_le (h : Terminated xs) (hkind : (currentOf xs).kind ≠ .semicolon) : 2 ≤ xs.length := by
  match xs with
  | [] => exact absurd rfl h.ne_nil
  | [x] =>
    obtain rfl : x = .sign .semicolon := by simpa using h.last
    exact absurd rfl hkind
  | x :: x' :: ws => exact Nat.le_add_left 2 ws.length

/-- What stands behind a token that is no bracket. -/
theorem tail (h : Terminated xs) (hkind : (currentOf xs).kind ∉ [.semicolon, .lparen, .lbracket,
    .lbrace, .rparen, .rbracket, .rbrace]) : Terminated xs.tail := by
  have htwo := h.two_le fun heq => hkind (by simp [heq])
  obtain ⟨x, x', ws, rfl⟩ := exists_cons_cons htwo
  have hdepth : depthAfter 0 x = 0 := by
    unfold depthAfter
    split <;> simp_all [currentOf]
  refine ⟨h.lexical.tail, by simpa using h.last, ?_⟩
  have hbehind := h.depth
  rw [depthBehind_cons, hdepth] at hbehind
  exact hbehind

/-- An expression does not take the semicolon at the end. -/
theorem two_le_rest (h : Terminated xs) (hread : (expression .lowest xs).diagnostics = []) :
    2 ≤ (expression .lowest xs).rest.length := by
  obtain ⟨e, us, he, k, used, hs, hused, -⟩ := expression_understands.lowest h.lexical hread
  rw [he.rest_eq]
  by_contra hshort
  have htail : us.tail = [] :=
    List.eq_nil_of_length_eq_zero (by simp only [List.length_tail]; omega)
  rw [htail, List.append_nil] at hused
  subst hused
  have hk : k = 0 := by
    have hdepth := hs.depth 0
    rw [h.depth] at hdepth
    omega
  exact (hs.endsOpen trivial hk).getLast?_ne h.last

/-- The end that all forms of statement with a value have. -/
theorem value_extends (h : Terminated xs) (form : Node → Node) :
    Extends ys (do
      let value ← attempt (expression .lowest)
      skip .semicolon
      return form (← ofOption value)) xs := by
  have hvalue : Extends ys (expression .lowest) xs := by
    refine .of_follows (expression_follows _) fun a us hread => ?_
    have htwo := h.two_le_rest (congrArg Reading.diagnostics hread)
    rwa [hread.rest_eq] at htwo
  refine .bind (.attempt (expression_understands.lowest h.lexical) hvalue) fun v us hread _ => ?_
  have htwo : 2 ≤ us.length := by
    have hleft := h.two_le_rest (congrArg Reading.diagnostics hread)
    rwa [show (expression .lowest xs).rest = us from congrArg Reading.rest hread] at hleft
  exact .bind (.skip htwo) fun _ _ _ hvs => .bind (.ofOption v hvs) fun _ _ _ hws => .pure _ hws

theorem letStatement_extends (h : Terminated xs) (hkind : (currentOf xs).kind = .let) :
    Extends ys (letStatement expression) xs := by
  refine .bind (.current h.ne_nil) fun t us hread _ => ?_
  obtain rfl : xs = us := congrArg Reading.rest hread
  refine .bind (.expect (by decide)) fun _ us hread hus => ?_
  obtain ⟨rfl, hname⟩ := eq_tail_of_expect_reads hread
  have hbehind : Terminated xs.tail := h.tail (by rw [hkind]; decide)
  refine .bind (.bind (.current hus) fun _ _ _ hvs => .pure _ hvs) fun target us hread _ => ?_
  obtain rfl : xs.tail = us := congrArg Reading.rest hread
  refine .bind (.expect (by decide)) fun _ us hread hus => ?_
  obtain ⟨rfl, hassign⟩ := eq_tail_of_expect_reads hread
  have hbehind' : Terminated xs.tail.tail := hbehind.tail (by rw [hname]; decide)
  refine .bind (.advance (hbehind'.two_le (by rw [hassign]; decide))) fun _ us hread _ => ?_
  obtain rfl : xs.tail.tail.tail = us := congrArg Reading.rest hread
  exact value_extends (hbehind'.tail (by rw [hassign]; decide)) _

theorem returnStatement_extends (h : Terminated xs) (hkind : (currentOf xs).kind = .return) :
    Extends ys (returnStatement expression) xs := by
  have htwo : 2 ≤ xs.length := h.two_le (by rw [hkind]; decide)
  refine .bind (.current h.ne_nil) fun t us hread _ => ?_
  obtain rfl : xs = us := congrArg Reading.rest hread
  refine .bind (.next htwo) fun t us hread _ => ?_
  obtain rfl : xs = us := congrArg Reading.rest hread
  split
  · exact .bind (.advance htwo) fun _ _ _ hvs => .pure _ hvs
  · exact .pure _ h.ne_nil
  · exact .pure _ h.ne_nil
  · refine .bind (.advance htwo) fun _ us hread _ => ?_
    obtain rfl : xs.tail = us := congrArg Reading.rest hread
    exact value_extends (h.tail (by rw [hkind]; decide)) _

theorem expressionStatement_extends (h : Terminated xs) :
    Extends ys (expressionStatement expression) xs := by
  refine .bind (.current h.ne_nil) fun t us hread _ => ?_
  obtain rfl : xs = us := congrArg Reading.rest hread
  exact value_extends h _

/-- A statement of terminated tokens is read in the same way if others stand behind them. -/
theorem statement_extends (h : Terminated xs) : Extends ys (statement expression) xs := by
  refine .bind (.current h.ne_nil) fun t us hread _ => ?_
  obtain ⟨rfl, rfl⟩ : currentOf xs = t ∧ xs = us := by simpa [Reads, Rule.current] using hread
  split
  · next hkind => exact h.letStatement_extends hkind
  · next hkind => exact h.returnStatement_extends hkind
  · exact h.expressionStatement_extends

/-- What is left behind tokens that close all their brackets. -/
theorem behind (h : Terminated xs) {used us : List Token} (hxs : xs = used ++ us) (hus : us ≠ [])
    (hused : depthBehind 0 used = 0) : Terminated us := by
  subst hxs
  refine ⟨h.lexical.behind rfl, ?_, ?_⟩
  · have hlast := h.last
    rwa [List.getLast?_append, List.getLast?_eq_some_getLast hus, Option.some_or,
      ← List.getLast?_eq_some_getLast hus] at hlast
  · have hdepth := h.depth
    rwa [depthBehind_append, hused] at hdepth

/-- What is left behind a statement. -/
theorem behind_statement (h : Terminated xs) {s : Node} {us : List Token}
    (htakes : TakesStatement s xs us) : us.tail = [] ∨ Terminated us.tail := by
  by_cases hus : us.tail = []
  · exact .inl hus
  · right
    rcases htakes with ⟨k, used, hs, hused, hk⟩ | ⟨used, hs, hused⟩
    · obtain rfl : k = 0 := hk.resolve_left hus
      exact h.behind hused hus (hs.depth 0)
    · have hsemicolon : xs = (used ++ [.sign .semicolon]) ++ us.tail := by simpa using hused
      have hdepth : depthBehind 0 (used ++ [.sign .semicolon]) = 0 := by
        rw [depthBehind_append, hs.depth 0]
        rfl
      exact h.behind hsemicolon hus hdepth

end Terminated

end Grammar

open Rule Grammar

/-- **Statements up to a final semicolon.**  If they leave no diagnostics and no bracket is open,
they are the same whatever stands behind, and what stands behind is read as it is. -/
theorem statementsIn_append {xs : List Token} (h : xs = [] ∨ Terminated xs)
    (hread : (statementsIn xs).2 = []) (ys : List Token) :
    statementsIn (xs ++ ys) =
      ((statementsIn xs).1 ++ (statementsIn ys).1, (statementsIn ys).2) := by
  induction hlength : xs.length using Nat.strongRecOn generalizing xs with
  | ind length ih =>
    subst hlength
    rcases h with rfl | h
    · simp [statementsIn_nil]
    · obtain ⟨x, ws, rfl⟩ := List.exists_cons_of_ne_nil h.ne_nil
      have hx : x.kind ≠ .eof := (h.lexical x List.mem_cons_self).kind_ne_eof
      have hstep : statementsIn (x :: ws) = _ := statementsIn_step hx
      rw [hstep, List.append_eq_nil_iff] at hread
      obtain ⟨s, us, hs, htakes⟩ :=
        statement_takes expression_understands h.lexical hread.1
      have hextends : Extends ys (statement expression) (x :: ws) := h.statement_extends
      obtain ⟨hus, hs'⟩ := hextends s us hs
      obtain ⟨t, us, rfl⟩ := List.exists_cons_of_ne_nil hus
      rw [hs.rest_eq] at hread
      have htail := ih us.length htakes.length_lt (h.behind_statement htakes) hread.2 rfl
      have hstep' : statementsIn (x :: ws ++ ys) = _ := statementsIn_step hx
      rw [hstep, hstep', show statement expression (x :: ws) = _ from hs,
        show statement expression (x :: ws ++ ys) = _ from hs']
      rw [List.tail_cons] at htail
      simp only [List.cons_append, List.tail_cons, htail, List.append_assoc, List.nil_append]

/-! ### Evaluation -/

/-- The statements are evaluated one after the other up to the last of them: none of them fails,
returns or ends in a fault. -/
def RunsThrough (depth : Nat) (frame : FrameId) : List Node → Store → Prop
  | [], _ => True
  | statement :: statements, store => ∃ outcome,
    ((statement.eval (callWithin depth) frame).exec store).1 = .ok outcome ∧
      outcome.isSignal = false ∧
      RunsThrough depth frame statements ((statement.eval (callWithin depth) frame).exec store).2

/-- Behind statements that are evaluated up to the last of them, the evaluation goes on. -/
theorem exec_evalProgram_append {depth : Nat} {frame : FrameId} {ss : List Node} {store : Store}
    (h : RunsThrough depth frame ss store) (last : Value) :
    ∃ last' after,
      (Node.evalProgram (callWithin depth) frame last ss).exec store = (.ok last', after) ∧
      ∀ ss', (Node.evalProgram (callWithin depth) frame last (ss ++ ss')).exec store =
        (Node.evalProgram (callWithin depth) frame last' ss').exec after := by
  induction ss generalizing store last with
  | nil => exact ⟨last, store, by rw [Node.evalProgram, EvalM.exec_pure], fun _ => rfl⟩
  | cons s ss ih =>
    obtain ⟨outcome, hvalue, hsignal, hrest⟩ := h
    obtain ⟨last', after, hss, happend⟩ := ih hrest outcome
    have hexec : (s.eval (callWithin depth) frame).exec store =
        (.ok outcome, ((s.eval (callWithin depth) frame).exec store).2) := Prod.ext hvalue rfl
    refine ⟨last', after, ?_, fun ss' => ?_⟩
    · rw [Node.evalProgram, EvalM.exec_bind, hexec]
      simpa [hsignal] using hss
    · rw [List.cons_append, Node.evalProgram, EvalM.exec_bind, hexec]
      simpa [hsignal] using happend ss'

/-- The outcome before a statement has no influence on what comes behind it. -/
theorem evalProgram_cons_congr (call : CallRule) (frame : FrameId) (last last' : Value) (s : Node)
    (ss : List Node) :
    Node.evalProgram call frame last (s :: ss) = Node.evalProgram call frame last' (s :: ss) := by
  rw [Node.evalProgram, Node.evalProgram]

theorem readProgram_of_parse {source : String} (h : (parse source.toList).diagnostics = []) :
    readProgram source = .ok (parse source.toList).program := by
  simp [readProgram, read, refusalOf, h]

/-- A program without diagnostics is evaluated. -/
theorem interpret_of_parse {source : String} {ss : List Node} (depth : Nat) (frame : FrameId)
    (store : Store) (h : parse source.toList = ⟨.program ss, []⟩) :
    interpret depth frame source store =
      match (Node.evalProgram (callWithin depth) frame .nothing ss).exec store with
      | (.ok value, after) => (.value value, after)
      | (.error fault, after) => (.faulted fault, after) := by
  have hread : readProgram source = .ok (.program ss) := by
    rw [readProgram_of_parse (by rw [h]), h]
  have heval : (Node.program ss).eval (callWithin depth) frame =
      Node.evalProgram (callWithin depth) frame .nothing ss := by
    rw [Node.eval]
  rcases hend : (Node.evalProgram (callWithin depth) frame .nothing ss).exec store with
    ⟨fault | value, after⟩ <;>
    simp only [interpret, hread, heval, hend]

/-- **Splitting a program is transparent.**  A text without diagnostics that ends with a semicolon
outside of all brackets may be read on its own: the text behind it then adds its statements and its
diagnostics, and the evaluation of the whole is that of the parts, one after the other. -/
theorem program_splits {first second : String} (hread : (parse first.toList).diagnostics = [])
    (hlast : (scan first.toList).getLast?.map Token.kind = some .semicolon)
    (hdepth : Console.openDepth first.toList = 0) :
    ∃ ss ss', parse first.toList = ⟨.program ss, []⟩ ∧
      (parse second.toList).program = .program ss' ∧
      parse (first ++ second).toList =
        ⟨.program (ss ++ ss'), (parse second.toList).diagnostics⟩ ∧
      ∀ depth frame store, (parse second.toList).diagnostics = [] → ss' ≠ [] →
        RunsThrough depth frame ss store →
          interpret depth frame (first ++ second) store =
            interpret depth frame second (interpret depth frame first store).2 := by
  have hsemicolon : (scan first.toList).getLast? = some (.sign .semicolon) := by
    obtain ⟨t, ht, hkind⟩ := Option.map_eq_some_iff.1 hlast
    have hlexeme := isLexeme_of_mem_scan (List.mem_of_getLast? ht)
    rw [ht, hlexeme.eq_sign (by rw [hkind]; decide), hkind]
  have hterminated : Terminated (scan first.toList) :=
    ⟨lexical_scan _, hsemicolon, hdepth⟩
  have hfirst : parse first.toList = ⟨.program (statementsIn (scan first.toList)).1, []⟩ := by
    rw [parse, parseTokens_eq] at hread ⊢
    simp only at hread
    rw [hread]
  have hsecond := parseTokens_eq (scan second.toList)
  have hwhole : parse (first ++ second).toList = ⟨.program ((statementsIn (scan first.toList)).1 ++
      (statementsIn (scan second.toList)).1), (parse second.toList).diagnostics⟩ := by
    have hnone : (statementsIn (scan first.toList)).2 = [] := by
      rwa [parse, parseTokens_eq] at hread
    rw [String.toList_append, parse, scan_append_of_getLast? hsemicolon, parseTokens_eq,
      statementsIn_append (.inr hterminated) hnone, parse, hsecond]
  refine ⟨_, _, hfirst, congrArg Parsed.program hsecond, hwhole, ?_⟩
  intro depth frame store hmore hne hruns
  obtain ⟨last, after, hparts, happend⟩ := exec_evalProgram_append hruns .nothing
  obtain ⟨s, ss, hcons⟩ := List.exists_cons_of_ne_nil hne
  rw [hmore, hcons] at hwhole
  have hsecond' : parse second.toList = ⟨.program (s :: ss), []⟩ := by
    rw [parse, hsecond] at hmore ⊢
    simp only at hmore
    rw [hmore, hcons]
  rw [interpret_of_parse depth frame store hwhole, interpret_of_parse depth frame store hfirst,
    hparts, interpret_of_parse depth frame after hsecond', happend,
    evalProgram_cons_congr _ frame last .nothing]

/-- A binding that is made by the first part is there for the second, which may be evaluated by
itself or behind it. -/
theorem program_splits_let :
    let first := "let a = true;"
    let second := "!a"
    let ss := [.letStatement (.sign .let) (.ofName "a") (.boolean (.sign .true) true)]
    let ss' := [.expressionStatement (.sign .bang)
      (.unary (.sign .bang) "!" (.identifier (.ofName "a")))]
    let bound := Store.initial.bind Store.global "a" (.boolean true)
    (parse first.toList).diagnostics = [] ∧
      (scan first.toList).getLast?.map Token.kind = some .semicolon ∧
      Console.openDepth first.toList = 0 ∧ RunsThrough 1 Store.global ss .initial ∧
      parse (first ++ second).toList = ⟨.program (ss ++ ss'), []⟩ ∧
      interpret 1 Store.global first .initial = (.value .nothing, bound) ∧
      interpret 1 Store.global second bound = (.value (.boolean false), bound) ∧
      interpret 1 Store.global (first ++ second) .initial = (.value (.boolean false), bound) := by
  intro first second ss ss' bound
  have hread : (parse first.toList).diagnostics = [] := by decide +kernel
  have hlast : (scan first.toList).getLast?.map Token.kind = some .semicolon := by decide +kernel
  have hdepth : Console.openDepth first.toList = 0 := by decide +kernel
  have hfirst : (parse first.toList).program = .program ss := by decide +kernel
  have hsecond : parse second.toList = ⟨.program ss', []⟩ :=
    Parsed.ext (by decide +kernel) (by decide +kernel)
  have hruns : RunsThrough 1 Store.global ss .initial := ⟨.nothing, rfl, rfl, trivial⟩
  have hbound : interpret 1 Store.global first .initial = (.value .nothing, bound) :=
    interpret_of_parse 1 Store.global .initial (Parsed.ext hfirst hread)
  have hused : interpret 1 Store.global second bound = (.value (.boolean false), bound) :=
    (interpret_of_parse 1 Store.global bound hsecond).trans (by with_unfolding_all rfl)
  obtain ⟨_, _, hss, hss', hwhole, hsplits⟩ := @program_splits _ second hread hlast hdepth
  obtain rfl : ss = _ := Node.program.inj (hfirst.symm.trans (congrArg Parsed.program hss))
  obtain rfl : ss' = _ := Node.program.inj ((congrArg Parsed.program hsecond).symm.trans hss')
  refine ⟨hread, hlast, hdepth, hruns, ?_, hbound, hused, ?_⟩
  · rw [hwhole, hsecond]
  · rw [hsplits 1 Store.global .initial (by rw [hsecond]) (by simp [ss']) hruns, hbound, hused]

end MonkeyLang
