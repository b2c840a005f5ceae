import MonkeyLang.Proofs.Breakdown
import MonkeyLang.Proofs.Growth

/-!
# Commands do not interfere

An event is *idle* if it is an interrupt, a blank entry, or a command other than `/reset`, known or
unknown.  Idle events leave the store alone and change at most what is switched on
(`Console.step_of_isIdle`).  Other events do the same whatever is switched on, but for the tree in
front of the outcome of an entry and the trace behind it (`Console.step_plain`).

So a session that does not break off goes on without its idle events like the session itself.
`commands_do_not_interfere` compares the two sessions moment by moment, and says of each moment what
becomes of the store.
-/

namespace MonkeyLang

namespace Console

/-! ### What an evaluation does -/

/-- The console with everything switched off that can be. -/
def plain (console : Console) : Console := ⟨console.store, false, false⟩

/-- What is shown behind an outcome: the trace of a fault. -/
def traceOf (console : Console) : Outcome → String
  | .faulted fault => if reports fault && console.showsTrace then "\nPython traceback:\n" else ""
  | _ => ""

/-- What is shown behind the outcome of an entry. -/
def traceText (host : Host) (console : Console) (source : String) : String :=
  console.traceOf (host.interpret Store.global source console.store.forgetOutput).1

/-- What is switched on makes no difference to what is shown of an outcome, but for the trace. -/
theorem conclude_plain (host : Host) (console : Console) (tree shown : String)
    (outcome : Outcome) :
    let step := console.plain.conclude host shown outcome
    console.conclude host (tree ++ shown) outcome = ⟨⟨tree ++ step.transcript.out,
      step.transcript.err ++ console.traceOf outcome⟩, console, step.breakdown⟩ := by
  cases outcome with
  | refused refusal | malformed diagnostics => simp [conclude, traceOf, Transcript.output]
  | faulted fault =>
    cases hreported : reports fault <;>
      simp [conclude, traceOf, hreported, faultText, plain, Transcript.output]
  | value value =>
    cases hline : host.line value <;>
      simp [conclude, traceOf, hline, Transcript.output, String.append_assoc]

/-- What is switched on makes no difference to the outcome of an entry and to the store.  It only
adds the tree in front of the outcome and the trace behind it. -/
theorem evaluate_plain {host : Host} {console : Console} {source tree : String}
    (htree : console.treeText host source = .ok tree) :
    let step := console.plain.evaluate host source
    (console.evaluate host source).transcript = ⟨tree ++ step.transcript.out,
        step.transcript.err ++ console.traceText host source⟩ ∧
      step.after = (console.evaluate host source).after.plain ∧
      (console.evaluate host source).breakdown = step.breakdown := by
  intro step
  have hnone : console.plain.treeText host source = .ok "" := rfl
  -- the run is the same for both consoles, and only what is shown of its end differs
  set store := (host.interpret Store.global source console.store.forgetOutput).2
  set outcome := (host.interpret Store.global source console.store.forgetOutput).1
  let after : Console := { console with store := store.forgetOutput }
  have hplain : step = after.plain.conclude host store.printed outcome := by
    simp only [step, evaluate, hnone, String.empty_append]
    rfl
  have hfull : console.evaluate host source = after.conclude host (tree ++ store.printed) outcome := by
    simp only [evaluate, htree]
    rfl
  rw [hfull, conclude_plain, ← hplain]
  refine ⟨rfl, ?_, rfl⟩
  rw [hplain, conclude_after]

namespace IsClean

variable {text : List Char}

theorem host_interpret_store (h : IsClean text) (host : Host) (frame : FrameId) (store : Store) :
    (host.interpret frame (String.ofList text) store).2 =
      if host.canRead (String.ofList text) ∧ (parse text).diagnostics = [] then
        (((parse text).program.eval (callWithin host.callDepth) frame).exec store).2
      else store := by
  rw [Host.interpret, h.interpret_eq]
  by_cases hread : host.canRead (String.ofList text)
  · by_cases hsound : (parse text).diagnostics = []
    · rw [if_pos hread, if_pos hsound, if_pos ⟨hread, hsound⟩]
      rcases ((parse text).program.eval (callWithin host.callDepth) frame).exec store with
        ⟨_ | _, _⟩ <;> rfl
    · rw [if_pos hread, if_neg hsound, if_neg fun h => hsound h.2]
  · rw [if_neg hread, if_neg fun h => hread h.1]

/-- A clean text that is no program with a statement changes nothing. -/
theorem exec_of_not_isProgram (hprogram : ¬ IsProgram text) (hsound : (parse text).diagnostics = [])
    (depth : Nat) (frame : FrameId) (store : Store) :
    (((parse text).program.eval (callWithin depth) frame).exec store).2 = store := by
  cases hstatements : (statementsIn (scan text)).1 with
  | nil =>
    have hparse : (parse text).program = .program [] := by
      rw [parse, parseTokens_eq, hstatements]
    rw [hparse]
    rfl
  | cons first others =>
    exact absurd ⟨hsound, first, others, by rw [parse, parseTokens_eq, hstatements]⟩ hprogram

end IsClean

/-! ### Moments -/

namespace Moment

/-- The syntax tree that a moment shows in front of the outcome of its entry. -/
def treeText (host : Host) (moment : Moment) : String :=
  match moment.event.request? with
  | some (.evaluation source) =>
    (moment.before.treeText host (String.ofList source)).toOption.getD ""
  | _ => ""

/-- The trace that a moment shows behind the outcome of its entry. -/
def traceText (host : Host) (moment : Moment) : String :=
  match moment.event.request? with
  | some (.evaluation source) => moment.before.traceText host (String.ofList source)
  | _ => ""

/-- The first moment shows what the second one does, with a tree in front and a trace behind, and
leaves the same store. -/
structure SameEffect (host : Host) (moment other : Moment) : Prop where
  event : other.event = moment.event
  store : other.step.after.store = moment.step.after.store
  transcript : moment.step.transcript = ⟨moment.treeText host ++ other.step.transcript.out,
    other.step.transcript.err ++ moment.traceText host⟩

/-- A moment does with the store what the text that is submitted at it says. -/
structure IsFaithful (host : Host) (moment : Moment) : Prop where
  /-- A program that there is room to read is evaluated, once. -/
  program : ∀ text, moment.event.text? = some text → host.canRead (String.ofList text) →
    IsProgram text → request text = .evaluation text ∧
      moment.step = moment.before.evaluate host (String.ofList text) ∧
      moment.step.after.store = (((parse text).program.eval (callWithin host.callDepth)
        Store.global).exec moment.before.store).2.forgetOutput
  /-- Without such a program, nothing is evaluated. -/
  other : (∀ text, moment.event.text? = some text → host.canRead (String.ofList text) →
    ¬ IsProgram text) → moment.event.resets = false →
      moment.step.after.store = moment.before.store
  /-- `/reset` starts again. -/
  reset : moment.event.resets = true → moment.step.after.store = .initial
  /-- Nothing else takes bindings away. -/
  keeps : moment.event.resets = false → ∀ frame,
    Assoc.keys (moment.before.store.bindings frame) ⊆
      Assoc.keys (moment.step.after.store.bindings frame)

end Moment

variable {host : Host} {console : Console} {event : Event}

theorem plain_step_of_isIdle (hidle : event.isIdle) (host : Host) (console : Console) :
    (console.step host event).after.plain = console.plain := by
  rw [plain, (step_of_isIdle hidle host console).2, plain]

/-- What an event does that is not idle does not depend on what is switched on. -/
theorem step_plain (hclean : event.IsClean) (hidle : event.isIdle = false)
    (hgoes : (console.step host event).breakdown = none) :
    (console.plain.step host event).breakdown = none ∧
      (console.plain.step host event).after = (console.step host event).after.plain ∧
      Moment.SameEffect host ⟨event, console, console.step host event⟩
        ⟨event, console.plain, console.plain.step host event⟩ := by
  rcases Event.cases_of_not_isIdle hclean hidle with ⟨word, argument, hasked⟩ | ⟨text, htext, hr⟩
  · rw [step_of_request hasked, step_of_request hasked]
    refine ⟨rfl, rfl, rfl, rfl, ?_⟩
    simp [Moment.treeText, Moment.traceText, hasked, answer, obey, Transcript.output]
  · have hasked : event.request? = some (.evaluation text) := by
      rw [Event.request?_of_text htext, hr]
    rw [step_of_request hasked, Console.answer] at hgoes ⊢
    rw [step_of_request hasked, Console.answer]
    cases htree : console.treeText host (String.ofList text) with
    | error breakdown => simp [evaluate, htree] at hgoes
    | ok tree =>
      obtain ⟨hshown, hafter, hbreakdown⟩ := evaluate_plain htree
      refine ⟨hbreakdown ▸ hgoes, hafter, rfl, (congrArg Console.store hafter :), ?_⟩
      simp only [Moment.treeText, Moment.traceText, hasked, htree]
      exact hshown

namespace Moment.IsFaithful

variable {step : Step}

/-- Without a program and a reset the store must stay as it is. -/
theorem of_store_eq (hprogram : ∀ text, event.text? = some text → ¬ IsProgram text)
    (hresets : event.resets = false) (hstore : step.after.store = console.store) :
    IsFaithful host ⟨event, console, step⟩ where
  program text htext _ h := absurd h (hprogram text htext)
  other _ _ := hstore
  reset h := absurd h (by simp [hresets])
  keeps _ frame := by
    change _ ⊆ Assoc.keys (step.after.store.bindings frame)
    rw [hstore]
    exact List.Subset.refl _

/-- With a reset it must be the store at the start. -/
theorem of_reset (hprogram : ∀ text, event.text? = some text → ¬ IsProgram text)
    (hresets : event.resets = true) (hstore : step.after.store = .initial) :
    IsFaithful host ⟨event, console, step⟩ where
  program text htext _ h := absurd h (hprogram text htext)
  other _ h := absurd hresets (by simp [h])
  reset _ := hstore
  keeps h := absurd hresets (by simp [h])

/-- With an evaluation it must be the store that this leaves. -/
theorem of_evaluation {text : List Char} (hclean : Console.IsClean text)
    (htext : event.text? = some text) (hrequest : request text = .evaluation text)
    (hquiet : console.store.forgetOutput = console.store)
    (hstep : step = console.evaluate host (String.ofList text)) (hgoes : step.breakdown = none) :
    IsFaithful host ⟨event, console, step⟩ := by
  have hasked : event.request? = some (.evaluation text) := by
    rw [Event.request?_of_text htext, hrequest]
  have hresets : event.resets = false := by rw [Event.resets, hasked]; rfl
  obtain ⟨tree, htree⟩ : ∃ tree, console.treeText host (String.ofList text) = .ok tree := by
    cases htree : console.treeText host (String.ofList text) with
    | error breakdown => simp [hstep, evaluate, htree] at hgoes
    | ok tree => exact ⟨tree, rfl⟩
  have hstore : step.after.store =
      (host.interpret Store.global (String.ofList text) console.store).2.forgetOutput := by
    rw [hstep, evaluate_store_of_tree htree, hquiet]
  rw [hclean.host_interpret_store] at hstore
  refine ⟨?_, ?_, fun h => absurd h (by simp [hresets]), ?_⟩
  · intro t ht hread hprogram
    obtain rfl : text = t := by simpa [htext] using ht
    exact ⟨hrequest, hstep, by rw [hstore, if_pos ⟨hread, hprogram.sound⟩]⟩
  · intro hprogram _
    rw [hstore]
    split
    · next hread =>
      rw [IsClean.exec_of_not_isProgram (hprogram text htext hread.1) hread.2, hquiet]
    · exact hquiet
  · intro _ frame
    change _ ⊆ Assoc.keys (step.after.store.bindings frame)
    rw [hstore]
    split
    · exact (Node.eval_grows (callWithin_grows host.callDepth) Store.global _
        console.store).keys_subset frame
    · exact List.Subset.refl _

end Moment.IsFaithful

/-- Whatever the event, its step does with the store what it should. -/
theorem isFaithful_of_step (hclean : event.IsClean) (hconsole : console.IsSettled)
    (hgoes : (console.step host event).breakdown = none) :
    Moment.IsFaithful host ⟨event, console, console.step host event⟩ := by
  by_cases hidle : event.isIdle
  · exact .of_store_eq (Event.not_isProgram hclean (Event.request?_ne_evaluation hidle))
      (Event.resets_of_isIdle hidle)
      (step_of_isIdle hidle host console).2
  rcases Event.cases_of_not_isIdle hclean (by simpa using hidle) with
    ⟨word, argument, hasked⟩ | ⟨text, htext, hr⟩
  · refine .of_reset (Event.not_isProgram hclean (by simp [hasked]))
      (by simp [Event.resets, hasked, Request.resets]) ?_
    rw [step_of_request hasked]
    rfl
  · have hasked : event.request? = some (.evaluation text) := by
      rw [Event.request?_of_text htext, hr]
    exact .of_evaluation (hclean text htext) htext hr hconsole.quiet
      (step_of_request hasked host console) hgoes

/-! ### Sessions -/

/-- A session goes on in the same way without its idle events. -/
theorem moments_plain {events : List Event} (hclean : ∀ event ∈ events, event.IsClean)
    (hconsole : console.IsSettled)
    (hroom : ∀ moment ∈ console.moments host events, moment.HasRoom host) :
    let full := console.moments host events
    let kept := console.plain.moments host (events.filter (!·.isIdle))
    full.map Moment.event = events ∧ (∀ moment ∈ full, moment.IsFaithful host) ∧
      List.Forall₂ (Moment.SameEffect host) (full.filter (!·.event.isIdle)) kept ∧
      (∀ moment ∈ full, moment.step.breakdown = none) ∧
      ∀ moment ∈ kept, moment.step.breakdown = none := by
  -- both sessions at once: the consoles differ in what is switched on only, since the second one
  -- passes over the events that could change more than that
  induction events generalizing console with
  | nil => exact ⟨rfl, by simp [moments], .nil, by simp [moments], by simp [moments]⟩
  | cons event events ih =>
    obtain ⟨hevent, hevents⟩ := List.forall_mem_cons.1 hclean
    have hgoes : (console.step host event).breakdown = none := by
      refine (hasRoom_iff hevent hconsole).1 (hroom _ ?_)
      rw [moments]
      split <;> exact List.mem_cons_self
    have hfaithful := isFaithful_of_step hevent hconsole hgoes
    rw [moments_cons hgoes] at hroom ⊢
    obtain ⟨hmap, hall, hsame, hfull, hkept⟩ :=
      ih hevents (hconsole.step event) (List.forall_mem_cons.1 hroom).2
    refine ⟨congrArg (event :: ·) hmap, List.forall_mem_cons.2 ⟨hfaithful, hall⟩, ?_⟩
    by_cases hidle : event.isIdle
    · rw [List.filter_cons_of_neg (by simp [hidle]), List.filter_cons_of_neg (by simp [hidle]),
        ← plain_step_of_isIdle hidle host console]
      exact ⟨hsame, List.forall_mem_cons.2 ⟨hgoes, hfull⟩, hkept⟩
    · have hidle : event.isIdle = false := by simpa using hidle
      obtain ⟨hother, hafter, heffect⟩ := step_plain hevent hidle hgoes
      rw [List.filter_cons_of_pos (by simp [hidle]), List.filter_cons_of_pos (by simp [hidle]),
        moments_cons hother, hafter]
      exact ⟨.cons heffect hsame, List.forall_mem_cons.2 ⟨hgoes, hfull⟩,
        List.forall_mem_cons.2 ⟨hother, hkept⟩⟩

end Console

open Console

/-- **Commands do not interfere.**  Let there be room on the host for the trees and the values that
a session of clean texts shows.  Then every event does with the store what it should, programs are
evaluated once and in order, and the session without its idle events makes the same steps and leaves
the same stores, but for the trees and the traces that are shown. -/
theorem commands_do_not_interfere (host : Host) (events : List Event)
    (hclean : ∀ event ∈ events, event.IsClean)
    (hroom : ∀ moment ∈ initial.moments host events, moment.HasRoom host) :
    let full := initial.moments host events
    let kept := initial.moments host (events.filter (!·.isIdle))
    initial.run host events = (full.map (·.step.transcript) ++ [farewell], none) ∧
      initial.run host (events.filter (!·.isIdle)) =
        (kept.map (·.step.transcript) ++ [farewell], none) ∧
      full.map Moment.event = events ∧
      (∀ moment ∈ full, moment.IsFaithful host) ∧
      List.Forall₂ (Moment.SameEffect host) (full.filter (!·.event.isIdle)) kept := by
  obtain ⟨hmap, hall, hsame, hfull, hkept⟩ := moments_plain hclean initial_isSettled hroom
  exact ⟨run_of_unbroken hfull, run_of_unbroken hkept, hmap, hall, hsame⟩

/-- A program that binds a name, every kind of idle event, and a program that uses the name. -/
theorem commands_do_not_interfere_session :
    let events : List Event := [.submitted "let a = 1;".toList, .submitted "/ast on".toList,
      .interrupted, .submitted "  ".toList, .submitted "/at".toList, .submitted "a".toList]
    let full := initial.moments .usual events
    let kept := initial.moments .usual (events.filter (!·.isIdle))
    (∀ event ∈ events, event.IsClean) ∧ (∀ moment ∈ full, moment.HasRoom .usual) ∧
      full.map (·.step.transcript) = [.empty, .output "AST dump: on\n",
        .output "KeyboardInterrupt\n", .empty, .errors "Unknown command: /at\n",
        .output "program\n  expression_statement\n    identifier\ta\n1\n"] ∧
      initial.run .usual (events.filter (!·.isIdle)) =
        ([.empty, .output "1\n", farewell], none) ∧
      (∀ moment ∈ full, moment.IsFaithful .usual) ∧
      List.Forall₂ (Moment.SameEffect .usual) (full.filter (!·.event.isIdle)) kept := by
  intro events full kept
  have hclean : ∀ event ∈ events, event.IsClean := by decide +kernel
  have hroom : ∀ moment ∈ full, moment.HasRoom .usual :=
    (run_breakdown_eq_none_iff hclean initial_isSettled).1 (by decide +kernel)
  obtain ⟨-, hkept, -, hall, hsame⟩ := commands_do_not_interfere .usual events hclean hroom
  refine ⟨hclean, hroom, by decide +kernel, ?_, hall, hsame⟩
  rw [hkept]
  decide +kernel

/-- Without room for the tree of an entry, `/ast` ends a session that goes on without it; without
room for a value, no command is needed for that. -/
theorem session_ends_without_room :
    let host := Host.ofNesting 4
    let sums : List Event :=
      [.submitted "/ast on".toList, .submitted "1 + 2 + 3".toList, .submitted "4".toList]
    let lists : List Event := [.submitted "[[[[[1]]]]]".toList, .submitted "4".toList]
    (∀ event ∈ sums, event.IsClean) ∧ (∀ event ∈ lists, event.IsClean) ∧
      initial.run host sums =
        ([.output "AST dump: on\n", .empty], some (.faulted .depthExceeded)) ∧
      initial.run host (sums.filter (!·.isIdle)) =
        ([.output "6\n", .output "4\n", farewell], none) ∧
      initial.run host lists = ([.empty], some (.faulted .depthExceeded)) := by
  decide +kernel

end MonkeyLang
