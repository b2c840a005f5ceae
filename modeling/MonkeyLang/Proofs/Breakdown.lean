import MonkeyLang.Proofs.Entry
import MonkeyLang.Proofs.Session

/-!
# When a session breaks off

The console reports the faults of an evaluation, and programs have no others than the lack of room
for their calls.  It does not report a lack of room for a tree or a value that it shows.  A session
of clean texts breaks off at the first moment without such room, and nowhere else
(`Console.run_breakdown_eq_none_iff`).

* `Host.HasRoomForTree` and `Host.HasRoomForValue` say what there has to be room for;
* `Event.cases_of_not_isIdle` sorts events by what they ask for;
* `Console.moments` is a session as a list, each step with the event and the console before it.
-/

namespace MonkeyLang

/-! ### Room -/

namespace Host

variable (host : Host)

/-- There is room to read a text and to lay its syntax tree out. -/
@[mk_iff]
structure HasRoomForTree (text : List Char) : Prop where
  read : host.canRead (String.ofList text)
  layout : (parse text).diagnostics = [] → ∀ outline, (parse text).program.outline? = some outline →
    (host.layout outline).isSome

/-- There is room to show a value, or there is nothing to show. -/
def HasRoomForValue (value : Value) : Prop :=
  value = .nothing ∨ host.canShow value

theorem exists_pretty_iff (node : Node) : (∃ tree, host.pretty node = .ok tree) ↔
    ∀ outline, node.outline? = some outline → (host.layout outline).isSome := by
  unfold pretty
  cases node.outline? with
  | none => simp
  | some outline => cases hlayout : host.layout outline <;> simp [hlayout]

/-- A value with a text is shown if there is room for it. -/
theorem exists_line_iff {value : Value} (h : value = .nothing ∨ value.obstacle? = none) :
    (∃ line, host.line value = .ok line) ↔ host.HasRoomForValue value := by
  by_cases hnothing : value = .nothing
  · subst hnothing
    simp [line, HasRoomForValue]
  · have hline : host.line value = if host.canShow value then .ok (value.display ++ "\n")
        else .error (.faulted .depthExceeded) := by
      unfold line
      split
      · contradiction
      · rw [h.resolve_left hnothing]
    rw [hline, HasRoomForValue]
    cases host.canShow value <;> simp [hnothing]

end Host

namespace Console

namespace IsClean

variable {text : List Char}

/-- A clean text is evaluated unless it leaves a diagnostic. -/
theorem interpret_eq (h : IsClean text) (depth : Nat) (frame : FrameId) (store : Store) :
    interpret depth frame (String.ofList text) store =
      if (parse text).diagnostics = [] then
        match ((parse text).program.eval (callWithin depth) frame).exec store with
        | (.ok value, store) => (.value value, store)
        | (.error fault, store) => (.faulted fault, store)
      else (.malformed (parse text).diagnostics, store) := by
  by_cases hsound : (parse text).diagnostics = []
  · have hread : readProgram (String.ofList text) = .ok (parse text).program := by
      rw [h.readProgram_eq, if_pos hsound]
    rw [if_pos hsound]
    rcases hend : ((parse text).program.eval (callWithin depth) frame).exec store with
      ⟨fault | value, after⟩ <;> simp only [interpret, hread, hend]
  · simp only [interpret, h.readProgram_eq, if_neg hsound]

/-- What can become of a clean text in a session. -/
theorem host_interpret_cases (h : IsClean text) (host : Host) {store : Store}
    (hstore : store.InSession) {outcome : Outcome}
    (hend : (host.interpret Store.global (String.ofList text) store).1 = outcome) :
    (∃ diagnostics, outcome = .malformed diagnostics) ∨ outcome = .faulted .depthExceeded ∨
      ∃ value, outcome = .value value ∧ (value = .nothing ∨ value.obstacle? = none) := by
  subst hend
  rw [Host.interpret, h.interpret_eq]
  split
  · split
    · have hmaintains := (Regime.presence_guards host.callDepth Store.global
        (Regime.presence_suits_parse text)).maintains
      have hresult := (hmaintains store (Regime.presence_governs_iff.2 hstore.isSound.holds)).2
      rcases hexec : ((parse text).program.eval (callWithin host.callDepth) Store.global).exec store
        with ⟨fault | value, after⟩ <;> rw [hexec] at hresult
      · exact .inr (.inl (congrArg Outcome.faulted hresult))
      · exact .inr (.inr ⟨value, rfl, (Regime.presence_result hresult).imp And.left
          value.obstacle?_eq_none⟩)
    · exact .inl ⟨_, rfl⟩
  · exact .inr (.inl rfl)

/-- The tree of a clean text is shown, if trees are shown at all, as far as there is room. -/
theorem exists_treeText_iff (h : IsClean text) (host : Host) (console : Console) :
    (∃ tree, console.treeText host (String.ofList text) = .ok tree) ↔
      (console.showsTree → host.HasRoomForTree text) := by
  unfold treeText
  cases console.showsTree
  · simp
  by_cases hread : host.canRead (String.ofList text)
  · by_cases hsound : (parse text).diagnostics = []
    · simp [Host.readProgram, h.readProgram_eq, hread, hsound, Host.exists_pretty_iff,
        Host.hasRoomForTree_iff]
    · simp [Host.readProgram, h.readProgram_eq, hread, hsound, Host.hasRoomForTree_iff]
  · simp [Host.readProgram, hread, Host.hasRoomForTree_iff]

end IsClean

/-- A session goes on behind a clean entry if there is room for its tree and for its value. -/
theorem evaluate_breakdown_eq_none_iff {text : List Char} (hclean : IsClean text) (host : Host)
    {console : Console} (hstore : console.store.InSession) :
    (console.evaluate host (String.ofList text)).breakdown = none ↔
      (console.showsTree → host.HasRoomForTree text) ∧
      ∀ value, (host.interpret Store.global (String.ofList text) console.store.forgetOutput).1 =
        .value value → host.HasRoomForValue value := by
  rw [← hclean.exists_treeText_iff host console]
  cases htree : console.treeText host (String.ofList text) with
  | error breakdown => simp [evaluate, htree]
  | ok tree =>
    rcases hend : host.interpret Store.global (String.ofList text) console.store.forgetOutput with
      ⟨outcome, store⟩
    rcases hclean.host_interpret_cases host hstore.forgetOutput (congrArg Prod.fst hend) with
      ⟨diagnostics, rfl⟩ | rfl | ⟨value, rfl, hshown⟩
    · simp [evaluate, htree, hend, conclude]
    · simp [evaluate, htree, hend, conclude, reports]
    · simp only [Except.ok.injEq, exists_eq', true_and, Outcome.value.injEq, forall_eq']
      rw [← host.exists_line_iff hshown]
      cases hline : host.line value <;> simp [evaluate, htree, hend, conclude, hline]

/-! ### Events -/

namespace Request

/-- Tells whether a request neither evaluates anything nor resets the store. -/
def isIdle : Request → Bool
  | .evaluation _ | .command (some .reset) _ _ => false
  | _ => true

/-- Tells whether a request resets the store. -/
def resets : Request → Bool
  | .command (some .reset) _ _ => true
  | _ => false

theorem resets_of_isIdle {request : Request} (h : request.isIdle) : request.resets = false := by
  unfold resets
  split
  · cases h
  · rfl

/-- A request that is not idle is a reset or an evaluation. -/
theorem eq_of_not_isIdle {request : Request} (h : request.isIdle = false) :
    (∃ word argument, request = .command (some .reset) word argument) ∨
      ∃ source, request = .evaluation source := by
  cases request with
  | nothing => cases h
  | evaluation source => exact .inr ⟨source, rfl⟩
  | command command word argument =>
    rcases command with _ | (_ | _ | _ | _)
    case some.reset => exact .inl ⟨word, argument, rfl⟩
    all_goals cases h

end Request

/-- What is evaluated is the clean text itself. -/
theorem IsClean.eq_of_request {text source : List Char} (hclean : IsClean text)
    (h : request text = .evaluation source) : source = text := by
  rw [request, hclean.normalize_eq] at h
  split at h
  · cases h
  · split at h <;> cases h
    rfl

namespace Event

/-- The text that is submitted by an event. -/
def text? : Event → Option (List Char)
  | .submitted text => some text
  | .interrupted => none

/-- What is asked for by an event. -/
def request? (event : Event) : Option Request :=
  event.text?.map request

/-- Tells whether an event is an interrupt, a blank entry, or a command other than `/reset`. -/
def isIdle (event : Event) : Bool :=
  event.request?.all Request.isIdle

/-- Tells whether an event resets the store. -/
def resets (event : Event) : Bool :=
  event.request?.any Request.resets

/-- What is submitted by an event is a clean text. -/
def IsClean (event : Event) : Prop :=
  ∀ text, event.text? = some text → Console.IsClean text

instance (event : Event) : Decidable event.IsClean :=
  inferInstanceAs (Decidable (∀ text ∈ event.text?, Console.IsClean text))

variable {event : Event}

theorem request?_of_text {text : List Char} (h : event.text? = some text) :
    event.request? = some (request text) := by
  rw [request?, h]
  rfl

theorem isIdle_of_request {request : Request} (h : event.request? = some request) :
    event.isIdle = request.isIdle := by
  rw [isIdle, h, Option.all_some]

theorem resets_of_isIdle (h : event.isIdle) : event.resets = false := by
  cases hasked : event.request? with
  | none => rw [resets, hasked, Option.any_none]
  | some request =>
    rw [isIdle_of_request hasked] at h
    rw [resets, hasked, Option.any_some, Request.resets_of_isIdle h]

theorem request?_ne_evaluation (h : event.isIdle) (source : List Char) :
    event.request? ≠ some (.evaluation source) := by
  intro hasked
  rw [isIdle_of_request hasked] at h
  cases h

/-- An event that is not idle resets the store, or submits a text that is evaluated as it stands. -/
theorem cases_of_not_isIdle (hclean : event.IsClean) (h : event.isIdle = false) :
    (∃ word argument, event.request? = some (.command (some .reset) word argument)) ∨
      ∃ text, event.text? = some text ∧ request text = .evaluation text := by
  cases htext : event.text? with
  | none => simp [isIdle, request?, htext] at h
  | some text =>
    have hasked := request?_of_text htext
    rw [isIdle_of_request hasked] at h
    rcases Request.eq_of_not_isIdle h with ⟨word, argument, hr⟩ | ⟨source, hr⟩
    · exact .inl ⟨word, argument, by rw [hasked, hr]⟩
    · obtain rfl := (hclean text htext).eq_of_request hr
      exact .inr ⟨source, rfl, hr⟩

/-- What is not evaluated is no program. -/
theorem not_isProgram (hclean : event.IsClean)
    (h : ∀ source, event.request? ≠ some (.evaluation source)) (text : List Char)
    (htext : event.text? = some text) : ¬ IsProgram text := by
  intro hprogram
  refine h text ?_
  rw [request?_of_text htext, request_of_isProgram (hclean text htext) hprogram]

end Event

theorem step_of_request {event : Event} {request : Request} (h : event.request? = some request)
    (host : Host) (console : Console) : console.step host event = console.answer host request := by
  cases event with
  | submitted text =>
    obtain rfl : Console.request text = request := by simpa [Event.request?, Event.text?] using h
    exact submit_eq host console text
  | interrupted => cases h

/-! ### Moments -/

theorem answer_of_isIdle {request : Request} (h : request.isIdle) (host : Host)
    (console : Console) : (console.answer host request).breakdown = none ∧
      (console.answer host request).after.store = console.store := by
  cases request with
  | nothing => exact ⟨rfl, rfl⟩
  | command command word argument =>
    cases command with
    | none => exact ⟨rfl, rfl⟩
    | some command =>
      refine ⟨rfl, obey_store ?_ argument⟩
      rintro rfl
      cases h
  | evaluation source => cases h

/-- An idle event leaves the store alone. -/
theorem step_of_isIdle {event : Event} (hidle : event.isIdle) (host : Host) (console : Console) :
    (console.step host event).breakdown = none ∧
      (console.step host event).after.store = console.store := by
  cases event with
  | interrupted => exact ⟨rfl, rfl⟩
  | submitted text =>
    have hasked : (Event.submitted text).request? = some (request text) := rfl
    rw [Event.isIdle_of_request hasked] at hidle
    rw [step_of_request hasked]
    exact answer_of_isIdle hidle host console

/-- An event of a session, the console before it, and the step that the console made. -/
structure Moment where
  event : Event
  before : Console
  step : Step

/-- The moments of a session, up to one that breaks it off. -/
def moments (host : Host) (console : Console) : List Event → List Moment
  | [] => []
  | event :: events =>
    let step := console.step host event
    match step.breakdown with
    | some _ => [⟨event, console, step⟩]
    | none => ⟨event, console, step⟩ :: step.after.moments host events

namespace Moment

/-- There is room for what a moment shows before and behind the evaluation: for the tree of its
entry, if trees are shown, and for the value of its entry. -/
structure HasRoom (host : Host) (moment : Moment) : Prop where
  tree : ∀ text, moment.event.request? = some (.evaluation text) → moment.before.showsTree →
    host.HasRoomForTree text
  value : ∀ text value, moment.event.request? = some (.evaluation text) →
    (host.interpret Store.global (String.ofList text) moment.before.store).1 = .value value →
      host.HasRoomForValue value

end Moment

/-- What holds of a console between two events. -/
structure IsSettled (console : Console) : Prop where
  /-- Nothing is left to be shown. -/
  quiet : console.store.forgetOutput = console.store
  inSession : console.store.InSession

theorem initial_isSettled : initial.IsSettled := ⟨rfl, .initial⟩

variable {host : Host} {console : Console} {event : Event}

theorem IsSettled.step (h : console.IsSettled) (event : Event) :
    (console.step host event).after.IsSettled := by
  refine ⟨?_, step_inSession h.inSession event⟩
  rcases step_store host console event with hkept | hreset | ⟨source, heval⟩
  · rw [hkept, h.quiet]
  · rw [hreset]
    rfl
  · rw [heval]
    rfl

/-- A session goes on behind a moment if and only if there is room for what it shows. -/
theorem hasRoom_iff (hclean : event.IsClean) (hconsole : console.IsSettled) :
    Moment.HasRoom host ⟨event, console, console.step host event⟩ ↔
      (console.step host event).breakdown = none := by
  by_cases hidle : event.isIdle
  · have hnone := Event.request?_ne_evaluation hidle
    refine iff_of_true ⟨?_, ?_⟩ (step_of_isIdle hidle host console).1
    · exact fun text htext => absurd htext (hnone text)
    · exact fun text _ htext => absurd htext (hnone text)
  rcases Event.cases_of_not_isIdle hclean (by simpa using hidle) with
    ⟨word, argument, hasked⟩ | ⟨text, htext, hr⟩
  · rw [step_of_request hasked]
    exact iff_of_true ⟨by simp [hasked], by simp [hasked]⟩ rfl
  · have hasked : event.request? = some (.evaluation text) := by
      rw [Event.request?_of_text htext, hr]
    have hiff := evaluate_breakdown_eq_none_iff (hclean text htext) host hconsole.inSession
    rw [hconsole.quiet] at hiff
    rw [step_of_request hasked, Console.answer, hiff]
    constructor
    · exact fun h => ⟨h.tree text hasked, fun value => h.value text value hasked⟩
    · rintro ⟨htree, hvalue⟩
      refine ⟨fun t ht => ?_, fun t value ht => ?_⟩
      · obtain rfl : text = t := by simpa [hasked] using ht
        exact htree
      · obtain rfl : text = t := by simpa [hasked] using ht
        exact hvalue value

/-! ### Sessions -/

theorem moments_cons (hgoes : (console.step host event).breakdown = none) (events : List Event) :
    console.moments host (event :: events) =
      ⟨event, console, console.step host event⟩ ::
        (console.step host event).after.moments host events := by
  rw [moments, hgoes]

theorem moments_cons_of_breakdown {breakdown : Breakdown}
    (hbreaks : (console.step host event).breakdown = some breakdown) (events : List Event) :
    console.moments host (event :: events) = [⟨event, console, console.step host event⟩] := by
  rw [moments, hbreaks]

/-- What is shown in a session that does not break off. -/
theorem run_of_unbroken {events : List Event}
    (h : ∀ moment ∈ console.moments host events, moment.step.breakdown = none) :
    console.run host events =
      ((console.moments host events).map (·.step.transcript) ++ [farewell], none) := by
  induction events generalizing console with
  | nil => rfl
  | cons event events ih =>
    cases hstep : (console.step host event).breakdown with
    | some breakdown =>
      rw [moments_cons_of_breakdown hstep] at h
      exact absurd (h _ (List.mem_singleton_self _)) (by simp [hstep])
    | none =>
      rw [moments_cons hstep] at h ⊢
      rw [run]
      dsimp only
      rw [hstep, ih (List.forall_mem_cons.1 h).2]
      rfl

/-- **When a session breaks off.**  A session of clean texts goes on to the end of the input if and
only if there is room for the trees and the values that its moments show. -/
theorem run_breakdown_eq_none_iff {events : List Event}
    (hclean : ∀ event ∈ events, event.IsClean) (hconsole : console.IsSettled) :
    (console.run host events).2 = none ↔
      ∀ moment ∈ console.moments host events, moment.HasRoom host := by
  induction events generalizing console with
  | nil => simp [run, moments]
  | cons event events ih =>
    obtain ⟨hevent, hevents⟩ := List.forall_mem_cons.1 hclean
    have hroom : Moment.HasRoom host ⟨event, console, console.step host event⟩ ↔ _ :=
      hasRoom_iff hevent hconsole
    cases hstep : (console.step host event).breakdown with
    | some breakdown =>
      rw [moments_cons_of_breakdown hstep, List.forall_mem_singleton, hroom]
      simp [run, hstep]
    | none =>
      rw [moments_cons hstep, List.forall_mem_cons, hroom, ← ih hevents (hconsole.step event)]
      simp [run, hstep]

end Console

end MonkeyLang
