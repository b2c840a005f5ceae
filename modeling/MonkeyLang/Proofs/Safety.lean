import MonkeyLang.Proofs.Abort
import MonkeyLang.Proofs.Regime
import MonkeyLang.Proofs.Whole

/-!
# Evaluation is safe

Blocks, `let` statements and programs may come to no value, and expressions may not.  That no
expression does is the invariant behind `Regime.presence`: no value is missing where one is bound,
passed, stored or carried out of a function, trees have parts of the right roles, and the bodies of
functions are blocks.  Every part of a bound value is then there (`Value.IsThere`), and every
function can be shown.

`evaluate_runsSafely` is the main statement, about programs that are read from texts and stores that
such programs lead to: no guard against missing values, zero divisors or positions outside of a list
ever stops the evaluation, and the only fault is that calls are nested too deep.
-/

namespace MonkeyLang

namespace Value

/-- A value that is not missing; a function has a block as its body, with parts of the right
roles. -/
def IsThere : Value → Prop
  | nothing => False
  | function _ _ body _ => body.role? = some .block ∧ body.WellPlaced
  | _ => True

/-- Tells whether this is a value and not the absence of one. -/
def isPresent : Value → Bool
  | nothing => false
  | _ => true

mutual

/-- What is there with all its parts can be shown. -/
theorem obstacle?_eq_none : (value : Value) → value.All IsThere → value.obstacle? = none
  | nothing, h => h.self.elim
  | array _ elements, h => firstObstacle?_eq_none elements fun _ hmem =>
    h.of_isPart (isPart_of_mem_components hmem)
  | hash _ entries, h => firstEntryObstacle?_eq_none entries fun entry hmem =>
    ⟨h.of_isPart (isPart_of_mem_components (mem_entryValues.2 ⟨entry, hmem, .inl rfl⟩)),
      h.of_isPart (isPart_of_mem_components (mem_entryValues.2 ⟨entry, hmem, .inr rfl⟩))⟩
  | function _ _ body _, h => by
    have hbody := h.self.1
    cases body with
    | block => rfl
    | _ => cases hbody
  | returned _ value, h =>
    obstacle?_eq_none value (h.of_isPart (isPart_of_mem_components List.mem_cons_self))
  | null, _ | integer _, _ | boolean _, _ | string .., _ | builtin _, _ | error .., _ => rfl

theorem firstObstacle?_eq_none : (values : List Value) → (∀ value ∈ values, value.All IsThere) →
    firstObstacle? values = none
  | [], _ => rfl
  | value :: values, h => by
    obtain ⟨hfirst, hrest⟩ := List.forall_mem_cons.1 h
    rw [firstObstacle?, obstacle?_eq_none value hfirst, firstObstacle?_eq_none values hrest]
    rfl

theorem firstEntryObstacle?_eq_none : (entries : List (HashKey × Value × Value)) →
    (∀ entry ∈ entries, entry.2.1.All IsThere ∧ entry.2.2.All IsThere) →
    firstEntryObstacle? entries = none
  | [], _ => rfl
  | (_, key, value) :: entries, h => by
    obtain ⟨⟨hkey, hvalue⟩, hrest⟩ := List.forall_mem_cons.1 h
    rw [firstEntryObstacle?, obstacle?_eq_none key hkey, obstacle?_eq_none value hvalue,
      firstEntryObstacle?_eq_none entries hrest]
    rfl

end

end Value

/-- The regime under which no value is missing. -/
def Regime.presence : Regime where
  seen _ := True
  good := Value.IsThere
  suits node := node.WellPlaced ∧ ∀ kind text, node ≠ .foreign kind text
  tolerates fault := fault = .depthExceeded
  allows use value := use = .outcome || value.isPresent
  good_plain value h := by cases value <;> trivial
  good_data value h := by cases value <;> trivial
  good_function _ _ _ _ _ h _ := Node.wellPlaced_iff.1 h.1 _ List.mem_cons_self
  suits_body _ _ _ _ h := ⟨h.2, by rintro kind text rfl; cases h.1⟩
  seen_scope _ _ _ _ _ := trivial
  places node h place hplace := by
    obtain ⟨hrole, hplaced⟩ := Node.wellPlaced_iff.1 h.1 place hplace
    refine ⟨hrole, hplaced, fun kind text hforeign => ?_⟩
    rw [hforeign] at hrole
    cases hrole
  settled _ _ _ _ _ _ _ _ := trivial
  deep := rfl
  foreign kind text h := absurd rfl (h.2 kind text)
  kindless := False.elim
  textless value obstacle h hobstacle := by
    rw [value.obstacle?_eq_none h] at hobstacle
    cases hobstacle
  allows_good use value h := by cases value <;> first | exact h.elim | simp [Value.isPresent]
  allows_nothing := rfl
  allows_returned _ _ := rfl

namespace Regime

/-- Every frame is seen: no value may be missing in any of them. -/
theorem presence_governs_iff {store : Store} :
    presence.Governs store ↔ store.Holds (Value.All Value.IsThere) :=
  governs_iff_holds fun _ => trivial

/-- Where no value is missing, values on their way out of a function are like others. -/
theorem presence_result {empty returns : Prop} {value : Value}
    (h : presence.Result empty returns value) :
    value = .nothing ∧ empty ∨ value.All Value.IsThere := by
  cases h with
  | good h => exact .inr h
  | nothing h => exact .inl ⟨rfl, h⟩
  | returned id _ hvalue => exact .inr (Value.all_iff.2 ⟨trivial, by simpa [Value.components]⟩)

/-- Texts are read as programs of the regime. -/
theorem presence_suits_parse (text : List Char) : presence.suits (parse text).program := by
  refine ⟨parse_wellPlaced text, fun kind word hforeign => ?_⟩
  obtain ⟨statements, hprogram, -⟩ := exists_formed_program text
  rw [hprogram] at hforeign
  cases hforeign

/-- The expressions in such a program are trees of the regime. -/
theorem presence_suits_of_mem_subtrees {text : List Char} {node : Node}
    (hnode : node ∈ (parse text).program.subtrees) (hrole : node.role? = some .expression) :
    presence.suits node := by
  refine ⟨fun part hpart => parse_wellPlaced text part (Node.mem_subtrees_trans hpart hnode), ?_⟩
  rintro kind word rfl
  cases hrole

theorem presence_guards (depth : Nat) (frame : FrameId) {node : Node} (h : presence.suits node) :
    presence.Guards (presence.Outcome node) (node.eval (callWithin depth) frame)
      (node.evalGuarded presence.allows (callGuardedWithin presence.allows depth) frame) :=
  Node.eval_guards (callWithin_guards presence depth) trivial node h

end Regime

open Regime

/-- No value is missing in a reachable store. -/
theorem Store.Reachable.holds {store : Store} (h : store.Reachable) :
    store.Holds (Value.All Value.IsThere) := by
  induction h with
  | initial => exact holds_initial _
  | evaluate _ depth frame text ih =>
    have hmaintains := (presence_guards depth frame (presence_suits_parse text)).maintains
    exact presence_governs_iff.1 (hmaintains _ (presence_governs_iff.2 ih)).1

/-- What it means that a program is evaluated safely in a frame, on a store, with calls up to a
given depth. -/
structure RunsSafely (depth : Nat) (program : Node) (frame : FrameId) (store : Store) : Prop where
  /-- No guard stops the evaluation. -/
  unguarded : (program.evalGuarded presence.allows (callGuardedWithin presence.allows depth)
    frame).exec store = (Guard.step (program.eval (callWithin depth) frame)).exec store
  /-- The only fault is that calls are nested too deep. -/
  fault_eq : ∀ fault, ((program.eval (callWithin depth) frame).exec store).1 = .error fault →
    fault = .depthExceeded
  /-- No value is missing in the store afterwards. -/
  holds : ((program.eval (callWithin depth) frame).exec store).2.Holds (Value.All Value.IsThere)
  /-- The program itself may come to no value, but no value is missing inside its outcome. -/
  outcome : ∀ value, ((program.eval (callWithin depth) frame).exec store).1 = .ok value →
    value = .nothing ∨ value.All Value.IsThere
  /-- The expressions in the program come to values, in whichever frame. -/
  expression : ∀ node ∈ program.subtrees, node.role? = some .expression → ∀ frame value,
    ((node.eval (callWithin depth) frame).exec store).1 = .ok value → value.All Value.IsThere

/-- **Evaluation is safe.**  On a store to which programs lead, the evaluation of a program is
stopped by no guard and has no fault but that calls are nested too deep; its expressions come to
values, and no value is missing in the store, before and after. -/
theorem evaluate_runsSafely (depth : Nat) (text : List Char) (frame : FrameId) {store : Store}
    (h : store.Reachable) : store.Holds (Value.All Value.IsThere) ∧
      RunsSafely depth (parse text).program frame store := by
  have hstore := presence_governs_iff.2 h.holds
  have hguards := presence_guards depth frame (presence_suits_parse text)
  obtain ⟨hafter, hend⟩ := hguards.maintains store hstore
  refine ⟨h.holds, ?_, fun fault hfault => ?_, presence_governs_iff.1 hafter,
    fun value hvalue => ?_, ?_⟩
  · rw [hguards.agrees store hstore, bind_pure]
    rfl
  · rwa [hfault] at hend
  · rw [hvalue] at hend
    exact (presence_result hend).imp And.left id
  · intro node hnode hrole frame value hvalue
    have hsuits : presence.suits node :=
      ⟨fun part hpart => parse_wellPlaced text part (Node.mem_subtrees_trans hpart hnode), by
        rintro kind word rfl
        cases hrole⟩
    have hresult := ((presence_guards depth frame hsuits).maintains store hstore).2
    rw [hvalue] at hresult
    exact (presence_result hresult).resolve_left fun hempty => hempty.2 hrole

/-- A function with an empty branch, called by a program that uses the outcome. -/
theorem evaluate_runsSafely_call :
    let text := "[f(true)][0]".toList
    let store := (((parse "let f = fn(x) { if (x) { } };".toList).program.eval
      (callWithin maxCallDepth) Store.global).exec .initial).2
    store.Reachable ∧ store.Holds (Value.All Value.IsThere) ∧
      RunsSafely maxCallDepth (parse text).program Store.global store :=
  have h := Store.Reachable.evaluate .initial maxCallDepth Store.global
    "let f = fn(x) { if (x) { } };".toList
  ⟨h, evaluate_runsSafely maxCallDepth "[f(true)][0]".toList Store.global h⟩

end MonkeyLang
