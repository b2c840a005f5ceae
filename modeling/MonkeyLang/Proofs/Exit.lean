import MonkeyLang.Proofs.Abort
import MonkeyLang.Proofs.Regime
import MonkeyLang.Proofs.Whole

/-!
# Return statements are exits

A return statement wraps its value, and blocks, conditionals, calls and programs hand the wrapped
value on until a call or a program unwraps it.  Here this is compared with an interpreter in which
nothing is wrapped: `Node.evalExit` has no case for values on their way out, a return statement ends
the evaluation at once (`Departure.returned`), and the call around it, or the program, goes on with
its value (`Departure.land`).  A call never exits, which its type says: what a call means is a
`CallRule` as before.

Both agree for disciplined trees (`Node.IsDisciplined`), if nothing on its way out can be reached
from the frame, and no functions but those with disciplined bodies (`Value.IsDisciplined`):
`returns_exit`.  The interpreter with guards also finds no value on its way out in any use but one,
the outcome of an expression statement.
-/

namespace MonkeyLang

/-! ### An interpreter with exits -/

/-- Why an evaluation stopped: a fault, or a return statement. -/
inductive Departure
  | fault (fault : Fault)
  | returned (value : Value)

/-- The monad of evaluation in which a return statement is the end. -/
abbrev ExitM := StopM Departure

namespace Departure

/-- A step that does not exit. -/
def step {α : Type} (x : EvalM α) : ExitM α :=
  StopM.lift Departure.fault x

/-- Exits with a value.  A serial number is taken, as it is for a value that is wrapped. -/
def leave (value : Value) : ExitM Value := do
  let _ ← step EvalM.fresh
  throw (.returned value)

/-- Goes on where an evaluation has exited, with the value that it has exited with. -/
def land (x : ExitM Value) : EvalM Value :=
  ExceptT.mk do
    match ← ExceptT.run x with
    | .ok value | .error (.returned value) => return .ok value
    | .error (.fault reason) => return .error reason

end Departure

open Departure

namespace Node

mutual

/-- The outcome of a tree in a frame. -/
def evalExit (call : CallRule) (frame : FrameId) : Node → ExitM Value
  | program statements => step (land (exitEach call frame .nothing statements))
  | letStatement _ target value => do
    let value ← value.evalExit call frame
    if value.isError then return value
    step (EvalM.bind frame target.name value.orNull)
    return .nothing
  | returnStatement _ none => leave .null
  | returnStatement _ (some value) => do
    let value ← value.evalExit call frame
    if value.isError then return value
    leave value.orNull
  | expressionStatement _ expression => expression.evalExit call frame
  | block _ statements => exitEach call frame .nothing statements
  | identifier ident => step (evalName frame ident.name)
  | integer _ value => return .integer value
  | string _ value => step (EvalM.newString value)
  | boolean _ value => return .boolean value
  | unary _ operator right => do
    let right ← right.evalExit call frame
    if right.isError then return right
    step (Eval.unary operator right.orNull)
  | binary _ left operator right => do
    let left ← left.evalExit call frame
    if left.isError then return left
    let right ← right.evalExit call frame
    if right.isError then return right
    step (Eval.binary operator left.orNull right.orNull)
  | conditional _ condition consequence none => do
    let condition ← condition.evalExit call frame
    if condition.isError then return condition
    if condition.orNull.isTruthy then return (← consequence.evalExit call frame).orNull
    return .null
  | conditional _ condition consequence (some alternative) => do
    let condition ← condition.evalExit call frame
    if condition.isError then return condition
    if condition.orNull.isTruthy then return (← consequence.evalExit call frame).orNull
    return (← alternative.evalExit call frame).orNull
  | function _ parameters body =>
    return .function (← step EvalM.fresh) parameters body frame
  | Node.call _ callee arguments => do
    let callee ← callee.evalExit call frame
    if callee.isError then return callee
    match ← exitValues call frame arguments with
    | .ok arguments => step (call callee arguments)
    | .error failure => return failure
  | array _ elements => do
    match ← exitValues call frame elements with
    | .ok elements => step (EvalM.newArray elements)
    | .error failure => return failure
  | index _ target position => do
    let target ← target.evalExit call frame
    if target.isError then return target
    let position ← position.evalExit call frame
    if position.isError then return position
    step (Eval.index target position)
  | hash _ pairs => exitPairs call frame [] pairs
  | foreign kind _ => throw (.fault (.unknownNode kind))

/-- The outcome of statements, where `last` is the outcome of the one before. -/
def exitEach (call : CallRule) (frame : FrameId) (last : Value) : List Node → ExitM Value
  | [] => return last
  | statement :: statements => do
    let outcome ← statement.evalExit call frame
    if outcome.isError then return outcome
    exitEach call frame outcome statements

/-- The values of several trees, from left to right, or the first failure. -/
def exitValues (call : CallRule) (frame : FrameId) :
    List Node → ExitM (Except Value (List Value))
  | [] => return .ok []
  | node :: nodes => do
    let value ← node.evalExit call frame
    if value.isError then return .error value
    return (← exitValues call frame nodes).map (value :: ·)

/-- The hash that a literal describes, where `entries` are those of the pairs before. -/
def exitPairs (call : CallRule) (frame : FrameId) (entries : List (HashKey × Value × Value)) :
    List (Node × Node) → ExitM Value
  | [] => step (EvalM.newHash entries)
  | (key, value) :: pairs => do
    let key ← key.evalExit call frame
    if key.isError then return key
    match key.key? with
    | none => step do EvalM.failWith (.unusableKey (← EvalM.kindOf key))
    | some hashKey => do
      let value ← value.evalExit call frame
      if value.isError then return value
      exitPairs call frame (Assoc.insert hashKey (key, value) entries) pairs

end

end Node

/-- Calls a value, where `body` tells how the body of a function is evaluated. -/
def callExitWith (body : FrameId → Node → ExitM Value) : CallRule
  | .function _ parameters node scope, args => do
    if args.length ≠ parameters.length then
      EvalM.failWith (.parameterCount parameters.length args.length)
    else
      let frame ← EvalM.enclose scope
      bindParameters frame parameters args
      return (← land (body frame node)).orNull
  | .builtin f, args => f.run args
  | callee, _ => do EvalM.failWith (.notCallable (← EvalM.kindOf callee))

/-- Calls a value, with at most `depth` calls of functions inside each other. -/
def callExitWithin : Nat → CallRule
  | 0 => callExitWith fun _ _ => throw (.fault .depthExceeded)
  | depth + 1 => callExitWith (Node.evalExit (callExitWithin depth))

/-! ### Disciplined values -/

/-- A value that is not on its way out of a function; the body of a function is disciplined and has
parts of the right roles. -/
def Value.IsDisciplined : Value → Prop
  | returned .. => False
  | function _ _ body _ => body.WellPlaced ∧ body.IsDisciplined
  | _ => True

/-- The regime under which values on their way out are met in statements only, as far as the given
frames go. -/
def Regime.discipline (seen : FrameId → Prop) : Regime where
  seen := seen
  good value := value.IsDisciplined ∧ ∀ scope ∈ value.scope?, seen scope
  suits node := node.WellPlaced ∧ node.IsDisciplined
  tolerates _ := True
  allows use value := use = .statement || !value.isReturned
  good_plain value h := by cases value <;> first | exact ⟨trivial, nofun⟩ | cases h
  good_data value h := by cases value <;> first | exact ⟨trivial, nofun⟩ | cases h
  good_function _ _ _ _ _ h hscope :=
    ⟨⟨(Node.wellPlaced_iff.1 h.1 _ List.mem_cons_self).2, h.2.of_mem_places List.mem_cons_self⟩,
      fun _ hmem => Option.some.inj hmem ▸ hscope⟩
  suits_body _ _ _ _ h := h.1
  seen_scope _ _ _ _ h := h.2 _ rfl
  places node h place hplace := by
    obtain ⟨hrole, hplaced⟩ := Node.wellPlaced_iff.1 h.1 place hplace
    exact ⟨hrole, hplaced, h.2.of_mem_places hplace⟩
  settled node h hnode place hplace hreturn _ _ := by
    rw [h.2 node (Node.mem_subtrees.2 (.inl rfl)) place hplace hreturn] at hnode
    cases hnode
  deep := trivial
  foreign _ _ _ := trivial
  kindless _ := trivial
  textless _ _ _ _ := trivial
  allows_good use value h := by cases value <;> first | exact h.1.elim | simp [Value.isReturned]
  allows_nothing := rfl
  allows_returned _ _ := rfl

/-! ### Agreement -/

open Regime

/-- A value as the outcome of an evaluation that exits: on its way out it is no outcome, but the
value to exit with. -/
def Value.leaving : Value → ExitM Value
  | returned _ value => throw (.returned value)
  | value => return value

/-- Both evaluations come to the same end, where a value on its way out is an exit. -/
abbrev Exits (seen : FrameId → Prop) (x : EvalM Value) (y : ExitM Value) : Prop :=
  (discipline seen).Agrees Departure.fault Value.leaving x y

/-- Both evaluations come to the same end, and there is no exit. -/
abbrev NeverExits (seen : FrameId → Prop) {α : Type} (x : EvalM α) (y : ExitM α) : Prop :=
  (discipline seen).Agrees Departure.fault pure x y

theorem Departure.exec_land (x : ExitM Value) (store : Store) :
    (land x).exec store =
      match x.exec store with
      | (.ok value, store) | (.error (.returned value), store) => (.ok value, store)
      | (.error (.fault reason), store) => (.error reason, store) := by
  simp only [land, EvalM.exec, StopM.exec, ExceptT.run_mk, StateT.run_bind]
  rcases (ExceptT.run x).run store with ⟨(_ | _) | _, after⟩ <;> rfl

section Exits

variable {seen : FrameId → Prop} {β γ : Type} {x : EvalM Value} {y : ExitM Value}

theorem disciplined_nothing : (discipline seen).Good .nothing :=
  Value.all_of_components_eq_nil rfl ⟨trivial, nofun⟩

theorem disciplined_of_result {empty : Prop} {value : Value}
    (h : (discipline seen).Result empty False value) : (discipline seen).Good value := by
  cases h with
  | good h => exact h
  | nothing => exact disciplined_nothing
  | returned id h => exact h.elim

theorem leaving_of_disciplined {value : Value} (h : (discipline seen).Good value) :
    value.leaving = pure value := by
  cases value with
  | returned => exact h.self.1.elim
  | _ => rfl

theorem unwrap_of_disciplined {value : Value} (h : (discipline seen).Good value) :
    value.unwrap = value := by
  cases value with
  | returned => exact h.self.1.elim
  | _ => rfl

theorem isSignal_of_disciplined {value : Value} (h : (discipline seen).Good value) :
    value.isSignal = value.isError := by
  cases value with
  | returned => exact h.self.1.elim
  | _ => rfl

/-- Where nothing is on its way out there is no exit. -/
theorem exits_iff (h : (discipline seen).Maintains (discipline seen).Good x) :
    Exits seen x y ↔ NeverExits seen x y := by
  refine forall₂_congr fun store hstore => ?_
  have hview : (StopM.lift Departure.fault x >>= Value.leaving).exec store =
      (StopM.lift Departure.fault x >>= pure).exec store := by
    obtain ⟨-, hend⟩ := h store hstore
    rw [StopM.exec_bind, StopM.exec_bind, StopM.exec_lift]
    rcases hrun : x.exec store with ⟨fault | value, after⟩
    · rfl
    · rw [hrun] at hend
      simp only [Except.mapError, leaving_of_disciplined hend]
  rw [hview]

theorem exits_pure {value : Value} (h : (discipline seen).Good value) :
    Exits seen (pure value) (pure value) := by
  intro store _
  rw [StopM.lift_pure, pure_bind, leaving_of_disciplined h]

theorem exits_step (h : (discipline seen).Maintains (discipline seen).Good x) :
    Exits seen x (step x) :=
  (exits_iff h).2 (agrees_lift x)

theorem exits_operation {args : List Value} (h : Operates [] args x)
    (hargs : ∀ arg ∈ args, (discipline seen).Good arg) : Exits seen x (step x) :=
  exits_step (maintains_of_operates h (List.forall_mem_nil _) hargs)

theorem exits_leave (value : Value) : Exits seen (EvalM.newReturned value) (leave value) :=
  fun _ _ => rfl

/-- The rule for an expression that settles: it does not exit, whatever comes behind it. -/
theorem Exits.settled {node : Node} (hnode : (discipline seen).Settles node)
    (hmaintains : (discipline seen).Maintains ((discipline seen).Outcome node) x)
    (h : Exits seen x y)
    {view : β → ExitM γ} {k : Value → EvalM β} {k' : Value → ExitM γ}
    (hk : ∀ value, (discipline seen).Good value →
      (discipline seen).Agrees Departure.fault view (k value) (k' value)) :
    (discipline seen).Agrees Departure.fault view (x >>= k) (y >>= k') := by
  have hgood := hmaintains.mono hnode.good
  exact ((exits_iff hgood).1 h).bind hgood hk

/-- The rule for a statement or a branch: a value on its way out is handed on. -/
theorem Exits.through {returns : Prop}
    (hmaintains : (discipline seen).Maintains ((discipline seen).Result True returns) x)
    (h : Exits seen x y)
    {k : Value → EvalM Value} {k' : Value → ExitM Value}
    (hk : ∀ value, (discipline seen).Good value → Exits seen (k value) (k' value))
    (hreturned : ∀ id value, k (.returned id value) = pure (.returned id value)) :
    Exits seen (x >>= k) (y >>= k') := by
  intro store hstore
  obtain ⟨hafter, hend⟩ := hmaintains store hstore
  rw [StopM.exec_bind, h store hstore, StopM.lift_bind, bind_assoc, StopM.exec_bind,
    StopM.exec_bind, StopM.exec_lift]
  rcases hrun : x.exec store with ⟨fault | value, after⟩
  · rfl
  · rw [hrun] at hafter hend
    -- one evaluation has a value on its way out to hand on where the other one has been left
    cases hend with
    | good hgood =>
      simp only [Except.mapError, leaving_of_disciplined hgood, StopM.exec_pure]
      exact hk value hgood after hafter
    | nothing => exact hk _ disciplined_nothing after hafter
    | returned id =>
      simp only [Except.mapError, hreturned]
      rfl

/-- Where a call or a program goes on, the wrapped value has been unwrapped. -/
theorem Exits.exec_land (h : Exits seen x y) {store : Store}
    (hstore : (discipline seen).Governs store) :
    (land y).exec store = (x >>= fun value => pure value.unwrap).exec store := by
  rw [Departure.exec_land, h store hstore, StopM.exec_bind, StopM.exec_lift, EvalM.exec_bind]
  rcases x.exec store with ⟨_ | value, after⟩
  · rfl
  · cases value <;> rfl

end Exits

/-! ### Trees -/

/-- Two rules for calls that come to the same end on disciplined values; the first one keeps to the
regime. -/
structure CallsExit (seen : FrameId → Prop) (call call' : CallRule) : Prop where
  guards : ∃ guarded, (discipline seen).GuardsCalls call guarded
  agrees : ∀ callee args, (discipline seen).Good callee →
    (∀ arg ∈ args, (discipline seen).Good arg) →
    (discipline seen).Agrees id pure (call callee args) (call' callee args)

namespace CallsExit

variable {seen : FrameId → Prop} {call call' : CallRule} {frame : FrameId}

theorem maintains (h : CallsExit seen call call') (hframe : seen frame) {node : Node}
    (hsuits : (discipline seen).suits node) :
    (discipline seen).Maintains ((discipline seen).Outcome node) (node.eval call frame) := by
  obtain ⟨guarded, hguards⟩ := h.guards
  exact (Node.eval_guards hguards hframe node hsuits).maintains

/-- What a tree comes to that is not on its way out. -/
theorem maintains_result (h : CallsExit seen call call') (hframe : seen frame) {node : Node}
    (hsuits : (discipline seen).suits node) :
    (discipline seen).Maintains ((discipline seen).Result True node.canReturn)
      (node.eval call frame) :=
  (h.maintains hframe hsuits).mono fun _ hvalue => hvalue.mono (fun _ => trivial) id

theorem maintains_each (h : CallsExit seen call call') (hframe : seen frame) {nodes : List Node}
    (hsettles : ∀ node ∈ nodes, (discipline seen).Settles node) :
    (discipline seen).Maintains (Value.EachIs (discipline seen).Good)
      (Node.evalEach call frame nodes) := by
  obtain ⟨guarded, hguards⟩ := h.guards
  exact (Node.evalEach_guards hguards hframe .argument nodes hsettles).maintains

/-- Calls do not exit. -/
theorem exits (h : CallsExit seen call call') {callee : Value} {args : List Value}
    (hcallee : (discipline seen).Good callee) (hargs : ∀ arg ∈ args, (discipline seen).Good arg) :
    Exits seen (call callee args) (step (call' callee args)) := by
  obtain ⟨guarded, hguards⟩ := h.guards
  refine (exits_iff (hguards callee args hcallee hargs).maintains).2 fun store hstore => ?_
  have hsame := agrees_iff_exec_eq.1 (h.agrees callee args hcallee hargs) store hstore
  rw [bind_pure, step, StopM.exec_lift_congr hsame]

end CallsExit

namespace Node

/-- A program comes to what its statements come to as a block, unwrapped. -/
theorem evalProgram_eq (call : CallRule) (frame : FrameId) {last : Value}
    (hlast : last.unwrap = last) (statements : List Node) :
    evalProgram call frame last statements =
      evalBlock call frame last statements >>= fun value => pure value.unwrap := by
  induction statements generalizing last with
  | nil => rw [evalProgram, evalBlock, pure_bind, hlast]
  | cons statement statements ih =>
    rw [evalProgram, evalBlock, bind_assoc]
    refine bind_congr fun value => ?_
    by_cases hsignal : value.isSignal
    · rw [if_pos hsignal, if_pos hsignal, pure_bind]
    · rw [if_neg hsignal, if_neg hsignal]
      refine ih ?_
      cases value <;> first | rfl | exact absurd rfl hsignal

variable {seen : FrameId → Prop} {call call' : CallRule} {frame : FrameId}

mutual

theorem eval_exits (hcall : CallsExit seen call call') (hframe : seen frame) : (node : Node) →
    (discipline seen).suits node → Exits seen (node.eval call frame) (node.evalExit call' frame)
  | program statements, hsuits => by
    have hstatements : ∀ statement ∈ statements, (discipline seen).suits statement :=
      fun statement hmem => ((discipline seen).places _ hsuits _ (List.mem_map_of_mem hmem)).2
    have hblock := evalBlock_exits hcall hframe disciplined_nothing statements hstatements
    have hmaintains := (hcall.maintains hframe hsuits).mono fun value hvalue =>
      disciplined_of_result (hvalue.mono id nofun)
    refine (exits_iff hmaintains).2 fun store hstore => ?_
    rw [evalExit, eval, evalProgram_eq call frame rfl, bind_pure]
    exact StopM.exec_lift_congr (hblock.exec_land hstore)
  | letStatement token target value, hsuits => by
    rw [eval, evalExit]
    have hvalue := settles_of_mem_places hsuits rfl List.mem_cons_self
    refine (eval_exits hcall hframe value hvalue.suits).settled hvalue
      (hcall.maintains hframe hvalue.suits) fun v hv => .ite (exits_pure hv) ?_
    exact .bind (agrees_lift _) (.bindName frame target.name (good_orNull hv)) fun _ _ =>
      exits_pure disciplined_nothing
  | returnStatement token none, hsuits => by
    rw [eval, evalExit]
    exact exits_leave .null
  | returnStatement token (some value), hsuits => by
    rw [eval, evalExit]
    have hvalue := settles_of_mem_places hsuits rfl List.mem_cons_self
    exact (eval_exits hcall hframe value hvalue.suits).settled hvalue
      (hcall.maintains hframe hvalue.suits) fun v hv =>
        .ite (exits_pure hv) (exits_leave v.orNull)
  | expressionStatement token expression, hsuits => by
    rw [eval, evalExit]
    exact eval_exits hcall hframe expression ((discipline seen).places _ hsuits _ List.mem_cons_self).2
  | block token statements, hsuits => by
    rw [eval, evalExit]
    exact evalBlock_exits hcall hframe disciplined_nothing statements fun statement hmem =>
      ((discipline seen).places _ hsuits _ (List.mem_map_of_mem hmem)).2
  | identifier ident, hsuits => by
    rw [eval, evalExit]
    exact exits_step (maintains_evalName hframe ident.name)
  | integer token value, hsuits => by
    rw [eval, evalExit]
    exact exits_pure (good_of_isPlain rfl)
  | string token value, hsuits => by
    rw [eval, evalExit]
    exact exits_operation (newString_operates value) (by simp)
  | boolean token value, hsuits => by
    rw [eval, evalExit]
    exact exits_pure (good_of_isPlain rfl)
  | unary token operator right, hsuits => by
    rw [eval, evalExit]
    have hright := settles_of_mem_places hsuits rfl List.mem_cons_self
    refine (eval_exits hcall hframe right hright.suits).settled hright
      (hcall.maintains hframe hright.suits) fun r hr => .ite (exits_pure hr) ?_
    exact exits_operation (Eval.unary_operates operator r.orNull) (by simpa using good_orNull hr)
  | binary token left operator right, hsuits => by
    rw [eval, evalExit]
    have hleft := settles_of_mem_places hsuits rfl List.mem_cons_self
    have hright := settles_of_mem_places hsuits rfl (List.mem_cons_of_mem _ List.mem_cons_self)
    refine (eval_exits hcall hframe left hleft.suits).settled hleft
      (hcall.maintains hframe hleft.suits) fun l hl => .ite (exits_pure hl) ?_
    refine (eval_exits hcall hframe right hright.suits).settled hright
      (hcall.maintains hframe hright.suits) fun r hr => .ite (exits_pure hr) ?_
    exact exits_operation (Eval.binary_operates operator l.orNull r.orNull)
      (by simpa using ⟨good_orNull hl, good_orNull hr⟩)
  | conditional token condition consequence none, hsuits => by
    rw [eval, evalExit]
    have hcondition := settles_of_mem_places hsuits rfl List.mem_cons_self
    have hconsequence := ((discipline seen).places _ hsuits _
      (List.mem_cons_of_mem _ List.mem_cons_self)).2
    refine (eval_exits hcall hframe condition hcondition.suits).settled hcondition
      (hcall.maintains hframe hcondition.suits) fun c hc => .ite (exits_pure hc) ?_
    refine .ite ?_ (exits_pure (good_of_isPlain rfl))
    exact (eval_exits hcall hframe consequence hconsequence).through
      (hcall.maintains_result hframe hconsequence)
      (fun v hv => exits_pure (good_orNull hv)) fun _ _ => rfl
  | conditional token condition consequence (some alternative), hsuits => by
    rw [eval, evalExit]
    have hcondition := settles_of_mem_places hsuits rfl List.mem_cons_self
    have hconsequence := ((discipline seen).places _ hsuits _
      (List.mem_cons_of_mem _ List.mem_cons_self)).2
    have halternative := ((discipline seen).places _ hsuits _
      (List.mem_cons_of_mem _ (List.mem_cons_of_mem _ List.mem_cons_self))).2
    refine (eval_exits hcall hframe condition hcondition.suits).settled hcondition
      (hcall.maintains hframe hcondition.suits) fun c hc => .ite (exits_pure hc) ?_
    refine .ite ?_ ?_
    · exact (eval_exits hcall hframe consequence hconsequence).through
        (hcall.maintains_result hframe hconsequence)
        (fun v hv => exits_pure (good_orNull hv)) fun _ _ => rfl
    · exact (eval_exits hcall hframe alternative halternative).through
        (hcall.maintains_result hframe halternative)
        (fun v hv => exits_pure (good_orNull hv)) fun _ _ => rfl
  | function token parameters body, hsuits => by
    rw [eval, evalExit]
    refine .bind (agrees_lift _) .fresh fun id _ => exits_pure ?_
    exact good_of_components_eq_nil rfl
      ((discipline seen).good_function token id parameters body frame hsuits hframe)
  | Node.call token callee arguments, hsuits => by
    rw [eval, evalExit]
    have hcallee := settles_of_mem_places hsuits rfl List.mem_cons_self
    have harguments : ∀ argument ∈ arguments, (discipline seen).Settles argument := fun argument hmem =>
      settles_of_mem_places hsuits rfl (List.mem_cons_of_mem _ (List.mem_map_of_mem hmem))
    refine (eval_exits hcall hframe callee hcallee.suits).settled hcallee
      (hcall.maintains hframe hcallee.suits) fun f hf => .ite (exits_pure hf) ?_
    refine (evalEach_exits hcall hframe arguments harguments).bind
      (hcall.maintains_each hframe harguments) fun args hargs => ?_
    cases args with
    | ok args => exact hcall.exits hf hargs
    | error failure => exact exits_pure hargs
  | array token elements, hsuits => by
    rw [eval, evalExit]
    have helements : ∀ element ∈ elements, (discipline seen).Settles element := fun element hmem =>
      settles_of_mem_places hsuits rfl (List.mem_map_of_mem hmem)
    refine (evalEach_exits hcall hframe elements helements).bind
      (hcall.maintains_each hframe helements) fun values hvalues => ?_
    cases values with
    | ok values => exact exits_operation (newArray_operates values) hvalues
    | error failure => exact exits_pure hvalues
  | index token target position, hsuits => by
    rw [eval, evalExit]
    have htarget := settles_of_mem_places hsuits rfl List.mem_cons_self
    have hposition := settles_of_mem_places hsuits rfl (List.mem_cons_of_mem _ List.mem_cons_self)
    refine (eval_exits hcall hframe target htarget.suits).settled htarget
      (hcall.maintains hframe htarget.suits) fun t ht => .ite (exits_pure ht) ?_
    refine (eval_exits hcall hframe position hposition.suits).settled hposition
      (hcall.maintains hframe hposition.suits) fun p hp => .ite (exits_pure hp) ?_
    exact exits_operation (Eval.index_operates t p) (by simpa using ⟨ht, hp⟩)
  | hash token pairs, hsuits => by
    rw [eval, evalExit]
    exact evalPairs_exits hcall hframe (List.forall_mem_nil _) pairs (settles_pairs hsuits)
  | foreign kind text, _ => by
    rw [eval, evalExit]
    exact fun _ _ => rfl

theorem evalBlock_exits (hcall : CallsExit seen call call') (hframe : seen frame) {last : Value}
    (hlast : (discipline seen).Good last) : (statements : List Node) →
    (∀ statement ∈ statements, (discipline seen).suits statement) →
    Exits seen (evalBlock call frame last statements) (exitEach call' frame last statements)
  | [], _ => by
    rw [evalBlock, exitEach]
    exact exits_pure hlast
  | statement :: statements, hsuits => by
    rw [evalBlock, exitEach]
    obtain ⟨hfirst, hrest⟩ := List.forall_mem_cons.1 hsuits
    refine (eval_exits hcall hframe statement hfirst).through
      (hcall.maintains_result hframe hfirst) (fun v hv => ?_) fun _ _ => rfl
    rw [isSignal_of_disciplined hv]
    exact .ite (exits_pure hv) (evalBlock_exits hcall hframe hv statements hrest)

theorem evalEach_exits (hcall : CallsExit seen call call') (hframe : seen frame) : (nodes : List Node) →
    (∀ node ∈ nodes, (discipline seen).Settles node) →
    NeverExits seen (evalEach call frame nodes) (exitValues call' frame nodes)
  | [], _ => by
    rw [evalEach, exitValues]
    exact agrees_lift _
  | node :: nodes, hsettles => by
    rw [evalEach, exitValues]
    obtain ⟨hnode, hrest⟩ := List.forall_mem_cons.1 hsettles
    refine (eval_exits hcall hframe node hnode.suits).settled hnode
      (hcall.maintains hframe hnode.suits) fun v _ => .ite (agrees_lift _) ?_
    exact (evalEach_exits hcall hframe nodes hrest).bind (hcall.maintains_each hframe hrest)
      fun vs _ => agrees_lift _

theorem evalPairs_exits (hcall : CallsExit seen call call') (hframe : seen frame)
    {entries : List (HashKey × Value × Value)}
    (hentries : ∀ value ∈ Value.entryValues entries, (discipline seen).Good value) :
    (pairs : List (Node × Node)) →
    (∀ pair ∈ pairs, (discipline seen).Settles pair.1 ∧ (discipline seen).Settles pair.2) →
    Exits seen (evalPairs call frame entries pairs) (exitPairs call' frame entries pairs)
  | [], _ => by
    rw [evalPairs, exitPairs]
    exact exits_operation (newHash_operates entries) hentries
  | (key, value) :: pairs, hsettles => by
    rw [evalPairs, exitPairs]
    obtain ⟨⟨hkey, hvalue⟩, hrest⟩ := List.forall_mem_cons.1 hsettles
    refine (eval_exits hcall hframe key hkey.suits).settled hkey
      (hcall.maintains hframe hkey.suits) fun k hk => .ite (exits_pure hk) ?_
    cases k.key? with
    | none => exact exits_operation (unusableKey_operates k) (by simpa using hk)
    | some hashKey =>
      refine (eval_exits hcall hframe value hvalue.suits).settled hvalue
        (hcall.maintains hframe hvalue.suits) fun v hv => .ite (exits_pure hv) ?_
      exact evalPairs_exits hcall hframe (Value.forall_mem_insert hentries hashKey hk hv) pairs hrest

end

end Node

/-! ### Calls -/

theorem callWith_exits {seen : FrameId → Prop} {body : FrameId → Node → EvalM Value}
    {body' : FrameId → Node → ExitM Value}
    (h : ∀ frame node, seen frame → (discipline seen).suits node →
      Exits seen (body frame node) (body' frame node))
    {callee : Value} {args : List Value} (hcallee : (discipline seen).Good callee)
    (hargs : ∀ arg ∈ args, (discipline seen).Good arg) :
    (discipline seen).Agrees id pure (callWith body callee args)
      (callExitWith body' callee args) := by
  cases callee with
  | function number parameters node scope =>
    rw [callWith, callExitWith]
    refine .ite (agrees_refl _) ?_
    have henclose := Maintains.enclose ((discipline seen).seen_scope _ _ _ _ hcallee.self)
    refine (agrees_refl (EvalM.enclose scope)).bind henclose fun frame hframe => ?_
    have hbind := (bindParameters_guards frame parameters hargs).maintains
    refine (agrees_refl (bindParameters frame parameters args)).bind hbind fun _ _ => ?_
    refine agrees_iff_exec_eq.2 fun store hstore => ?_
    rw [EvalM.exec_bind, (h frame node hframe hcallee.self.1).exec_land hstore, EvalM.exec_bind,
      EvalM.exec_bind]
    rcases (body frame node).exec store with ⟨_ | value, after⟩ <;> rfl
  | _ => exact agrees_refl _

theorem callWithin_exits (seen : FrameId → Prop) (depth : Nat) :
    CallsExit seen (callWithin depth) (callExitWithin depth) where
  guards := ⟨_, callWithin_guards (discipline seen) depth⟩
  agrees callee args hcallee hargs := by
    induction depth generalizing callee args with
    | zero => exact callWith_exits (fun _ _ _ _ _ _ => rfl) hcallee hargs
    | succ depth ih =>
      refine callWith_exits (fun frame node hframe hsuits => ?_) hcallee hargs
      exact Node.eval_exits ⟨⟨_, callWithin_guards (discipline seen) depth⟩, ih⟩ hframe node hsuits

/-! ### Programs -/

/-- The outcome of a tree in a frame, where a return statement is an exit and calls may be nested up
to a given depth. -/
def Node.evaluateExit (depth : Nat) (frame : FrameId) (node : Node) : EvalM Value :=
  land (node.evalExit (callExitWithin depth) frame)

/-- The frames that can be reached from a frame of a store, and those that are yet to be made. -/
def Store.Region (store : Store) (frame : FrameId) (f : FrameId) : Prop :=
  store.Reaches frame f ∨ store.frames.size ≤ f

/-- If nothing is on its way out that can be reached from a frame, the store is governed there. -/
theorem Store.HoldsFrom.governs {store : Store} {frame : FrameId}
    (h : store.HoldsFrom frame (Value.All Value.IsDisciplined)) :
    (discipline (store.Region frame)).Governs store where
  holds f hf binding hbinding part hpart := by
    rcases hf with hreached | hnew
    · refine ⟨h f hreached binding hbinding part hpart, fun scope hscope => ?_⟩
      cases part with
      | function => exact .inl (hreached.scope hbinding (Option.some.inj hscope ▸ hpart))
      | _ => cases hscope
    · rw [bindings_eq_nil hnew] at hbinding
      cases hbinding
  outward f outer hf houter := by
    rcases hf with hreached | hnew
    · exact .inl (hreached.outer houter)
    · rw [outer?_eq_none hnew] at houter
      cases houter
  unused _ hle := .inr hle

/-- What it means that in the evaluation of a program return statements are exits. -/
structure ReturnsExit (depth : Nat) (program : Node) (frame : FrameId) (store : Store) : Prop where
  /-- The evaluation has the same result, bindings and output as the one with exits. -/
  exec_eq : (program.eval (callWithin depth) frame).exec store =
    (program.evaluateExit depth frame).exec store
  /-- No value on its way out is used for anything but as the outcome of a statement. -/
  unguarded : (program.evalGuarded (discipline (store.Region frame)).allows
    (callGuardedWithin (discipline (store.Region frame)).allows depth) frame).exec store =
      (Guard.step (program.eval (callWithin depth) frame)).exec store
  /-- Afterwards no value that is bound in a frame that could be reached, or in a new one, is or
  contains one on its way out. -/
  holds : ∀ f, store.Region frame f →
    ∀ binding ∈ ((program.eval (callWithin depth) frame).exec store).2.bindings f,
      binding.2.All Value.IsDisciplined
  /-- Afterwards no other frames can be reached. -/
  region : ∀ f, ((program.eval (callWithin depth) frame).exec store).2.Reaches frame f →
    store.Region frame f
  /-- The outcome of the program neither is nor contains a value on its way out. -/
  outcome : ∀ value, ((program.eval (callWithin depth) frame).exec store).1 = .ok value →
    value.All Value.IsDisciplined

/-- **Return statements are exits.**  Programs that are read from texts have parts of the right
roles, and if such a program is disciplined, and all that can be reached from its frame are
disciplined functions and no value on its way out, then a return statement in it leaves the call
around it, or the program, at once. -/
theorem returns_exit (depth : Nat) (frame : FrameId) (store : Store) :
    (∀ text, ∃ statements, (parse text).program = .program statements ∧
      (Node.program statements).WellPlaced) ∧
    ∀ statements, (Node.program statements).WellPlaced → (Node.program statements).IsDisciplined →
      store.HoldsFrom frame (Value.All Value.IsDisciplined) →
      ReturnsExit depth (.program statements) frame store := by
  refine ⟨fun text => ?_, fun statements hplaced hdisciplined hholds => ?_⟩
  · obtain ⟨statements, hprogram, -⟩ := exists_formed_program text
    exact ⟨statements, hprogram, hprogram ▸ parse_wellPlaced text⟩
  have hstore := hholds.governs
  have hframe : store.Region frame frame := .inl .self
  have hguards := Node.eval_guards (callWithin_guards (discipline (store.Region frame)) depth)
    hframe (.program statements) ⟨hplaced, hdisciplined⟩
  have hexits := Node.eval_exits (callWithin_exits (store.Region frame) depth) hframe
    (.program statements) ⟨hplaced, hdisciplined⟩
  obtain ⟨hafter, hend⟩ := hguards.maintains store hstore
  have hgood : ∀ value, (((Node.program statements).eval (callWithin depth) frame).exec
      store).1 = .ok value → (discipline (store.Region frame)).Good value := by
    intro value hvalue
    rw [hvalue] at hend
    exact disciplined_of_result (hend.mono id nofun)
  refine ⟨?_, ?_, fun f hf binding hbinding => (hafter.holds f hf binding hbinding).mono
    fun _ => And.left, fun f => hafter.seen_of_reaches hframe, fun value hvalue =>
      (hgood value hvalue).mono fun _ => And.left⟩
  · rw [Node.evaluateExit, hexits.exec_land hstore, EvalM.exec_bind]
    rcases hrun : ((Node.program statements).eval (callWithin depth) frame).exec store with
      ⟨fault | value, after⟩
    · rfl
    · simp only [unwrap_of_disciplined (hgood value (by rw [hrun])), EvalM.exec_pure]
  · rw [hguards.agrees store hstore, bind_pure]
    rfl

/-- A function that is left early, in a branch of a conditional that is a statement. -/
theorem returns_exit_early : ∃ statements,
    (parse "let f = fn(x) \x7b if (x) \x7b return 1 \x7d; 2 \x7d; f(true)".toList).program =
      .program statements ∧
    (Node.program statements).WellPlaced ∧ (Node.program statements).IsDisciplined ∧
    Store.initial.HoldsFrom Store.global (Value.All Value.IsDisciplined) ∧
    ReturnsExit maxCallDepth (.program statements) Store.global .initial := by
  have h := returns_exit maxCallDepth Store.global .initial
  obtain ⟨statements, hprogram, hplaced⟩ :=
    h.1 "let f = fn(x) \x7b if (x) \x7b return 1 \x7d; 2 \x7d; f(true)".toList
  have hdisciplined : (parse "let f = fn(x) \x7b if (x) \x7b return 1 \x7d; 2 \x7d; f(true)".toList
      ).program.IsDisciplined := by decide +kernel
  rw [hprogram] at hdisciplined
  have hstore := (Store.holds_initial (Value.All Value.IsDisciplined)).holdsFrom Store.global
  exact ⟨statements, hprogram, hplaced, hdisciplined, hstore,
    h.2 statements hplaced hdisciplined hstore⟩

/-- Where a conditional with a return statement in a branch is bound to a name, the value on its way
out is bound as well. -/
example : ¬ (parse "let x = if (true) \x7b return 5 \x7d".toList).program.IsDisciplined := by
  decide +kernel

end MonkeyLang
