import MonkeyLang.Grammar.Program
import MonkeyLang.Proofs.ErrorFree

/-!
# Failures abort

A failure is an outcome like others, and each form of the language passes it on by hand.  Here this
is compared with an interpreter in which nothing passes failures on: `Node.runAbort` has no case for
them, and the operation that produces a failure ends the whole evaluation (`Stop.failed`).  Before a
value is bound, passed as an argument, stored in an array or a hash, or made the result of a
function, this interpreter insists that it neither is nor contains a failure (`AbortM.insist`), and
stops with `Stop.misplaced` otherwise.

`evaluate_agrees`: on a store without failures both interpreters come to the same end, with the same
bindings and the same output, and nothing is ever misplaced.  Stores without failures are all that
programs come to from the initial store (`Store.Reachable.errorFree`).
-/

namespace MonkeyLang

/-! ### An interpreter that aborts -/

/-- Why the interpreter stopped: a fault, a failure of the language, or a failure that was about to
be used like a value. -/
inductive Stop
  | fault (fault : Fault)
  | failed (id : ObjectId) (failure : Failure)
  | misplaced (value : Value)

/-- The monad of evaluation in which a failure is the end. -/
abbrev AbortM := ExceptT Stop (StateM Store)

namespace AbortM

variable {α : Type}

/-- Runs an evaluation on a store. -/
def exec (eval : AbortM α) (store : Store) : Except Stop α × Store :=
  (ExceptT.run eval).run store

/-- A step that does not fail. -/
def step (eval : EvalM α) : AbortM α :=
  ExceptT.adapt Stop.fault eval

/-- An operation; if it produces a failure, that is the end. -/
def perform (operation : EvalM Value) : AbortM Value := do
  match ← step operation with
  | .error id failure => throw (.failed id failure)
  | value => return value

/-- Insists that a value neither is nor contains a failure. -/
def insist (value : Value) : AbortM Unit :=
  if value.ErrorFree then return () else throw (.misplaced value)

/-- Insists on each of several values. -/
def insistEach : List Value → AbortM Unit
  | [] => return ()
  | value :: values => do
    insist value
    insistEach values

/-- Binds a name to a value that is no failure. -/
def bind (frame : FrameId) (name : String) (value : Value) : AbortM Unit := do
  insist value
  step (EvalM.bind frame name value)

end AbortM

open AbortM

/-- The meaning of calling a value with arguments, where a failure is the end. -/
abbrev AbortCallRule := Value → List Value → AbortM Value

/-- Tells whether a value is on its way out of a function. -/
def Value.isReturned : Value → Bool
  | returned .. => true
  | _ => false

theorem Value.ErrorFree.isSignal_eq {value : Value} (h : value.ErrorFree) :
    value.isSignal = value.isReturned := by
  cases value with
  | error id failure => exact absurd h (not_errorFree_error id failure)
  | _ => rfl

namespace Node

mutual

/-- The value of a tree in a frame. -/
def runAbort (call : AbortCallRule) (frame : FrameId) : Node → AbortM Value
  | program statements => runProgram call frame .nothing statements
  | letStatement _ target value => do
    let value ← value.runAbort call frame
    AbortM.bind frame target.name value.orNull
    return .nothing
  | returnStatement _ none => perform (EvalM.newReturned .null)
  | returnStatement _ (some value) => do
    let value ← value.runAbort call frame
    insist value.orNull
    perform (EvalM.newReturned value.orNull)
  | expressionStatement _ expression => expression.runAbort call frame
  | block _ statements => runBlock call frame .nothing statements
  | identifier ident => perform (evalName frame ident.name)
  | integer _ value => return .integer value
  | string _ value => perform (EvalM.newString value)
  | boolean _ value => return .boolean value
  | unary _ operator right => do
    let right ← right.runAbort call frame
    perform (Eval.unary operator right.orNull)
  | binary _ left operator right => do
    let left ← left.runAbort call frame
    let right ← right.runAbort call frame
    perform (Eval.binary operator left.orNull right.orNull)
  | conditional _ condition consequence none => do
    let condition ← condition.runAbort call frame
    if condition.orNull.isTruthy then return (← consequence.runAbort call frame).orNull
    return .null
  | conditional _ condition consequence (some alternative) => do
    let condition ← condition.runAbort call frame
    if condition.orNull.isTruthy then return (← consequence.runAbort call frame).orNull
    return (← alternative.runAbort call frame).orNull
  | function _ parameters body => return .function (← step EvalM.fresh) parameters body frame
  | Node.call _ callee arguments => do
    let callee ← callee.runAbort call frame
    let arguments ← runEach call frame arguments
    insistEach arguments
    call callee arguments
  | array _ elements => do
    let elements ← runEach call frame elements
    insistEach elements
    perform (EvalM.newArray elements)
  | index _ target position => do
    let target ← target.runAbort call frame
    let position ← position.runAbort call frame
    perform (Eval.index target position)
  | hash _ pairs => runPairs call frame [] pairs
  | foreign kind _ => throw (.fault (.unknownNode kind))

/-- The value of the statements of a program, where `last` is the value of the one before. -/
def runProgram (call : AbortCallRule) (frame : FrameId) (last : Value) : List Node → AbortM Value
  | [] => return last
  | statement :: statements => do
    let value ← statement.runAbort call frame
    if value.isReturned then return value.unwrap
    runProgram call frame value statements

/-- The value of the statements of a block, where `last` is the value of the one before. -/
def runBlock (call : AbortCallRule) (frame : FrameId) (last : Value) : List Node → AbortM Value
  | [] => return last
  | statement :: statements => do
    let value ← statement.runAbort call frame
    if value.isReturned then return value
    runBlock call frame value statements

/-- The values of several trees, from left to right. -/
def runEach (call : AbortCallRule) (frame : FrameId) : List Node → AbortM (List Value)
  | [] => return []
  | node :: nodes => do
    let value ← node.runAbort call frame
    return value :: (← runEach call frame nodes)

/-- The hash that a literal describes, where `entries` are those of the pairs before. -/
def runPairs (call : AbortCallRule) (frame : FrameId) (entries : List (HashKey × Value × Value)) :
    List (Node × Node) → AbortM Value
  | [] => perform (EvalM.newHash entries)
  | (key, value) :: pairs => do
    let key ← key.runAbort call frame
    match key.key? with
    | none => perform do EvalM.failWith (.unusableKey (← EvalM.kindOf key))
    | some hashKey => do
      let value ← value.runAbort call frame
      insist key
      insist value
      runPairs call frame (Assoc.insert hashKey (key, value) entries) pairs

end

end Node

/-- Binds parameters to arguments in a frame. -/
def bindParametersAbort (frame : FrameId) : List Identifier → List Value → AbortM Unit
  | parameter :: parameters, arg :: args => do
    AbortM.bind frame parameter.name arg
    bindParametersAbort frame parameters args
  | _, _ => return ()

/-- Calls a value, where `body` tells how the body of a function is evaluated. -/
def callAbortWith (body : FrameId → Node → AbortM Value) : AbortCallRule
  | .function _ parameters node scope, args => do
    if args.length ≠ parameters.length then
      perform (EvalM.failWith (.parameterCount parameters.length args.length))
    else
      let frame ← step (EvalM.enclose scope)
      bindParametersAbort frame parameters args
      return (← body frame node).unwrap.orNull
  | .builtin f, args => perform (f.run args)
  | callee, _ => perform do EvalM.failWith (.notCallable (← EvalM.kindOf callee))

/-- Calls a value, with at most `depth` calls of functions inside each other. -/
def callAbortWithin : Nat → AbortCallRule
  | 0 => callAbortWith fun _ _ => throw (.fault .depthExceeded)
  | depth + 1 => callAbortWith (Node.runAbort (callAbortWithin depth))

/-- The value of a tree in a frame, where calls may be nested up to a given depth. -/
def Node.evaluateOrAbort (depth : Nat) (frame : FrameId) (node : Node) : AbortM Value :=
  node.runAbort (callAbortWithin depth) frame

/-! ### Agreement -/

theorem AbortM.exec_bind {α β : Type} (x : AbortM α) (k : α → AbortM β) (store : Store) :
    (x >>= k).exec store =
      match x.exec store with
      | (.ok a, store) => (k a).exec store
      | (.error stop, store) => (.error stop, store) := by
  simp only [exec, ExceptT.run_bind, StateT.run_bind]
  change (match (ExceptT.run x).run store with | (r, after) => _ : Except Stop β × Store) = _
  rcases (ExceptT.run x).run store with ⟨_ | a, after⟩ <;> rfl

theorem AbortM.exec_step {α : Type} (x : EvalM α) (store : Store) :
    (step x).exec store =
      match x.exec store with
      | (.ok a, store) => (.ok a, store)
      | (.error fault, store) => (.error (.fault fault), store) := by
  change (Except.mapError Stop.fault ((ExceptT.run x).run store).1,
    ((ExceptT.run x).run store).2) = _
  unfold EvalM.exec
  rcases (ExceptT.run x).run store with ⟨_ | a, after⟩ <;> rfl

/-- How two evaluations ended: with the same store, which is free of failures, and with results that
correspond.  A result `b` of the one that aborts is `given b` for the other and satisfies `good`,
and where it was aborted by a failure, the other one has `failed` as its result. -/
inductive SameEnd {α β : Type} (given : β → α) (failed : Value → α) (good : β → Prop) :
    Except Fault α × Store → Except Stop β × Store → Prop
  | given {b : β} {store : Store} (hgood : good b) (hstore : store.ErrorFree) :
      SameEnd given failed good (.ok (given b), store) (.ok b, store)
  | failed {id : ObjectId} {failure : Failure} {store : Store} (hstore : store.ErrorFree) :
      SameEnd given failed good (.ok (failed (.error id failure)), store)
        (.error (.failed id failure), store)
  | fault {fault : Fault} {store : Store} (hstore : store.ErrorFree) :
      SameEnd given failed good (.error fault, store) (.error (.fault fault), store)

/-- From a store without failures both evaluations come to the same end. -/
def Agrees {α β : Type} (given : β → α) (failed : Value → α) (good : β → Prop) (x : EvalM α)
    (y : AbortM β) : Prop :=
  ∀ store, store.ErrorFree → SameEnd given failed good (x.exec store) (y.exec store)

/-- Both evaluations of a value come to the same end. -/
abbrev AgreesOnValue (x : EvalM Value) (y : AbortM Value) : Prop :=
  Agrees (fun value => value) (fun failure => failure) Value.ErrorFree x y

/-- Both evaluations of several values come to the same end. -/
abbrev AgreesOnValues (x : EvalM (Except Value (List Value))) (y : AbortM (List Value)) : Prop :=
  Agrees Except.ok Except.error Value.AllErrorFree x y

section Agrees

variable {α β γ δ : Type} {given : β → α} {failed : Value → α} {good : β → Prop}
  {given' : δ → γ} {failed' : Value → γ} {good' : δ → Prop} {x : EvalM α} {y : AbortM β}

theorem agrees_pure {b : β} (h : good b) : Agrees given failed good (pure (given b)) (pure b) :=
  fun _ hstore => .given h hstore

theorem agrees_throw (fault : Fault) :
    Agrees given failed good (throw fault) (throw (.fault fault)) :=
  fun _ hstore => .fault hstore

/-- The rule for sequence.  What comes behind the first evaluation may be anything on a good result,
but it has to pass a failure on. -/
theorem Agrees.bind {k : α → EvalM γ} {k' : β → AbortM δ} (h : Agrees given failed good x y)
    (hgood : ∀ b, good b → Agrees given' failed' good' (k (given b)) (k' b))
    (hfailed : ∀ id failure,
      k (failed (.error id failure)) = pure (failed' (.error id failure))) :
    Agrees given' failed' good' (x >>= k) (y >>= k') := by
  intro store hstore
  have hend := h store hstore
  rw [EvalM.exec_bind, AbortM.exec_bind]
  generalize x.exec store = p at hend
  generalize y.exec store = q at hend
  cases hend with
  | given hb hafter => exact hgood _ hb _ hafter
  | failed hafter =>
    -- one evaluation is over, and the other has only the failure to pass on
    dsimp only
    rw [hfailed]
    exact .failed hafter
  | fault hafter => exact .fault hafter

/-- A step that does not fail is the same for both. -/
theorem Agrees.step_bind {mid : α → Prop} {k : α → EvalM γ} {k' : α → AbortM δ} (h : Keeps x mid)
    (hmid : ∀ a, mid a → Agrees given' failed' good' (k a) (k' a)) :
    Agrees given' failed' good' (x >>= k) (step x >>= k') := by
  intro store hstore
  obtain ⟨hafter, ha⟩ := h store hstore
  rw [EvalM.exec_bind, AbortM.exec_bind, AbortM.exec_step]
  rcases hx : x.exec store with ⟨fault | a, after⟩
  · rw [hx] at hafter
    exact .fault hafter
  · rw [hx] at hafter ha
    exact hmid a (ha a rfl) after hafter

/-- The check for a failure is no check on a value without failures. -/
theorem Agrees.unless {value : Value} {other : α} (hvalue : value.ErrorFree)
    (h : Agrees given failed good x y) :
    Agrees given failed good (if value.isError then pure other else x) y := by
  rw [if_neg (by simp [hvalue.isError])]
  exact h

/-- An operation whose outcome is a failure or free of failures is performed by both. -/
theorem agrees_perform {x : EvalM Value} (h : Keeps x Value.IsOutcome) :
    AgreesOnValue x (perform x) := by
  intro store hstore
  obtain ⟨hafter, houtcome⟩ := h store hstore
  rw [perform, AbortM.exec_bind, AbortM.exec_step]
  rcases hx : x.exec store with ⟨fault | value, after⟩
  · rw [hx] at hafter
    exact .fault hafter
  · rw [hx] at hafter houtcome
    rcases houtcome value rfl with herror | hfree
    · cases value with
      | error id failure => exact .failed hafter
      | _ => cases herror
    · cases value with
      | error id failure => exact absurd hfree (Value.not_errorFree_error id failure)
      | _ => exact .given hfree hafter

end Agrees

/-! ### Steps that insist -/

namespace AbortM

theorem insist_eq {value : Value} (h : value.ErrorFree) : insist value = pure () :=
  if_pos h

theorem insistEach_eq {values : List Value} (h : Value.AllErrorFree values) :
    insistEach values = pure () := by
  induction values with
  | nil => rfl
  | cons value values ih =>
    rw [insistEach, insist_eq (h value List.mem_cons_self), pure_bind,
      ih fun v hv => h v (List.mem_cons_of_mem value hv)]

theorem ext {α : Type} {x y : AbortM α} (h : ∀ store, x.exec store = y.exec store) : x = y :=
  funext h

theorem step_bind {α β : Type} (x : EvalM α) (k : α → EvalM β) :
    step (x >>= k) = step x >>= fun a => step (k a) := by
  refine ext fun store => ?_
  rw [exec_step, EvalM.exec_bind, exec_bind, exec_step]
  rcases x.exec store with ⟨_ | a, after⟩
  · rfl
  · simp only [exec_step]

theorem bind_eq (frame : FrameId) (name : String) {value : Value} (h : value.ErrorFree) :
    AbortM.bind frame name value = step (EvalM.bind frame name value) := by
  rw [AbortM.bind, insist_eq h, pure_bind]

end AbortM

/-! ### Trees -/

/-- Both rules for calls come to the same end on values without failures. -/
def CallsAgree (call : CallRule) (call' : AbortCallRule) : Prop :=
  ∀ callee args, callee.ErrorFree → Value.AllErrorFree args →
    AgreesOnValue (call callee args) (call' callee args)

namespace Node

variable {call : CallRule} {call' : AbortCallRule}

mutual

theorem eval_agrees (hcall : CallsAgree call call') (frame : FrameId) :
    (node : Node) → AgreesOnValue (node.eval call frame) (node.runAbort call' frame)
  | program statements => by
    rw [eval, runAbort]
    exact evalProgram_agrees hcall frame Value.errorFree_nothing statements
  | letStatement token target value => by
    rw [eval, runAbort]
    refine (eval_agrees hcall frame value).bind (fun v hv => .unless hv ?_) fun _ _ => rfl
    rw [AbortM.bind_eq _ _ hv.orNull]
    exact .step_bind (.bindName frame target.name hv.orNull) fun _ _ => agrees_pure rfl
  | returnStatement token none => by
    rw [eval, runAbort]
    exact agrees_perform (.newReturned rfl)
  | returnStatement token (some value) => by
    rw [eval, runAbort]
    refine (eval_agrees hcall frame value).bind (fun v hv => .unless hv ?_) fun _ _ => rfl
    rw [AbortM.insist_eq hv.orNull, pure_bind]
    exact agrees_perform (.newReturned hv.orNull)
  | expressionStatement token expression => by
    rw [eval, runAbort]
    exact eval_agrees hcall frame expression
  | block token statements => by
    rw [eval, runAbort]
    exact evalBlock_agrees hcall frame Value.errorFree_nothing statements
  | identifier ident => by
    rw [eval, runAbort]
    exact agrees_perform (evalName_keeps frame ident.name)
  | integer token value => by
    rw [eval, runAbort]
    exact agrees_pure rfl
  | string token value => by
    rw [eval, runAbort]
    exact agrees_perform (.newString value)
  | boolean token value => by
    rw [eval, runAbort]
    exact agrees_pure rfl
  | unary token operator right => by
    rw [eval, runAbort]
    refine (eval_agrees hcall frame right).bind (fun v hv => .unless hv ?_) fun _ _ => rfl
    exact agrees_perform (Eval.unary_keeps operator v.orNull)
  | binary token left operator right => by
    rw [eval, runAbort]
    refine (eval_agrees hcall frame left).bind (fun l hl => .unless hl ?_) fun _ _ => rfl
    refine (eval_agrees hcall frame right).bind (fun r hr => .unless hr ?_) fun _ _ => rfl
    exact agrees_perform (Eval.binary_keeps operator l.orNull r.orNull)
  | conditional token condition consequence none => by
    rw [eval, runAbort]
    refine (eval_agrees hcall frame condition).bind (fun c hc => .unless hc ?_) fun _ _ => rfl
    split
    · exact (eval_agrees hcall frame consequence).bind (fun v hv => agrees_pure hv.orNull)
        fun _ _ => rfl
    · exact agrees_pure rfl
  | conditional token condition consequence (some alternative) => by
    rw [eval, runAbort]
    refine (eval_agrees hcall frame condition).bind (fun c hc => .unless hc ?_) fun _ _ => rfl
    split
    · exact (eval_agrees hcall frame consequence).bind (fun v hv => agrees_pure hv.orNull)
        fun _ _ => rfl
    · exact (eval_agrees hcall frame alternative).bind (fun v hv => agrees_pure hv.orNull)
        fun _ _ => rfl
  | function token parameters body => by
    rw [eval, runAbort]
    exact .step_bind .fresh fun _ _ => agrees_pure rfl
  | Node.call token callee arguments => by
    rw [eval, runAbort]
    refine (eval_agrees hcall frame callee).bind (fun f hf => .unless hf ?_) fun _ _ => rfl
    refine (evalEach_agrees hcall frame arguments).bind (fun args hargs => ?_) fun _ _ => rfl
    rw [AbortM.insistEach_eq hargs, pure_bind]
    exact hcall f args hf hargs
  | array token elements => by
    rw [eval, runAbort]
    refine (evalEach_agrees hcall frame elements).bind (fun es hes => ?_) fun _ _ => rfl
    rw [AbortM.insistEach_eq hes, pure_bind]
    exact agrees_perform (.newArray hes)
  | index token target position => by
    rw [eval, runAbort]
    refine (eval_agrees hcall frame target).bind (fun t ht => .unless ht ?_) fun _ _ => rfl
    refine (eval_agrees hcall frame position).bind (fun p hp => .unless hp ?_) fun _ _ => rfl
    exact agrees_perform (Eval.index_keeps ht p)
  | hash token pairs => by
    rw [eval, runAbort]
    have hnone : Value.EntriesErrorFree [] := by simp [Value.EntriesErrorFree]
    exact evalPairs_agrees hcall frame hnone pairs
  | foreign kind text => by
    rw [eval, runAbort]
    exact agrees_throw _

theorem evalProgram_agrees (hcall : CallsAgree call call') (frame : FrameId) {last : Value}
    (hlast : last.ErrorFree) : (statements : List Node) →
    AgreesOnValue (evalProgram call frame last statements) (runProgram call' frame last statements)
  | [] => by
    rw [evalProgram, runProgram]
    exact agrees_pure hlast
  | statement :: statements => by
    rw [evalProgram, runProgram]
    refine (eval_agrees hcall frame statement).bind (fun v hv => ?_) fun _ _ => rfl
    rw [hv.isSignal_eq]
    split
    · exact agrees_pure hv.unwrap
    · exact evalProgram_agrees hcall frame hv statements

theorem evalBlock_agrees (hcall : CallsAgree call call') (frame : FrameId) {last : Value}
    (hlast : last.ErrorFree) : (statements : List Node) →
    AgreesOnValue (evalBlock call frame last statements) (runBlock call' frame last statements)
  | [] => by
    rw [evalBlock, runBlock]
    exact agrees_pure hlast
  | statement :: statements => by
    rw [evalBlock, runBlock]
    refine (eval_agrees hcall frame statement).bind (fun v hv => ?_) fun _ _ => rfl
    rw [hv.isSignal_eq]
    split
    · exact agrees_pure hv
    · exact evalBlock_agrees hcall frame hv statements

theorem evalEach_agrees (hcall : CallsAgree call call') (frame : FrameId) : (nodes : List Node) →
    AgreesOnValues (evalEach call frame nodes) (runEach call' frame nodes)
  | [] => by
    rw [evalEach, runEach]
    exact agrees_pure (by simp [Value.AllErrorFree])
  | node :: nodes => by
    rw [evalEach, runEach]
    refine (eval_agrees hcall frame node).bind (fun v hv => .unless hv ?_) fun _ _ => rfl
    refine (evalEach_agrees hcall frame nodes).bind (fun vs hvs => ?_) fun _ _ => rfl
    exact agrees_pure (List.forall_mem_cons.2 ⟨hv, hvs⟩)

theorem evalPairs_agrees (hcall : CallsAgree call call') (frame : FrameId)
    {entries : List (HashKey × Value × Value)} (hentries : Value.EntriesErrorFree entries) :
    (pairs : List (Node × Node)) →
    AgreesOnValue (evalPairs call frame entries pairs) (runPairs call' frame entries pairs)
  | [] => by
    rw [evalPairs, runPairs]
    exact agrees_perform (.newHash hentries)
  | (key, value) :: pairs => by
    rw [evalPairs, runPairs]
    refine (eval_agrees hcall frame key).bind (fun k hk => .unless hk ?_) fun _ _ => rfl
    cases k.key? with
    | none => exact agrees_perform (.bind (.kindOf k) fun _ _ => .failWith _)
    | some hashKey =>
      refine (eval_agrees hcall frame value).bind (fun v hv => .unless hv ?_) fun _ _ => rfl
      rw [AbortM.insist_eq hk, AbortM.insist_eq hv, pure_bind, pure_bind]
      exact evalPairs_agrees hcall frame (hentries.insert hashKey hk hv) pairs

end

end Node

/-! ### Calls -/

theorem bindParameters_keeps (frame : FrameId) (parameters : List Identifier) {args : List Value}
    (h : Value.AllErrorFree args) : Keeps (bindParameters frame parameters args) fun _ => True := by
  induction parameters generalizing args with
  | nil => exact .pure trivial
  | cons parameter parameters ih =>
    cases args with
    | nil => exact .pure trivial
    | cons arg args =>
      obtain ⟨harg, hargs⟩ := List.forall_mem_cons.1 h
      exact .bind (.bindName frame parameter.name harg) fun _ _ => ih hargs

theorem bindParametersAbort_eq (frame : FrameId) (parameters : List Identifier)
    {args : List Value} (h : Value.AllErrorFree args) :
    bindParametersAbort frame parameters args = step (bindParameters frame parameters args) := by
  induction parameters generalizing args with
  | nil => rfl
  | cons parameter parameters ih =>
    cases args with
    | nil => rfl
    | cons arg args =>
      obtain ⟨harg, hargs⟩ := List.forall_mem_cons.1 h
      rw [bindParametersAbort, bindParameters, AbortM.bind_eq _ _ harg, ih hargs, AbortM.step_bind]

theorem callWith_agrees {body : FrameId → Node → EvalM Value}
    {body' : FrameId → Node → AbortM Value}
    (h : ∀ frame node, AgreesOnValue (body frame node) (body' frame node)) :
    CallsAgree (callWith body) (callAbortWith body') := by
  intro callee args _ hargs
  cases callee with
  | function id parameters node scope =>
    rw [callWith, callAbortWith]
    split
    · exact agrees_perform (.failWith _)
    · refine .step_bind (.enclose scope) fun frame _ => ?_
      rw [bindParametersAbort_eq frame parameters hargs]
      refine .step_bind (bindParameters_keeps frame parameters hargs) fun _ _ => ?_
      exact (h frame node).bind (fun v hv => agrees_pure hv.unwrap.orNull) fun _ _ => rfl
  | builtin f => exact agrees_perform (f.run_keeps hargs)
  | _ => exact agrees_perform (.bind (.kindOf _) fun _ _ => .failWith _)

theorem callWithin_agrees (depth : Nat) :
    CallsAgree (callWithin depth) (callAbortWithin depth) := by
  induction depth with
  -- at the limit every body of a function is the same fault
  | zero => exact callWith_agrees fun _ _ => agrees_throw _
  | succ depth ih => exact callWith_agrees (Node.eval_agrees ih)

theorem eval_agrees_evaluateOrAbort (depth : Nat) (frame : FrameId) (node : Node) :
    AgreesOnValue (node.eval (callWithin depth) frame) (node.evaluateOrAbort depth frame) :=
  Node.eval_agrees (callWithin_agrees depth) frame node

/-! ### Reachable stores -/

/-- The stores that the evaluation of programs leads to, one after another, in any frames and with
calls up to any depth. -/
inductive Store.Reachable : Store → Prop
  | initial : Reachable .initial
  | evaluate {store : Store} (h : store.Reachable) (depth : Nat) (frame : FrameId)
      (text : List Char) :
      Reachable (((parse text).program.eval (callWithin depth) frame).exec store).2

theorem SameEnd.errorFree {α β : Type} {given : β → α} {failed : Value → α} {good : β → Prop}
    {p : Except Fault α × Store} {q : Except Stop β × Store} (h : SameEnd given failed good p q) :
    p.2.ErrorFree := by
  cases h <;> assumption

theorem Store.Reachable.errorFree {store : Store} (h : store.Reachable) : store.ErrorFree := by
  induction h with
  | initial => exact errorFree_initial
  | evaluate _ depth frame text ih =>
    exact (eval_agrees_evaluateOrAbort depth frame _ _ ih).errorFree

/-- **Failures behave like exceptions.**  No reachable store holds a failure, and on a store that
holds none, a tree comes to the same end as in the interpreter in which a failure aborts everything:
with the same result, bindings and output, and without a failure ever being bound, passed as an
argument, stored or returned. -/
theorem failures_abort (depth : Nat) (frame : FrameId) (node : Node) (store : Store) :
    (store.Reachable → store.ErrorFree) ∧
      (store.ErrorFree → SameEnd (fun value => value) (fun failure => failure) Value.ErrorFree
        ((node.eval (callWithin depth) frame).exec store)
        ((node.evaluateOrAbort depth frame).exec store)) :=
  ⟨Store.Reachable.errorFree, eval_agrees_evaluateOrAbort depth frame node store⟩

/-- The initial store holds no failure, so that both interpreters come to the same end with a
program that fails before it prints. -/
theorem failures_abort_initial :
    Store.initial.ErrorFree ∧
      SameEnd (fun value => value) (fun failure => failure) Value.ErrorFree
        (((parse "x; puts(1)".toList).program.eval (callWithin maxCallDepth)
          Store.global).exec .initial)
        (((parse "x; puts(1)".toList).program.evaluateOrAbort maxCallDepth
          Store.global).exec .initial) :=
  have h := failures_abort maxCallDepth Store.global (parse "x; puts(1)".toList).program .initial
  ⟨h.1 .initial, h.2 Store.errorFree_initial⟩

end MonkeyLang
