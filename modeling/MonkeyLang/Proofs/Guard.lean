import MonkeyLang.Proofs.Operation

/-!
# An interpreter with guards

The interpreter of the language takes for granted that the values it uses are fit for their use, and
that its own divisions and accesses to lists cannot go wrong.  `Node.evalGuarded` does the same as
`Node.eval`, step by step, but takes nothing for granted.

* Whenever a value is used, it asks a rule `allows : Use → Value → Bool` whether the value may be
  used like that, and stops with `Trap.misused` if it may not.
* The division of integers and the access to an element of a list are the partial operations that
  they are in an implementation: they stop with `Trap.zeroDivisor` and `Trap.outOfRange`.

That an evaluation never runs into a guard is said by the equality of both interpreters.  For the
operators and the builtin functions it holds always (`Guard.binary_eq`, `Guard.index_eq`,
`Guard.run_eq`): they look before they divide or take an element.
-/

namespace MonkeyLang

/-- What a value is used for. -/
inductive Use
  | bound | wrapped | statement | operand | condition | callee | argument | element | target
  | position | key | entry | outcome
  deriving DecidableEq

/-- Why the interpreter with guards stopped: a fault, a use of a value that is not allowed, or an
operation of its own that was not possible. -/
inductive Trap
  | fault (fault : Fault)
  | misused (use : Use) (value : Value)
  | zeroDivisor
  | outOfRange

/-- The monad of evaluations that may stop for a reason of type `ε`. -/
abbrev StopM (ε : Type) := ExceptT ε (StateM Store)

/-- The monad of evaluation with guards. -/
abbrev GuardM := StopM Trap

/-- The meaning of calling a value with arguments. -/
abbrev GuardedCallRule := Value → List Value → GuardM Value

namespace StopM

variable {ε α β : Type}

/-- Runs an evaluation on a store. -/
def exec (x : StopM ε α) (store : Store) : Except ε α × Store :=
  (ExceptT.run x).run store

/-- An evaluation in which `stop` tells what a fault is. -/
def lift (stop : Fault → ε) (x : EvalM α) : StopM ε α :=
  ExceptT.adapt stop x

end StopM

namespace Guard

open EvalM

/-- A step of the interpreter without guards. -/
def step {α : Type} (x : EvalM α) : GuardM α :=
  StopM.lift Trap.fault x

/-- Uses a value, if that is allowed. -/
def check (allows : Use → Value → Bool) (use : Use) (value : Value) : GuardM Value :=
  if allows use value then return value else throw (.misused use value)

/-- The quotient without its fractional part, by a division that fails for a zero divisor. -/
def quotient (a b : Int) : GuardM Int :=
  if b = 0 then throw .zeroDivisor
  else
    let magnitude : Int := (a.natAbs / b.natAbs : Nat)
    return if a < 0 ↔ b < 0 then magnitude else -magnitude

/-- The element at a position, which must be inside the list. -/
def elementAt (elements : List Value) (position : Nat) : GuardM Value :=
  match elements[position]? with
  | some value => return value
  | none => throw .outOfRange

/-- An operator between two values. -/
def binary (operator : String) (left right : Value) : GuardM Value :=
  match left, right with
  | .integer a, .integer b =>
    if operator = "/" then
      if b = 0 then step (failWith .divisionByZero)
      else return .integer (Signed64.wrap (← quotient a b))
    else step (Eval.integerBinary operator a b)
  | left, right => step (Eval.generalBinary operator left right)

/-- A value indexed by another. -/
def index (target position : Value) : GuardM Value :=
  match target, position with
  | .array _ elements, .integer position =>
    if position < 0 ∨ elements.length ≤ position then return .null
    else elementAt elements position.toNat
  | target, position => step (Eval.index target position)

/-- Applies a builtin function. -/
def run (builtin : Builtin) (args : List Value) : GuardM Value :=
  match builtin, args with
  | .first, [.array _ elements] =>
    if elements = [] then return .null else elementAt elements 0
  | .last, [.array _ elements] =>
    if elements = [] then return .null else elementAt elements (elements.length - 1)
  | builtin, args => step (builtin.run args)

end Guard

open Guard

namespace Node

mutual

/-- The outcome of a tree in a frame. -/
def evalGuarded (allows : Use → Value → Bool) (call : GuardedCallRule) (frame : FrameId) :
    Node → GuardM Value
  | program statements => do
    check allows .outcome (← guardedProgram allows call frame .nothing statements)
  | letStatement _ target value => do
    let value ← check allows .bound (← value.evalGuarded allows call frame)
    if value.isError then return value
    step (EvalM.bind frame target.name value.orNull)
    return .nothing
  | returnStatement _ none => step (EvalM.newReturned .null)
  | returnStatement _ (some value) => do
    let value ← check allows .wrapped (← value.evalGuarded allows call frame)
    if value.isError then return value
    step (EvalM.newReturned value.orNull)
  | expressionStatement _ expression => do
    check allows .statement (← expression.evalGuarded allows call frame)
  | block _ statements => guardedBlock allows call frame .nothing statements
  | identifier ident => step (evalName frame ident.name)
  | integer _ value => return .integer value
  | string _ value => step (EvalM.newString value)
  | boolean _ value => return .boolean value
  | unary _ operator right => do
    let right ← check allows .operand (← right.evalGuarded allows call frame)
    if right.isError then return right
    step (Eval.unary operator right.orNull)
  | binary _ left operator right => do
    let left ← check allows .operand (← left.evalGuarded allows call frame)
    if left.isError then return left
    let right ← check allows .operand (← right.evalGuarded allows call frame)
    if right.isError then return right
    Guard.binary operator left.orNull right.orNull
  | conditional _ condition consequence none => do
    let condition ← check allows .condition (← condition.evalGuarded allows call frame)
    if condition.isError then return condition
    if condition.orNull.isTruthy then return (← consequence.evalGuarded allows call frame).orNull
    return .null
  | conditional _ condition consequence (some alternative) => do
    let condition ← check allows .condition (← condition.evalGuarded allows call frame)
    if condition.isError then return condition
    if condition.orNull.isTruthy then return (← consequence.evalGuarded allows call frame).orNull
    return (← alternative.evalGuarded allows call frame).orNull
  | function _ parameters body =>
    return .function (← step EvalM.fresh) parameters body frame
  | Node.call _ callee arguments => do
    let callee ← check allows .callee (← callee.evalGuarded allows call frame)
    if callee.isError then return callee
    match ← guardedEach allows .argument call frame arguments with
    | .ok arguments => call callee arguments
    | .error failure => return failure
  | array _ elements => do
    match ← guardedEach allows .element call frame elements with
    | .ok elements => step (EvalM.newArray elements)
    | .error failure => return failure
  | index _ target position => do
    let target ← check allows .target (← target.evalGuarded allows call frame)
    if target.isError then return target
    let position ← check allows .position (← position.evalGuarded allows call frame)
    if position.isError then return position
    Guard.index target position
  | hash _ pairs => guardedPairs allows call frame [] pairs
  | foreign kind _ => throw (.fault (.unknownNode kind))

/-- The outcome of the statements of a program, where `last` is the outcome of the one before. -/
def guardedProgram (allows : Use → Value → Bool) (call : GuardedCallRule) (frame : FrameId)
    (last : Value) : List Node → GuardM Value
  | [] => return last
  | statement :: statements => do
    let outcome ← statement.evalGuarded allows call frame
    if outcome.isSignal then return outcome.unwrap
    guardedProgram allows call frame outcome statements

/-- The outcome of the statements of a block, where `last` is the outcome of the one before. -/
def guardedBlock (allows : Use → Value → Bool) (call : GuardedCallRule) (frame : FrameId)
    (last : Value) : List Node → GuardM Value
  | [] => return last
  | statement :: statements => do
    let outcome ← statement.evalGuarded allows call frame
    if outcome.isSignal then return outcome
    guardedBlock allows call frame outcome statements

/-- The values of several trees, from left to right and all for the same use, or the first
failure. -/
def guardedEach (allows : Use → Value → Bool) (use : Use) (call : GuardedCallRule)
    (frame : FrameId) : List Node → GuardM (Except Value (List Value))
  | [] => return .ok []
  | node :: nodes => do
    let value ← check allows use (← node.evalGuarded allows call frame)
    if value.isError then return .error value
    return (← guardedEach allows use call frame nodes).map (value :: ·)

/-- The hash that a literal describes, where `entries` are those of the pairs before. -/
def guardedPairs (allows : Use → Value → Bool) (call : GuardedCallRule) (frame : FrameId)
    (entries : List (HashKey × Value × Value)) : List (Node × Node) → GuardM Value
  | [] => step (EvalM.newHash entries)
  | (key, value) :: pairs => do
    let key ← check allows .key (← key.evalGuarded allows call frame)
    if key.isError then return key
    match key.key? with
    | none => step do EvalM.failWith (.unusableKey (← EvalM.kindOf key))
    | some hashKey => do
      let value ← check allows .entry (← value.evalGuarded allows call frame)
      if value.isError then return value
      guardedPairs allows call frame (Assoc.insert hashKey (key, value) entries) pairs

end

end Node

/-- Binds parameters to arguments in a frame. -/
def bindParametersGuarded (allows : Use → Value → Bool) (frame : FrameId) :
    List Identifier → List Value → GuardM Unit
  | parameter :: parameters, arg :: args => do
    step (EvalM.bind frame parameter.name (← check allows .bound arg))
    bindParametersGuarded allows frame parameters args
  | _, _ => return ()

/-- Calls a value, where `body` tells how the body of a function is evaluated. -/
def callGuardedWith (allows : Use → Value → Bool) (body : FrameId → Node → GuardM Value) :
    GuardedCallRule
  | .function _ parameters node scope, args => do
    if args.length ≠ parameters.length then
      step (EvalM.failWith (.parameterCount parameters.length args.length))
    else
      let frame ← step (EvalM.enclose scope)
      bindParametersGuarded allows frame parameters args
      return (← body frame node).unwrap.orNull
  | .builtin f, args => Guard.run f args
  | callee, _ => step do EvalM.failWith (.notCallable (← EvalM.kindOf callee))

/-- Calls a value, with at most `depth` calls of functions inside each other. -/
def callGuardedWithin (allows : Use → Value → Bool) : Nat → GuardedCallRule
  | 0 => callGuardedWith allows fun _ _ => throw (.fault .depthExceeded)
  | depth + 1 =>
    callGuardedWith allows (Node.evalGuarded allows (callGuardedWithin allows depth))

/-! ### Equations -/

namespace StopM

variable {ε α β : Type}

@[simp] theorem exec_pure (a : α) (store : Store) :
    (pure a : StopM ε α).exec store = (.ok a, store) := rfl

theorem exec_bind (x : StopM ε α) (k : α → StopM ε β) (store : Store) :
    (x >>= k).exec store =
      match x.exec store with
      | (.ok a, store) => (k a).exec store
      | (.error stop, store) => (.error stop, store) := by
  simp only [exec, ExceptT.run_bind, StateT.run_bind]
  change (match (ExceptT.run x).run store with | (r, after) => _ : Except ε β × Store) = _
  rcases (ExceptT.run x).run store with ⟨_ | a, after⟩ <;> rfl

theorem exec_lift (stop : Fault → ε) (x : EvalM α) (store : Store) :
    (lift stop x).exec store = ((x.exec store).1.mapError stop, (x.exec store).2) := rfl

theorem ext {x y : StopM ε α} (h : ∀ store, x.exec store = y.exec store) : x = y :=
  funext h

@[simp] theorem lift_pure (stop : Fault → ε) (a : α) : lift stop (pure a) = pure a := rfl

theorem lift_id (x : EvalM α) : lift id x = x := by
  refine ext fun store => ?_
  rw [exec_lift]
  change _ = x.exec store
  rcases x.exec store with ⟨_ | a, after⟩ <;> rfl

theorem exec_lift_congr {stop : Fault → ε} {x y : EvalM α} {store : Store}
    (h : x.exec store = y.exec store) : (lift stop x).exec store = (lift stop y).exec store := by
  rw [exec_lift, exec_lift, h]

theorem lift_bind (stop : Fault → ε) (x : EvalM α) (k : α → EvalM β) :
    lift stop (x >>= k) = lift stop x >>= fun a => lift stop (k a) := by
  refine ext fun store => ?_
  rw [exec_lift, EvalM.exec_bind, exec_bind, exec_lift]
  rcases x.exec store with ⟨_ | a, after⟩ <;> rfl

end StopM

namespace Guard

theorem quotient_eq {a b : Int} (hb : b ≠ 0) :
    ∃ q, Signed64.quotient? a b = some q ∧ quotient a b = pure q := by
  rw [Signed64.quotient?, quotient, if_neg hb, if_neg hb]
  exact ⟨_, rfl, rfl⟩

theorem integerBinary_div (a b : Int) :
    Eval.integerBinary "/" a b = match Signed64.quotient? a b with
      | some q => return .integer (Signed64.wrap q)
      | none => EvalM.failWith .divisionByZero := rfl

/-- Where integers are divided, the divisor is never zero. -/
theorem binary_eq (operator : String) (left right : Value) :
    binary operator left right = step (Eval.binary operator left right) := by
  unfold binary
  split
  · next a b =>
    rw [Eval.binary]
    split
    · next hoperator =>
      rw [hoperator, integerBinary_div]
      by_cases hb : b = 0
      · rw [if_pos hb, Signed64.quotient?, if_pos hb]
      · obtain ⟨q, hq, hquotient⟩ := quotient_eq (a := a) hb
        rw [if_neg hb, hq, hquotient]
        rfl
    · rfl
  · next hintegers => rw [Eval.binary]; exact hintegers

theorem elementAt_eq {elements : List Value} {position : Nat} {value : Value}
    (h : elements[position]? = some value) : elementAt elements position = pure value := by
  rw [elementAt, h]

/-- Where an element of an array is taken, the position is never outside of it. -/
theorem index_eq (target position : Value) :
    index target position = step (Eval.index target position) := by
  unfold index
  split
  · next elements position =>
    simp only [Eval.index, Eval.elementAt]
    split
    · next houtside =>
      rcases houtside with hneg | hlength
      · rw [if_pos hneg]
        rfl
      · have hnone : elements[position.toNat]? = none := List.getElem?_eq_none (by omega)
        rw [hnone]
        split <;> rfl
    · next hinside =>
      have hsome := List.getElem?_eq_getElem (l := elements) (i := position.toNat) (by omega)
      rw [if_neg (by omega), elementAt_eq hsome, hsome]
      rfl
  · rfl

/-- The first and the last element are taken from arrays that are not empty. -/
theorem run_eq (f : Builtin) (args : List Value) : run f args = step (f.run args) := by
  unfold run
  split
  · next elements =>
    cases elements with
    | nil => rfl
    | cons value values => rfl
  · next id elements =>
    have hlast : Builtin.last.run [.array id elements] =
        pure (elements.getLast?.getD .null) := rfl
    rw [hlast]
    split
    · next hempty => rw [hempty]; rfl
    · next hne =>
      have hsome := List.getLast?_eq_some_getLast hne
      rw [elementAt_eq (List.getLast?_eq_getElem? ▸ hsome), hsome]
      rfl
  · rfl

end Guard

end MonkeyLang
