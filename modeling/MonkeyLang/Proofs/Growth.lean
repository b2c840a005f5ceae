import MonkeyLang.Proofs.Operation

/-!
# Bindings are never taken back

`Store.Evolves before after` says that `after` was made from `before` by the steps of evaluation:
names were bound, frames were added, serial numbers were taken and lines were printed.  None of
these steps takes a binding away, so a name that is bound in a frame remains bound there
(`Store.Evolves.keys_subset`), though it may come to have another value.

Evaluation makes no other steps (`Node.eval_grows`, `callWithin_grows`), whatever is evaluated and however it ends.
-/

namespace MonkeyLang

namespace Store

/-- The second store was made from the first one by the steps of evaluation. -/
inductive Evolves (before : Store) : Store → Prop
  | refl : Evolves before before
  | bind {store : Store} (h : Evolves before store) (frame : FrameId) (name : String)
      (value : Value) : Evolves before (store.bind frame name value)
  | addFrame {store : Store} (h : Evolves before store) (outer : Option FrameId) :
      Evolves before (store.addFrame outer).2
  | sameFrames {store after : Store} (h : Evolves before store)
      (hframes : after.frames = store.frames) : Evolves before after

variable {a b c : Store}

theorem Evolves.trans (hab : a.Evolves b) (hbc : b.Evolves c) : a.Evolves c := by
  induction hbc with
  | refl => exact hab
  | bind _ frame name value ih => exact ih.bind frame name value
  | addFrame _ outer ih => exact ih.addFrame outer
  | sameFrames _ hframes ih => exact ih.sameFrames hframes

theorem keys_bind (store : Store) (frame : FrameId) (name : String) (value : Value) (f : FrameId) :
    Assoc.keys (store.bindings f) ⊆ Assoc.keys ((store.bind frame name value).bindings f) := by
  simp only [bindings, Store.bind, Array.getElem?_modify]
  split
  · cases store.frames[f]? with
    | none => exact List.Subset.refl _
    | some old =>
      simp only [Option.map_some, Option.getD_some, Assoc.keys_insert]
      split
      · exact List.Subset.refl _
      · exact List.subset_append_left _ _
  · exact List.Subset.refl _

theorem keys_addFrame (store : Store) (outer : Option FrameId) (f : FrameId) :
    Assoc.keys (store.bindings f) ⊆ Assoc.keys ((store.addFrame outer).2.bindings f) := by
  simp only [bindings, Store.addFrame, Array.getElem?_push]
  split
  · next hnew => simp [hnew, Assoc.keys]
  · exact List.Subset.refl _

/-- A name that is bound in a frame remains bound there. -/
theorem Evolves.keys_subset (h : a.Evolves b) (frame : FrameId) :
    Assoc.keys (a.bindings frame) ⊆ Assoc.keys (b.bindings frame) := by
  induction h with
  | refl => exact List.Subset.refl _
  | bind _ f name value ih => exact List.Subset.trans ih (keys_bind _ f name value frame)
  | addFrame _ outer ih => exact List.Subset.trans ih (keys_addFrame _ outer frame)
  | @sameFrames store after _ hframes ih =>
    have hbindings : after.bindings frame = store.bindings frame := by
      rw [bindings, hframes, ← bindings]
    rwa [hbindings]

end Store

/-- Whatever the store and however it ends, the evaluation changes the store by its steps only. -/
def Grows {α : Type} (x : EvalM α) : Prop :=
  ∀ store : Store, store.Evolves (x.exec store).2

namespace Grows

variable {α β : Type} {x y : EvalM α} {k : α → EvalM β}

theorem pure (a : α) : Grows (pure a) := fun _ => .refl

theorem throw (fault : Fault) : Grows (throw fault : EvalM α) := fun _ => .refl

theorem bind (hx : Grows x) (hk : ∀ a, Grows (k a)) : Grows (x >>= k) := by
  intro store
  have hfirst := hx store
  rw [EvalM.exec_bind]
  rcases hend : x.exec store with ⟨fault | a, after⟩ <;> rw [hend] at hfirst
  · exact hfirst
  · exact hfirst.trans (hk a after)

theorem ite {c : Prop} [Decidable c] (h : Grows x) (h' : Grows y) :
    Grows (if c then x else y) := by
  split <;> assumption

theorem fresh : Grows EvalM.fresh := fun _ => .sameFrames .refl rfl

theorem newReturned (value : Value) : Grows (EvalM.newReturned value) :=
  .bind .fresh fun _ => .pure _

theorem bindName (frame : FrameId) (name : String) (value : Value) :
    Grows (EvalM.bind frame name value) :=
  fun _ => .bind .refl frame name value

theorem enclose (frame : FrameId) : Grows (EvalM.enclose frame) :=
  fun _ => .addFrame .refl (some frame)

end Grows

/-- Operations leave the frames alone. -/
theorem Operates.grows {frames : List FrameId} {args : List Value} {x : EvalM Value}
    (h : Operates frames args x) : Grows x :=
  fun store => .sameFrames .refl (h store).frames_eq

/-! ### Trees -/

namespace Node

variable {call : CallRule}

mutual

theorem eval_grows (hcall : ∀ callee args, Grows (call callee args)) (frame : FrameId) :
    (node : Node) → Grows (node.eval call frame)
  | program statements => by
    rw [eval]
    exact evalProgram_grows hcall frame .nothing statements
  | letStatement token target value => by
    rw [eval]
    refine .bind (eval_grows hcall frame value) fun v => .ite (.pure v) ?_
    exact .bind (.bindName frame target.name v.orNull) fun _ => .pure _
  | returnStatement token none => by
    rw [eval]
    exact .newReturned .null
  | returnStatement token (some value) => by
    rw [eval]
    refine .bind (eval_grows hcall frame value) fun v => .ite (.pure v) ?_
    exact .newReturned v.orNull
  | expressionStatement token expression => by
    rw [eval]
    exact eval_grows hcall frame expression
  | block token statements => by
    rw [eval]
    exact evalBlock_grows hcall frame .nothing statements
  | identifier ident => by
    rw [eval]
    exact (evalName_operates frame ident.name).grows
  | integer token value => by
    rw [eval]
    exact .pure _
  | string token value => by
    rw [eval]
    exact (newString_operates value).grows
  | boolean token value => by
    rw [eval]
    exact .pure _
  | unary token operator right => by
    rw [eval]
    refine .bind (eval_grows hcall frame right) fun r => .ite (.pure r) ?_
    exact (Eval.unary_operates operator r.orNull).grows
  | binary token left operator right => by
    rw [eval]
    refine .bind (eval_grows hcall frame left) fun l => .ite (.pure l) ?_
    refine .bind (eval_grows hcall frame right) fun r => .ite (.pure r) ?_
    exact (Eval.binary_operates operator l.orNull r.orNull).grows
  | conditional token condition consequence none => by
    rw [eval]
    refine .bind (eval_grows hcall frame condition) fun c => .ite (.pure c) (.ite ?_ (.pure _))
    exact .bind (eval_grows hcall frame consequence) fun v => .pure v.orNull
  | conditional token condition consequence (some alternative) => by
    rw [eval]
    refine .bind (eval_grows hcall frame condition) fun c => .ite (.pure c) (.ite ?_ ?_)
    · exact .bind (eval_grows hcall frame consequence) fun v => .pure v.orNull
    · exact .bind (eval_grows hcall frame alternative) fun v => .pure v.orNull
  | function token parameters body => by
    rw [eval]
    exact .bind .fresh fun _ => .pure _
  | Node.call token callee arguments => by
    rw [eval]
    refine .bind (eval_grows hcall frame callee) fun f => .ite (.pure f) ?_
    refine .bind (evalEach_grows hcall frame arguments) fun args => ?_
    cases args with
    | ok args => exact hcall f args
    | error failure => exact .pure failure
  | array token elements => by
    rw [eval]
    refine .bind (evalEach_grows hcall frame elements) fun values => ?_
    cases values with
    | ok values => exact (newArray_operates values).grows
    | error failure => exact .pure failure
  | index token target position => by
    rw [eval]
    refine .bind (eval_grows hcall frame target) fun t => .ite (.pure t) ?_
    refine .bind (eval_grows hcall frame position) fun p => .ite (.pure p) ?_
    exact (Eval.index_operates t p).grows
  | hash token pairs => by
    rw [eval]
    exact evalPairs_grows hcall frame [] pairs
  | foreign kind text => by
    rw [eval]
    exact .throw _

theorem evalProgram_grows (hcall : ∀ callee args, Grows (call callee args)) (frame : FrameId)
    (last : Value) : (statements : List Node) → Grows (evalProgram call frame last statements)
  | [] => by
    rw [evalProgram]
    exact .pure last
  | statement :: statements => by
    rw [evalProgram]
    refine .bind (eval_grows hcall frame statement) fun v => .ite (.pure v.unwrap) ?_
    exact evalProgram_grows hcall frame v statements

theorem evalBlock_grows (hcall : ∀ callee args, Grows (call callee args)) (frame : FrameId)
    (last : Value) : (statements : List Node) → Grows (evalBlock call frame last statements)
  | [] => by
    rw [evalBlock]
    exact .pure last
  | statement :: statements => by
    rw [evalBlock]
    refine .bind (eval_grows hcall frame statement) fun v => .ite (.pure v) ?_
    exact evalBlock_grows hcall frame v statements

theorem evalEach_grows (hcall : ∀ callee args, Grows (call callee args)) (frame : FrameId) :
    (nodes : List Node) → Grows (evalEach call frame nodes)
  | [] => by
    rw [evalEach]
    exact .pure _
  | node :: nodes => by
    rw [evalEach]
    refine .bind (eval_grows hcall frame node) fun v => .ite (.pure _) ?_
    exact .bind (evalEach_grows hcall frame nodes) fun vs => .pure _

theorem evalPairs_grows (hcall : ∀ callee args, Grows (call callee args)) (frame : FrameId)
    (entries : List (HashKey × Value × Value)) : (pairs : List (Node × Node)) →
    Grows (evalPairs call frame entries pairs)
  | [] => by
    rw [evalPairs]
    exact (newHash_operates entries).grows
  | (key, value) :: pairs => by
    rw [evalPairs]
    refine .bind (eval_grows hcall frame key) fun k => .ite (.pure k) ?_
    split
    · exact (unusableKey_operates k).grows
    · refine .bind (eval_grows hcall frame value) fun v => .ite (.pure v) ?_
      exact evalPairs_grows hcall frame _ pairs

end

end Node

/-! ### Calls -/

theorem bindParameters_grows (frame : FrameId) (parameters : List Identifier) (args : List Value) :
    Grows (bindParameters frame parameters args) := by
  induction parameters generalizing args with
  | nil => exact .pure ()
  | cons parameter parameters ih =>
    cases args with
    | nil => exact .pure ()
    | cons arg args => exact .bind (.bindName frame parameter.name arg) fun _ => ih args

theorem callWith_grows {body : FrameId → Node → EvalM Value}
    (h : ∀ frame node, Grows (body frame node)) (callee : Value) (args : List Value) :
    Grows (callWith body callee args) := by
  cases callee with
  | function id parameters node scope =>
    rw [callWith]
    refine .ite (parameterCount_operates _ _).grows (.bind (.enclose scope) fun frame => ?_)
    refine .bind (bindParameters_grows frame parameters args) fun _ => ?_
    exact .bind (h frame node) fun v => .pure v.unwrap.orNull
  | builtin f => exact (f.run_operates args).grows
  | _ => exact (notCallable_operates _).grows

theorem callWithin_grows (depth : Nat) (callee : Value) (args : List Value) :
    Grows (callWithin depth callee args) := by
  induction depth generalizing callee args with
  | zero => exact callWith_grows (fun _ _ => .throw _) callee args
  | succ depth ih => exact callWith_grows (Node.eval_grows ih) callee args

end MonkeyLang
