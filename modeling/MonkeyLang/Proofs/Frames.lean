import Mathlib.Data.Set.Insert
import MonkeyLang.Proofs.Names
import MonkeyLang.Proofs.Operation

/-!
# The frames that an evaluation writes to

`Store.Extends own before after` says that `after` has all the frames of `before`, inside the same
outer frames, and that those that are not among `own` are as they were.  `Writes own x` says that
`x` changes a store in no other way.

The evaluation of a tree writes to its own frame (`Node.eval_writes`), and without a `let` to none
(`Node.eval_writes_nothing`); a call writes to no frame that there was before it
(`callWithin_writes`): its parameters, and whatever its body binds, go to a frame made for the call.
Nothing is assumed of the store, of the values or of the way in which the evaluation ends.
-/

namespace MonkeyLang

namespace Store

/-- The frames of `before` are those of `after` with the same numbers, except for the bindings in
`own`. -/
structure Extends (own : Set FrameId) (before after : Store) : Prop where
  size_le : before.frames.size ≤ after.frames.size
  outer_eq : ∀ frame < before.frames.size, after.outer? frame = before.outer? frame
  frame_eq : ∀ frame < before.frames.size, frame ∉ own →
    after.frames[frame]? = before.frames[frame]?

namespace Extends

variable {own own' : Set FrameId} {a b c : Store}

theorem refl (own : Set FrameId) (a : Store) : Extends own a a :=
  ⟨Nat.le_refl _, fun _ _ => rfl, fun _ _ _ => rfl⟩

theorem trans (hab : Extends own a b) (hbc : Extends own b c) : Extends own a c where
  size_le := hab.size_le.trans hbc.size_le
  outer_eq frame hframe := by
    rw [hbc.outer_eq frame (hframe.trans_le hab.size_le), hab.outer_eq frame hframe]
  frame_eq frame hframe hown := by
    rw [hbc.frame_eq frame (hframe.trans_le hab.size_le) hown, hab.frame_eq frame hframe hown]

theorem mono (h : Extends own a b) (hown : own ⊆ own') : Extends own' a b :=
  ⟨h.size_le, h.outer_eq, fun frame hframe hnot => h.frame_eq frame hframe fun hmem =>
    hnot (hown hmem)⟩

theorem of_frames_eq (own : Set FrameId) (h : b.frames = a.frames) : Extends own a b := by
  refine ⟨by rw [h], fun frame _ => ?_, fun frame _ _ => by rw [h]⟩
  rw [outer?, h, outer?]

/-- Writing to frames that there are not yet is writing to none of those that there are. -/
theorem of_new (h : Extends own a b) (hnew : ∀ frame ∈ own, a.frames.size ≤ frame) :
    Extends ∅ a b :=
  ⟨h.size_le, h.outer_eq, fun frame hframe _ => h.frame_eq frame hframe fun hmem =>
    Nat.not_le_of_lt hframe (hnew frame hmem)⟩

end Extends

theorem extends_bind (store : Store) (frame : FrameId) (name : String) (value : Value) :
    store.Extends {frame} (store.bind frame name value) where
  size_le := by simp [Store.bind]
  outer_eq f _ := by
    simp only [outer?, Store.bind, Array.getElem?_modify]
    split
    · cases store.frames[f]? <;> rfl
    · rfl
  frame_eq f _ hf := by
    have hne : frame ≠ f := fun h => hf (by simp [h])
    simp only [Store.bind, Array.getElem?_modify, if_neg hne]

theorem extends_addFrame (store : Store) (outer : Option FrameId) :
    store.Extends ∅ (store.addFrame outer).2 where
  size_le := by simp [addFrame]
  outer_eq f hf := by simp [outer?, addFrame, Array.getElem?_push, Nat.ne_of_lt hf]
  frame_eq f hf _ := by simp [addFrame, Array.getElem?_push, Nat.ne_of_lt hf]

end Store

/-- Whatever the store and however it ends, an evaluation writes to no old frame but those in
`own`. -/
def Writes {α : Type} (own : Set FrameId) (x : EvalM α) : Prop :=
  ∀ store : Store, store.Extends own (x.exec store).2

namespace Writes

variable {α β : Type} {own : Set FrameId} {x y : EvalM α} {k : α → EvalM β}

theorem pure (a : α) : Writes own (pure a) := fun store => .refl own store

theorem throw (fault : Fault) : Writes own (throw fault : EvalM α) := fun store => .refl own store

theorem bind (hx : Writes own x) (hk : ∀ a, Writes own (k a)) : Writes own (x >>= k) := by
  intro store
  have hfirst := hx store
  rw [EvalM.exec_bind]
  rcases hend : x.exec store with ⟨fault | a, after⟩
  · rwa [hend] at hfirst
  · rw [hend] at hfirst
    exact hfirst.trans (hk a after)

theorem ite {c : Prop} [Decidable c] (h : Writes own x) (h' : Writes own y) :
    Writes own (if c then x else y) := by
  split <;> assumption

theorem fresh : Writes own EvalM.fresh := fun _ => .of_frames_eq own rfl

theorem newReturned (value : Value) : Writes own (EvalM.newReturned value) :=
  .bind .fresh fun _ => .pure _

theorem bindName {frame : FrameId} (hframe : frame ∈ own) (name : String) (value : Value) :
    Writes own (EvalM.bind frame name value) :=
  fun store => (store.extends_bind frame name value).mono (Set.singleton_subset_iff.2 hframe)

/-- What is done in a new frame is done to no old one. -/
theorem enclose {scope : FrameId} {k : FrameId → EvalM α} (h : ∀ frame, Writes {frame} (k frame)) :
    Writes ∅ (EvalM.enclose scope >>= k) := by
  intro store
  rw [EvalM.exec_bind, EvalM.exec_enclose]
  have hnew := (store.extends_addFrame (some scope)).mono (Set.empty_subset {store.frames.size})
  refine (hnew.trans (h _ _)).of_new ?_
  rintro frame rfl
  exact Nat.le_refl _

end Writes

/-- Operations write to no frame. -/
theorem Operates.writes {frames : List FrameId} {args : List Value} {x : EvalM Value}
    (h : Operates frames args x) (own : Set FrameId) : Writes own x :=
  fun store => .of_frames_eq own (h store).frames_eq

/-! ### Trees -/

namespace Node

variable {call : CallRule}

variable {frame : FrameId} {own : Set FrameId}

mutual

/-- A tree writes to its frame only if there is a `let` in it. -/
theorem eval_writes_of_hasLet (hcall : ∀ callee args, Writes ∅ (call callee args)) :
    (node : Node) → (node.hasLet → frame ∈ own) → Writes own (node.eval call frame)
  | program statements, h => by
    rw [eval]
    exact evalProgram_writes hcall .nothing statements h
  | letStatement token target value, h => by
    rw [eval]
    have hframe : frame ∈ own := h rfl
    refine .bind (eval_writes_of_hasLet hcall value fun _ => hframe) fun v => .ite (.pure v) ?_
    exact .bind (.bindName hframe target.name v.orNull) fun _ => .pure _
  | returnStatement token none, _ => by
    rw [eval]
    exact .newReturned .null
  | returnStatement token (some value), h => by
    rw [eval]
    refine .bind (eval_writes_of_hasLet hcall value h) fun v => .ite (.pure v) ?_
    exact .newReturned v.orNull
  | expressionStatement token expression, h => by
    rw [eval]
    exact eval_writes_of_hasLet hcall expression h
  | block token statements, h => by
    rw [eval]
    exact evalBlock_writes hcall .nothing statements h
  | identifier ident, _ => by
    rw [eval]
    exact (evalName_operates frame ident.name).writes _
  | integer token value, _ => by
    rw [eval]
    exact .pure _
  | string token value, _ => by
    rw [eval]
    exact (newString_operates value).writes _
  | boolean token value, _ => by
    rw [eval]
    exact .pure _
  | unary token operator right, h => by
    rw [eval]
    refine .bind (eval_writes_of_hasLet hcall right h) fun r => .ite (.pure r) ?_
    exact (Eval.unary_operates operator r.orNull).writes _
  | binary token left operator right, h => by
    rw [eval]
    simp only [hasLet, Bool.or_eq_true] at h
    refine .bind (eval_writes_of_hasLet hcall left (h <| .inl ·)) fun l => .ite (.pure l) ?_
    refine .bind (eval_writes_of_hasLet hcall right (h <| .inr ·)) fun r => .ite (.pure r) ?_
    exact (Eval.binary_operates operator l.orNull r.orNull).writes _
  | conditional token condition consequence none, h => by
    rw [eval]
    simp only [hasLet, Bool.or_eq_true] at h
    refine .bind (eval_writes_of_hasLet hcall condition (h <| .inl ·)) fun c =>
      .ite (.pure c) (.ite ?_ (.pure _))
    exact .bind (eval_writes_of_hasLet hcall consequence (h <| .inr ·)) fun v => .pure v.orNull
  | conditional token condition consequence (some alternative), h => by
    rw [eval]
    simp only [hasLet, Bool.or_eq_true] at h
    refine .bind (eval_writes_of_hasLet hcall condition (h <| .inl ·)) fun c =>
      .ite (.pure c) (.ite ?_ ?_)
    · exact .bind (eval_writes_of_hasLet hcall consequence (h <| .inr <| .inl ·)) fun v =>
        .pure v.orNull
    · exact .bind (eval_writes_of_hasLet hcall alternative (h <| .inr <| .inr ·)) fun v =>
        .pure v.orNull
  | function token parameters body, _ => by
    rw [eval]
    exact .bind .fresh fun _ => .pure _
  | Node.call token callee arguments, h => by
    rw [eval]
    simp only [hasLet, Bool.or_eq_true] at h
    refine .bind (eval_writes_of_hasLet hcall callee (h <| .inl ·)) fun f => .ite (.pure f) ?_
    refine .bind (evalEach_writes hcall arguments (h <| .inr ·)) fun args => ?_
    cases args with
    | ok args => exact fun store => (hcall f args store).mono (Set.empty_subset _)
    | error failure => exact .pure failure
  | array token elements, h => by
    rw [eval]
    refine .bind (evalEach_writes hcall elements h) fun values => ?_
    cases values with
    | ok values => exact (newArray_operates values).writes _
    | error failure => exact .pure failure
  | index token target position, h => by
    rw [eval]
    simp only [hasLet, Bool.or_eq_true] at h
    refine .bind (eval_writes_of_hasLet hcall target (h <| .inl ·)) fun t => .ite (.pure t) ?_
    refine .bind (eval_writes_of_hasLet hcall position (h <| .inr ·)) fun p => .ite (.pure p) ?_
    exact (Eval.index_operates t p).writes _
  | hash token pairs, h => by
    rw [eval]
    exact evalPairs_writes hcall [] pairs h
  | foreign kind text, _ => by
    rw [eval]
    exact .throw _

theorem evalProgram_writes (hcall : ∀ callee args, Writes ∅ (call callee args)) (last : Value) :
    (statements : List Node) → (anyHasLet statements → frame ∈ own) →
    Writes own (evalProgram call frame last statements)
  | [], _ => by
    rw [evalProgram]
    exact .pure last
  | statement :: statements, h => by
    rw [evalProgram]
    simp only [anyHasLet, Bool.or_eq_true] at h
    refine .bind (eval_writes_of_hasLet hcall statement (h <| .inl ·)) fun v =>
      .ite (.pure v.unwrap) ?_
    exact evalProgram_writes hcall v statements (h <| .inr ·)

theorem evalBlock_writes (hcall : ∀ callee args, Writes ∅ (call callee args)) (last : Value) :
    (statements : List Node) → (anyHasLet statements → frame ∈ own) →
    Writes own (evalBlock call frame last statements)
  | [], _ => by
    rw [evalBlock]
    exact .pure last
  | statement :: statements, h => by
    rw [evalBlock]
    simp only [anyHasLet, Bool.or_eq_true] at h
    refine .bind (eval_writes_of_hasLet hcall statement (h <| .inl ·)) fun v => .ite (.pure v) ?_
    exact evalBlock_writes hcall v statements (h <| .inr ·)

theorem evalEach_writes (hcall : ∀ callee args, Writes ∅ (call callee args)) :
    (nodes : List Node) → (anyHasLet nodes → frame ∈ own) →
    Writes own (evalEach call frame nodes)
  | [], _ => by
    rw [evalEach]
    exact .pure _
  | node :: nodes, h => by
    rw [evalEach]
    simp only [anyHasLet, Bool.or_eq_true] at h
    refine .bind (eval_writes_of_hasLet hcall node (h <| .inl ·)) fun v => .ite (.pure _) ?_
    exact .bind (evalEach_writes hcall nodes (h <| .inr ·)) fun vs => .pure _

theorem evalPairs_writes (hcall : ∀ callee args, Writes ∅ (call callee args))
    (entries : List (HashKey × Value × Value)) : (pairs : List (Node × Node)) →
    (anyPairHasLet pairs → frame ∈ own) → Writes own (evalPairs call frame entries pairs)
  | [], _ => by
    rw [evalPairs]
    exact (newHash_operates entries).writes _
  | (key, value) :: pairs, h => by
    rw [evalPairs]
    simp only [anyPairHasLet, Bool.or_eq_true] at h
    refine .bind (eval_writes_of_hasLet hcall key (h <| .inl ·)) fun k => .ite (.pure k) ?_
    split
    · exact (unusableKey_operates k).writes _
    · refine .bind (eval_writes_of_hasLet hcall value (h <| .inr <| .inl ·)) fun v =>
        .ite (.pure v) ?_
      exact evalPairs_writes hcall _ pairs (h <| .inr <| .inr ·)

end

/-- A tree writes to its own frame. -/
theorem eval_writes (hcall : ∀ callee args, Writes ∅ (call callee args)) (frame : FrameId)
    (node : Node) : Writes {frame} (node.eval call frame) :=
  eval_writes_of_hasLet hcall node fun _ => rfl

end Node

/-! ### Calls -/

theorem bindParameters_writes (frame : FrameId) (parameters : List Identifier)
    (args : List Value) : Writes {frame} (bindParameters frame parameters args) := by
  induction parameters generalizing args with
  | nil => exact .pure ()
  | cons parameter parameters ih =>
    cases args with
    | nil => exact .pure ()
    | cons arg args =>
      exact .bind (.bindName (Set.mem_singleton frame) parameter.name arg) fun _ => ih args

theorem callWith_writes {body : FrameId → Node → EvalM Value}
    (h : ∀ frame node, Writes {frame} (body frame node)) (callee : Value) (args : List Value) :
    Writes ∅ (callWith body callee args) := by
  cases callee with
  | function id parameters node scope =>
    rw [callWith]
    refine .ite ((parameterCount_operates _ _).writes _) (.enclose fun frame => ?_)
    refine .bind (bindParameters_writes frame parameters args) fun _ => ?_
    exact .bind (h frame node) fun v => .pure v.unwrap.orNull
  | builtin f => exact (f.run_operates args).writes _
  | _ => exact (notCallable_operates _).writes _

/-- A call writes to no frame that there was before it, whatever is called with whatever
arguments, and however deep the calls inside it may go before that is a fault. -/
theorem callWithin_writes (depth : Nat) (callee : Value) (args : List Value) :
    Writes ∅ (callWithin depth callee args) := by
  induction depth generalizing callee args with
  | zero => exact callWith_writes (fun _ _ => .throw _) callee args
  | succ depth ih => exact callWith_writes (Node.eval_writes ih) callee args

/-- Without a `let` outside of the bodies of functions, a tree writes to no frame that there was. -/
theorem Node.eval_writes_nothing {node : Node} (hlet : node.hasLet = false) (depth : Nat)
    (frame : FrameId) : Writes ∅ (node.eval (callWithin depth) frame) :=
  Node.eval_writes_of_hasLet (callWithin_writes depth) node (by simp [hlet])

end MonkeyLang
