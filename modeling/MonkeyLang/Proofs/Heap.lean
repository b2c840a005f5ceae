import Mathlib.Order.Basic
import MonkeyLang.Proofs.Abort
import MonkeyLang.Proofs.Frames

/-!
# Objects keep their contents

A value carries the contents of the objects in it, next to their serial numbers.  That a number
stands for one object, wherever it turns up, is what has to be proved.

A `Heap` tells the contents of every object that has been made, by serial number.
`store.Fits heap` says that the store knows no other objects than those of the heap, with the very
contents that they have there, and that the numbers still to be given out are not in use.
`KeepsObjects heap x post` is the triple for this: from a store that fits the heap, `x` comes to a
store that fits an extension of it, `heap ≤ heap'`.  New objects are added, and those that there
were have the contents that they had.

`evaluation_frame` is the main statement: what an evaluation leaves as it was, of the frames and of
the objects.
-/

namespace MonkeyLang

/-- The contents of the objects that have been made. -/
def Heap : Type := ObjectId → Option Value

/-- One heap extends another if it has its objects, with the same contents. -/
instance : Preorder Heap where
  le heap heap' := ∀ id object, heap id = some object → heap' id = some object
  le_refl _ _ _ h := h
  le_trans _ _ _ h h' id object hobject := h' id object (h id object hobject)

/-- The objects that the value and its parts are have the contents that the heap tells. -/
def Value.Fits (heap : Heap) (value : Value) : Prop :=
  value.All fun object => ∀ id, object.id? = some id → heap id = some object

namespace Value

variable {heap heap' : Heap} {value : Value}

theorem Fits.mono (h : value.Fits heap) (hle : heap ≤ heap') : value.Fits heap' :=
  All.mono h fun object hobject id hid => hle id object (hobject id hid)

theorem fits_of_id?_eq_none (hid : value.id? = none) (hvalue : value.components = []) :
    value.Fits heap :=
  all_of_components_eq_nil hvalue (by simp [hid])

theorem fits_of_isPlain (h : value.isPlain) : value.Fits heap :=
  fits_of_id?_eq_none (id?_of_isPlain h) (components_of_isPlain h)

theorem fits_nothing : nothing.Fits heap := fits_of_id?_eq_none rfl rfl

theorem Fits.orNull (h : value.Fits heap) : value.orNull.Fits heap :=
  All.orNull h (by simp [id?])

theorem Fits.unwrap (h : value.Fits heap) : value.unwrap.Fits heap := by
  cases value with
  | returned id value => exact All.of_isPart h (isPart_of_mem_components List.mem_cons_self)
  | _ => exact h

end Value

namespace Store

/-- Every bound value fits the heap, and no object has a number that is still to be given out. -/
structure Fits (store : Store) (heap : Heap) : Prop where
  holds : store.Holds (Value.Fits heap)
  unused : ∀ id, store.nextId ≤ id → heap id = none

variable {store : Store} {heap : Heap}

theorem initial_fits : initial.Fits (fun _ => none) :=
  ⟨holds_initial _, fun _ _ => rfl⟩

/-- A new object made of old ones is added to the heap. -/
theorem Fits.make (h : store.Fits heap) {value : Value} (hid : value.id? = some store.nextId)
    (hcomponents : ∀ component ∈ value.components, component.Fits heap) :
    ∃ heap', heap ≤ heap' ∧ store.allocate.2.Fits heap' ∧ value.Fits heap' := by
  -- the heap has no object under the number of the new one, so that nothing is overwritten
  let heap' : Heap := fun id => if id = store.nextId then some value else heap id
  have hle : heap ≤ heap' := by
    intro id object hobject
    have hne : id ≠ store.nextId := by
      rintro rfl
      rw [h.unused _ (Nat.le_refl _)] at hobject
      cases hobject
    simp only [heap', if_neg hne, hobject]
  refine ⟨heap', hle, ⟨h.holds.mono fun v hv => hv.mono hle, fun id hunused => ?_⟩, ?_⟩
  · have hlt : store.nextId < id := hunused
    simp only [heap', if_neg (Nat.ne_of_gt hlt), h.unused id (Nat.le_of_lt hlt)]
  · refine Value.all_iff.2 ⟨fun id hid' => ?_, fun c hc => (hcomponents c hc).mono hle⟩
    obtain rfl : store.nextId = id := Option.some.inj (hid.symm.trans hid')
    simp [heap']

end Store

/-- How an evaluation ends that keeps the objects of a heap: with a store that fits an extension of
the heap, to which the result belongs. -/
def EndsWith {α : Type} (heap : Heap) (ending : Except Fault α × Store)
    (post : Heap → α → Prop) : Prop :=
  ∃ heap', heap ≤ heap' ∧ ending.2.Fits heap' ∧ ∀ a, ending.1 = .ok a → post heap' a

/-- From a store that fits a heap the evaluation comes to one that fits an extension of it, and a
result that it gives satisfies `post` there. -/
def KeepsObjects {α : Type} (heap : Heap) (x : EvalM α) (post : Heap → α → Prop) : Prop :=
  ∀ store : Store, store.Fits heap → EndsWith heap (x.exec store) post

namespace KeepsObjects

variable {α β : Type} {heap : Heap} {x y : EvalM α} {k : α → EvalM β} {post mid : Heap → α → Prop}
  {post' : Heap → β → Prop}

theorem pure {a : α} (h : post heap a) : KeepsObjects heap (pure a) post := by
  intro store hstore
  refine ⟨heap, le_rfl, hstore, fun b hb => ?_⟩
  cases hb
  exact h

theorem throw (fault : Fault) : KeepsObjects heap (throw fault) post :=
  fun _ hstore => ⟨heap, le_rfl, hstore, nofun⟩

/-- The rule for sequence: what comes behind a step works with the heap that the step has left. -/
theorem bind (hx : KeepsObjects heap x mid)
    (hk : ∀ heap' a, heap ≤ heap' → mid heap' a → KeepsObjects heap' (k a) post') :
    KeepsObjects heap (x >>= k) post' := by
  intro store hstore
  obtain ⟨heap₁, hle, hfits, hmid⟩ := hx store hstore
  rw [EvalM.exec_bind]
  rcases hend : x.exec store with ⟨fault | a, after⟩
  · rw [hend] at hfits
    exact ⟨heap₁, hle, hfits, nofun⟩
  · rw [hend] at hfits hmid
    obtain ⟨heap₂, hle', hfits', hpost⟩ := hk heap₁ a hle (hmid a rfl) after hfits
    exact ⟨heap₂, hle.trans hle', hfits', hpost⟩

theorem ite {c : Prop} [Decidable c] (h : KeepsObjects heap x post)
    (h' : KeepsObjects heap y post) : KeepsObjects heap (if c then x else y) post := by
  split <;> assumption

/-- A step that gives a new object made of old ones. -/
theorem make {value : ObjectId → Value} (hid : ∀ id, (value id).id? = some id)
    (h : ∀ id, ∀ component ∈ (value id).components, component.Fits heap) :
    KeepsObjects heap (do return value (← EvalM.fresh)) Value.Fits := by
  intro store hstore
  obtain ⟨heap', hle, hfits, hvalue⟩ := hstore.make (hid _) (h _)
  rw [EvalM.exec_fresh_bind]
  refine ⟨heap', hle, hfits, fun v hv => ?_⟩
  cases hv
  exact hvalue

theorem newReturned {value : Value} (h : value.Fits heap) :
    KeepsObjects heap (EvalM.newReturned value) Value.Fits :=
  make (fun _ => rfl) (by simpa [Value.components] using h)

theorem bindName (frame : FrameId) (name : String) {value : Value} (h : value.Fits heap) :
    KeepsObjects heap (EvalM.bind frame name value) fun _ _ => True :=
  fun _ hstore => ⟨heap, le_rfl, ⟨hstore.holds.bind frame name h, hstore.unused⟩,
    fun _ _ => trivial⟩

theorem enclose (frame : FrameId) :
    KeepsObjects heap (EvalM.enclose frame) fun _ _ => True :=
  fun _ hstore => ⟨heap, le_rfl, ⟨hstore.holds.addFrame (some frame), hstore.unused⟩,
    fun _ _ => trivial⟩

end KeepsObjects

/-- Operations make at most one object, of those that they are given and those that are bound. -/
theorem Operation.endsWith {store : Store} {heap : Heap} {frames : List FrameId}
    {args : List Value} {ending : Except Fault Value × Store} (hstore : store.Fits heap)
    (hargs : ∀ arg ∈ args, arg.Fits heap) (h : Operation frames args store ending) :
    EndsWith heap ending Value.Fits := by
  have hsame : ∀ value output, value.Fits heap →
      EndsWith heap (.ok value, { store with output }) Value.Fits := by
    intro value output hvalue
    refine ⟨heap, le_rfl, ⟨hstore.holds, hstore.unused⟩, fun v hv => ?_⟩
    cases hv
    exact hvalue
  cases h with
  | plain hplain => exact hsame _ store.output (Value.fits_of_isPlain hplain)
  | found hfound => exact hsame _ store.output (hfound.all (fun _ _ _ _ => hstore.holds.lookup) hargs)
  | made hid hdata hcomponents =>
    obtain ⟨heap', hle, hfits, hvalue⟩ :=
      hstore.make hid fun c hc => (hcomponents c hc).all (fun _ _ _ _ => hstore.holds.lookup) hargs
    refine ⟨heap', hle, hfits, fun v hv => ?_⟩
    cases hv
    exact hvalue
  | printed output => exact hsame _ output (Value.fits_of_isPlain rfl)
  | kindless => exact ⟨heap, le_rfl, hstore, nofun⟩
  | textless => exact ⟨heap, le_rfl, ⟨hstore.holds, hstore.unused⟩, nofun⟩

theorem Operates.keepsObjects {heap : Heap} {frames : List FrameId} {args : List Value}
    {x : EvalM Value} (h : Operates frames args x) (hargs : ∀ arg ∈ args, arg.Fits heap) :
    KeepsObjects heap x Value.Fits :=
  fun store hstore => (h store).endsWith hstore hargs

/-! ### Trees -/

/-- A rule for calls that keeps the objects of every heap that callee and arguments belong to. -/
def CallsKeepObjects (call : CallRule) : Prop :=
  ∀ heap callee args, callee.Fits heap → (∀ arg ∈ args, arg.Fits heap) →
    KeepsObjects heap (call callee args) Value.Fits

namespace Node

variable {call : CallRule}

mutual

theorem eval_keepsObjects (hcall : CallsKeepObjects call) (frame : FrameId) (heap : Heap) :
    (node : Node) → KeepsObjects heap (node.eval call frame) Value.Fits
  | program statements => by
    rw [eval]
    exact evalProgram_keepsObjects hcall frame heap Value.fits_nothing statements
  | letStatement token target value => by
    rw [eval]
    refine .bind (eval_keepsObjects hcall frame heap value) fun _ v _ hv => .ite (.pure hv) ?_
    exact .bind (.bindName frame target.name hv.orNull) fun _ _ _ _ => .pure Value.fits_nothing
  | returnStatement token none => by
    rw [eval]
    exact .newReturned (Value.fits_of_isPlain rfl)
  | returnStatement token (some value) => by
    rw [eval]
    refine .bind (eval_keepsObjects hcall frame heap value) fun _ v _ hv => .ite (.pure hv) ?_
    exact .newReturned hv.orNull
  | expressionStatement token expression => by
    rw [eval]
    exact eval_keepsObjects hcall frame heap expression
  | block token statements => by
    rw [eval]
    exact evalBlock_keepsObjects hcall frame heap Value.fits_nothing statements
  | identifier ident => by
    rw [eval]
    exact (evalName_operates frame ident.name).keepsObjects (by simp)
  | integer token value => by
    rw [eval]
    exact .pure (Value.fits_of_isPlain rfl)
  | string token value => by
    rw [eval]
    exact (newString_operates value).keepsObjects (by simp)
  | boolean token value => by
    rw [eval]
    exact .pure (Value.fits_of_isPlain rfl)
  | unary token operator right => by
    rw [eval]
    refine .bind (eval_keepsObjects hcall frame heap right) fun _ r _ hr => .ite (.pure hr) ?_
    exact (Eval.unary_operates operator r.orNull).keepsObjects (by simpa using hr.orNull)
  | binary token left operator right => by
    rw [eval]
    refine .bind (eval_keepsObjects hcall frame heap left) fun heap₁ l _ hl => .ite (.pure hl) ?_
    refine .bind (eval_keepsObjects hcall frame heap₁ right) fun _ r hle hr => .ite (.pure hr) ?_
    exact (Eval.binary_operates operator l.orNull r.orNull).keepsObjects
      (by simpa using ⟨(hl.mono hle).orNull, hr.orNull⟩)
  | conditional token condition consequence none => by
    rw [eval]
    refine .bind (eval_keepsObjects hcall frame heap condition) fun heap₁ c _ hc =>
      .ite (.pure hc) (.ite ?_ (.pure (Value.fits_of_isPlain rfl)))
    exact .bind (eval_keepsObjects hcall frame heap₁ consequence) fun _ v _ hv => .pure hv.orNull
  | conditional token condition consequence (some alternative) => by
    rw [eval]
    refine .bind (eval_keepsObjects hcall frame heap condition) fun heap₁ c _ hc =>
      .ite (.pure hc) (.ite ?_ ?_)
    · exact .bind (eval_keepsObjects hcall frame heap₁ consequence) fun _ v _ hv =>
        .pure hv.orNull
    · exact .bind (eval_keepsObjects hcall frame heap₁ alternative) fun _ v _ hv =>
        .pure hv.orNull
  | function token parameters body => by
    rw [eval]
    exact .make (fun _ => rfl) (by simp [Value.components])
  | Node.call token callee arguments => by
    rw [eval]
    refine .bind (eval_keepsObjects hcall frame heap callee) fun heap₁ f _ hf =>
      .ite (.pure hf) ?_
    refine .bind (evalEach_keepsObjects hcall frame heap₁ arguments) fun heap₂ args hle hargs => ?_
    cases args with
    | ok args => exact hcall heap₂ f args (hf.mono hle) hargs
    | error failure => exact .pure hargs
  | array token elements => by
    rw [eval]
    refine .bind (evalEach_keepsObjects hcall frame heap elements) fun heap₁ values _ hvalues => ?_
    cases values with
    | ok values =>
      exact (newArray_operates values).keepsObjects hvalues
    | error failure => exact .pure hvalues
  | index token target position => by
    rw [eval]
    refine .bind (eval_keepsObjects hcall frame heap target) fun heap₁ t _ ht =>
      .ite (.pure ht) ?_
    refine .bind (eval_keepsObjects hcall frame heap₁ position) fun _ p hle hp =>
      .ite (.pure hp) ?_
    exact (Eval.index_operates t p).keepsObjects (by simpa using ⟨ht.mono hle, hp⟩)
  | hash token pairs => by
    rw [eval]
    exact evalPairs_keepsObjects hcall frame heap (List.forall_mem_nil _) pairs
  | foreign kind text => by
    rw [eval]
    exact .throw _

theorem evalProgram_keepsObjects (hcall : CallsKeepObjects call) (frame : FrameId) (heap : Heap)
    {last : Value} (hlast : last.Fits heap) : (statements : List Node) →
    KeepsObjects heap (evalProgram call frame last statements) Value.Fits
  | [] => by
    rw [evalProgram]
    exact .pure hlast
  | statement :: statements => by
    rw [evalProgram]
    refine .bind (eval_keepsObjects hcall frame heap statement) fun heap₁ v _ hv =>
      .ite (.pure hv.unwrap) ?_
    exact evalProgram_keepsObjects hcall frame heap₁ hv statements

theorem evalBlock_keepsObjects (hcall : CallsKeepObjects call) (frame : FrameId) (heap : Heap)
    {last : Value} (hlast : last.Fits heap) : (statements : List Node) →
    KeepsObjects heap (evalBlock call frame last statements) Value.Fits
  | [] => by
    rw [evalBlock]
    exact .pure hlast
  | statement :: statements => by
    rw [evalBlock]
    refine .bind (eval_keepsObjects hcall frame heap statement) fun heap₁ v _ hv =>
      .ite (.pure hv) ?_
    exact evalBlock_keepsObjects hcall frame heap₁ hv statements

theorem evalEach_keepsObjects (hcall : CallsKeepObjects call) (frame : FrameId) (heap : Heap) :
    (nodes : List Node) → KeepsObjects heap (evalEach call frame nodes) fun heap =>
      Value.EachIs (Value.Fits heap)
  | [] => by
    rw [evalEach]
    exact .pure (by simp [Value.EachIs])
  | node :: nodes => by
    rw [evalEach]
    refine .bind (eval_keepsObjects hcall frame heap node) fun heap₁ v _ hv => .ite (.pure hv) ?_
    refine .bind (evalEach_keepsObjects hcall frame heap₁ nodes) fun _ vs hle hvs => .pure ?_
    cases vs with
    | ok vs => exact List.forall_mem_cons.2 ⟨hv.mono hle, hvs⟩
    | error failure => exact hvs

theorem evalPairs_keepsObjects (hcall : CallsKeepObjects call) (frame : FrameId) (heap : Heap)
    {entries : List (HashKey × Value × Value)}
    (hentries : ∀ value ∈ Value.entryValues entries, value.Fits heap) :
    (pairs : List (Node × Node)) →
    KeepsObjects heap (evalPairs call frame entries pairs) Value.Fits
  | [] => by
    rw [evalPairs]
    exact (newHash_operates entries).keepsObjects hentries
  | (key, value) :: pairs => by
    rw [evalPairs]
    refine .bind (eval_keepsObjects hcall frame heap key) fun heap₁ k hle₁ hk =>
      .ite (.pure hk) ?_
    split
    · exact (unusableKey_operates k).keepsObjects (by simpa using hk)
    · refine .bind (eval_keepsObjects hcall frame heap₁ value) fun heap₂ v hle₂ hv =>
        .ite (.pure hv) ?_
      have hold : ∀ value ∈ Value.entryValues entries, value.Fits heap₂ := fun value hvalue =>
        (hentries value hvalue).mono (hle₁.trans hle₂)
      exact evalPairs_keepsObjects hcall frame heap₂
        (Value.forall_mem_insert hold _ (hk.mono hle₂) hv) pairs

end

end Node

/-! ### Calls -/

theorem bindParameters_keepsObjects (frame : FrameId) (parameters : List Identifier) {heap : Heap}
    {args : List Value} (hargs : ∀ arg ∈ args, arg.Fits heap) :
    KeepsObjects heap (bindParameters frame parameters args) fun _ _ => True := by
  induction parameters generalizing args heap with
  | nil => exact .pure trivial
  | cons parameter parameters ih =>
    cases args with
    | nil => exact .pure trivial
    | cons arg args =>
      obtain ⟨harg, hrest⟩ := List.forall_mem_cons.1 hargs
      exact .bind (.bindName frame parameter.name harg) fun _ _ hle _ =>
        ih fun arg harg => (hrest arg harg).mono hle

theorem callWith_keepsObjects {body : FrameId → Node → EvalM Value}
    (h : ∀ frame heap node, KeepsObjects heap (body frame node) Value.Fits) :
    CallsKeepObjects (callWith body) := by
  intro heap callee args hcallee hargs
  have hnot : KeepsObjects heap (do EvalM.failWith (.notCallable (← EvalM.kindOf callee)))
      Value.Fits := (notCallable_operates callee).keepsObjects (by simpa using hcallee)
  cases callee with
  | function id parameters node scope =>
    rw [callWith]
    refine .ite ((parameterCount_operates _ _).keepsObjects (by simp)) ?_
    refine .bind (.enclose scope) fun heap₁ frame hle _ => ?_
    refine .bind (bindParameters_keepsObjects frame parameters fun arg harg =>
      (hargs arg harg).mono hle) fun heap₂ _ _ _ => ?_
    exact .bind (h frame heap₂ node) fun _ v _ hv => .pure hv.unwrap.orNull
  | builtin f => exact (f.run_operates args).keepsObjects hargs
  | _ => exact hnot

theorem callWithin_keepsObjects (depth : Nat) : CallsKeepObjects (callWithin depth) := by
  induction depth with
  | zero => exact callWith_keepsObjects fun _ _ _ => .throw _
  | succ depth ih => exact callWith_keepsObjects (Node.eval_keepsObjects ih)

/-! ### What an evaluation leaves as it was -/

theorem Store.Reachable.exists_fits {store : Store} (h : store.Reachable) :
    ∃ heap, store.Fits heap := by
  induction h with
  | initial => exact ⟨_, initial_fits⟩
  | evaluate _ depth frame text ih =>
    obtain ⟨heap, hfits⟩ := ih
    obtain ⟨heap', -, hfits', -⟩ :=
      Node.eval_keepsObjects (callWithin_keepsObjects depth) frame heap _ _ hfits
    exact ⟨heap', hfits'⟩

/-- **What an evaluation leaves as it was.**  Whatever the store, and however the evaluation ends,
the evaluation of a tree writes to no frame that there was but the one in which it takes place, and
a call writes to none.  On a store that fits a heap, as all reachable stores do, the objects of the
heap keep their contents. -/
theorem evaluation_frame (depth : Nat) (store : Store) :
    (∀ frame (node : Node),
      store.Extends {frame} ((node.eval (callWithin depth) frame).exec store).2) ∧
    (∀ callee args, store.Extends ∅ ((callWithin depth callee args).exec store).2) ∧
    (store.Reachable → ∃ heap, store.Fits heap) ∧
    ∀ heap, store.Fits heap →
      (∀ frame (node : Node), EndsWith heap ((node.eval (callWithin depth) frame).exec store)
        Value.Fits) ∧
      ∀ callee args, callee.Fits heap → (∀ arg ∈ args, arg.Fits heap) →
        EndsWith heap ((callWithin depth callee args).exec store) Value.Fits :=
  ⟨fun frame node => Node.eval_writes (callWithin_writes depth) frame node store,
    fun callee args => callWithin_writes depth callee args store,
    Store.Reachable.exists_fits,
    fun heap hfits =>
      ⟨fun frame node =>
        Node.eval_keepsObjects (callWithin_keepsObjects depth) frame heap node store hfits,
      fun callee args hcallee hargs =>
        callWithin_keepsObjects depth heap callee args hcallee hargs store hfits⟩⟩

/-- An array that is bound to a name is passed to a function that makes a longer one of it. -/
theorem evaluation_frame_push :
    let bindings := (parse "let a = [1]; let f = fn(x) \x7b push(x, 2) \x7d;".toList).program
    let store := ((bindings.eval (callWithin maxCallDepth) Store.global).exec .initial).2
    store.Reachable ∧ ∃ heap, store.Fits heap ∧
      EndsWith heap (((parse "f(a)".toList).program.eval (callWithin maxCallDepth)
        Store.global).exec store) Value.Fits ∧
      Value.Fits heap (.builtin .len) ∧ (∀ arg ∈ [Value.null], arg.Fits heap) ∧
      EndsWith heap ((callWithin maxCallDepth (.builtin .len) [.null]).exec store) Value.Fits := by
  intro bindings store
  have hreachable : store.Reachable := .evaluate .initial maxCallDepth Store.global _
  obtain ⟨-, -, hexists, hkeeps⟩ := evaluation_frame maxCallDepth store
  obtain ⟨heap, hfits⟩ := hexists hreachable
  obtain ⟨heval, hcall⟩ := hkeeps heap hfits
  have hlen : Value.Fits heap (.builtin .len) := Value.fits_of_isPlain rfl
  have hargs : ∀ arg ∈ [Value.null], arg.Fits heap :=
    List.forall_mem_singleton.2 (Value.fits_of_isPlain rfl)
  exact ⟨hreachable, heap, hfits, heval _ _, hlen, hargs, hcall _ _ hlen hargs⟩

end MonkeyLang
