import MonkeyLang.Proofs.Discipline
import MonkeyLang.Proofs.Guard

/-!
# Evaluation under a regime

A `Regime` is an invariant of evaluation.  It tells which frames are `seen`, which values are `good`,
such that nothing else is ever bound in these frames, passed or stored, which trees it `suits`, which
faults it `tolerates` and which uses of values it `allows`; and it has the laws by which all this is
kept.  Evaluation in a frame that is seen never comes upon one that is not: a store that the regime
governs (`Regime.Governs`) leads outwards to frames that are seen, and so do good functions.

* `Regime.Result` describes the outcomes of trees: good values, no value where the tree is no
  expression, and good values on their way out of a function where a return statement can be
  reached.
* `Regime.Maintains` and `Regime.Agrees` are what has to be shown of an evaluation: it keeps to the
  regime, and another evaluation comes to the same end.  Both together are `Regime.Guards`.
* A tree `Settles` if its outcomes are good values only.  Expressions do in all places but one, the
  expression of a statement.

`Node.eval_guards` and `callWithin_guards`: under every regime evaluation has the results described,
and the interpreter with guards comes to the same end, so that no guard ever stops it.
-/

namespace MonkeyLang

/-- An invariant of evaluation. -/
structure Regime where
  /-- The frames that evaluation may come upon. -/
  seen : FrameId → Prop
  /-- What is bound, passed and stored, with all its parts. -/
  good : Value → Prop
  /-- What is evaluated. -/
  suits : Node → Prop
  /-- What evaluation may be ended by. -/
  tolerates : Fault → Prop
  /-- What the guards let pass. -/
  allows : Use → Value → Bool
  /-- Operations make good values. -/
  good_plain : ∀ value : Value, value.isPlain → good value
  good_data : ∀ value : Value, value.isData → good value
  /-- Functions come from trees that the regime suits, in frames that are seen, and have bodies that
  it suits. -/
  good_function : ∀ token id parameters body scope, suits (.function token parameters body) →
    seen scope → good (.function id parameters body scope)
  suits_body : ∀ id parameters body scope, good (.function id parameters body scope) → suits body
  seen_scope : ∀ id parameters body scope, good (.function id parameters body scope) → seen scope
  /-- The parts of trees are of the roles that their places call for. -/
  places : ∀ node, suits node → ∀ place ∈ node.places,
    place.2.role? = some place.1 ∧ suits place.2
  /-- Where a return statement can be reached inside an expression, and that is no statement, values
  on their way out are good. -/
  settled : ∀ node, suits node → node.isExpressionStatement = false → ∀ place ∈ node.places,
    place.2.branchesReturn → ∀ id value, good (.returned id value)
  /-- The faults that can occur are tolerated. -/
  deep : tolerates .depthExceeded
  foreign : ∀ kind text, suits (.foreign kind text) → tolerates (.unknownNode kind)
  kindless : good .nothing → tolerates .noKind
  textless : ∀ (value : Value) obstacle, value.All good → value.obstacle? = some obstacle →
    tolerates (.noDisplay obstacle)
  /-- Good values are allowed everywhere, no value as the outcome of a program, and values on their
  way out as statements. -/
  allows_good : ∀ use value, good value → allows use value
  allows_nothing : allows .outcome .nothing
  allows_returned : ∀ id value, allows .statement (.returned id value)

namespace Regime

variable (R : Regime)

/-- A value of which all parts are good. -/
abbrev Good (value : Value) : Prop := value.All R.good

/-- An outcome that is good, or is no value where that is possible, or is a good value on its way
out where that is possible. -/
inductive Result (empty returns : Prop) : Value → Prop
  | good {value : Value} (h : R.Good value) : Result empty returns value
  | nothing (h : empty) : Result empty returns .nothing
  | returned {value : Value} (id : ObjectId) (h : returns) (hvalue : R.Good value) :
      Result empty returns (.returned id value)

/-- What the outcomes of a tree are. -/
abbrev Outcome (node : Node) (value : Value) : Prop :=
  R.Result (node.role? ≠ some .expression) node.canReturn value

/-- What holds of a store under a regime.  Values that are bound in frames that are seen are good,
and what is around these frames and what is still to come is seen. -/
structure Governs (store : Store) : Prop where
  holds : ∀ frame, R.seen frame → ∀ binding ∈ store.bindings frame, R.Good binding.2
  outward : ∀ frame outer, R.seen frame → store.outer? frame = some outer → R.seen outer
  unused : ∀ frame, store.frames.size ≤ frame → R.seen frame

/-- From a store that is governed the evaluation comes to such a store, and to a result that
satisfies `post` or to a fault that is tolerated. -/
def Maintains {α : Type} (post : α → Prop) (x : EvalM α) : Prop :=
  ∀ store : Store, R.Governs store → R.Governs (x.exec store).2 ∧
    match (x.exec store).1 with
    | .ok a => post a
    | .error fault => R.tolerates fault

/-- From a store that is governed `y` comes to the same end as `x`, with `view a` for a result `a`
and `stop fault` for a fault. -/
def Agrees {ε α β : Type} (stop : Fault → ε) (view : α → StopM ε β) (x : EvalM α)
    (y : StopM ε β) : Prop :=
  ∀ store : Store, R.Governs store →
    y.exec store = (StopM.lift stop x >>= view).exec store

/-- The evaluation keeps to the regime, and the guards let it pass. -/
structure Guards {α : Type} (post : α → Prop) (x : EvalM α) (y : GuardM α) : Prop where
  maintains : R.Maintains post x
  agrees : R.Agrees Trap.fault pure x y

variable {R} {α β : Type}

/-! ### Governed stores -/

theorem seen_of_mem_chain {store : Store} (h : R.Governs store) {frame f : FrameId}
    (hframe : R.seen frame) (hf : f ∈ store.chain frame) : R.seen f := by
  induction frame using Nat.strongRecOn with
  | ind frame ih =>
    rw [Store.chain] at hf
    cases houter : store.outer? frame with
    | none =>
      rw [houter] at hf
      exact List.mem_singleton.1 hf ▸ hframe
    | some outer =>
      simp only [houter] at hf
      split at hf
      · next hlt =>
        rcases List.mem_cons.1 hf with rfl | hf
        · exact hframe
        · exact ih outer hlt (h.outward frame outer hframe houter) hf
      · exact List.mem_singleton.1 hf ▸ hframe

namespace Governs

variable {store : Store}

/-- What a name is looked up to in a frame that is seen is good. -/
theorem lookup (h : R.Governs store) {frame : FrameId} (hframe : R.seen frame) {name : String}
    {value : Value} (hvalue : store.lookup frame name = some value) : R.Good value := by
  obtain ⟨f, hf, hbinding⟩ := List.exists_of_findSome?_eq_some hvalue
  exact h.holds f (seen_of_mem_chain h hframe hf) _ (Assoc.mem_of_find? hbinding)

/-- Only the frames of a store matter. -/
theorem congr (h : R.Governs store) {after : Store} (hframes : after.frames = store.frames) :
    R.Governs after := by
  have hbindings : after.bindings = store.bindings := by
    funext frame
    rw [Store.bindings, hframes, Store.bindings]
  refine ⟨fun frame => hbindings ▸ h.holds frame, fun frame outer hframe houter => ?_,
    fun frame => hframes ▸ h.unused frame⟩
  rw [Store.outer?, hframes] at houter
  exact h.outward frame outer hframe houter

/-- No frame can be reached from one that is seen but those that are seen. -/
theorem seen_of_reaches (h : R.Governs store) {frame f : FrameId} (hframe : R.seen frame)
    (hf : store.Reaches frame f) : R.seen f := by
  induction hf with
  | self => exact hframe
  | outer _ houter ih => exact h.outward _ _ ih houter
  | scope _ hbinding hpart ih =>
    exact R.seen_scope _ _ _ _ (h.holds _ ih _ hbinding _ hpart)

theorem bind (h : R.Governs store) (frame : FrameId) (name : String) {value : Value}
    (hvalue : R.Good value) : R.Governs (store.bind frame name value) where
  holds f hf binding hbinding := by
    rcases Store.mem_bindings_bind hbinding with hold | hnew
    · exact h.holds f hf binding hold
    · exact hnew ▸ hvalue
  outward f outer hf houter := h.outward f outer hf (by rwa [Store.outer?_bind] at houter)
  unused f hle := h.unused f (by rwa [Store.size_bind] at hle)

theorem enclose (h : R.Governs store) {frame : FrameId} (hframe : R.seen frame) :
    R.Governs (store.enclose frame).2 where
  holds f hf binding hbinding := h.holds f hf binding (Store.mem_bindings_addFrame hbinding)
  outward f outer hf houter := by
    rw [Store.outer?_enclose] at houter
    split at houter
    · exact Option.some.inj houter ▸ hframe
    · exact h.outward f outer hf houter
  unused f hle := h.unused f (Nat.le_of_succ_le (by rwa [Store.size_enclose] at hle))

end Governs

/-- Where every frame is seen, the store has to hold good values, and no more. -/
theorem governs_iff_holds (hseen : ∀ frame, R.seen frame) {store : Store} :
    R.Governs store ↔ store.Holds R.Good :=
  ⟨fun h frame => h.holds frame (hseen frame),
    fun h => ⟨fun frame _ => h frame, fun _ outer _ _ => hseen outer, fun frame _ => hseen frame⟩⟩

/-! ### Results -/

namespace Result

variable {empty returns empty' returns' : Prop} {value : Value}

theorem mono (h : R.Result empty returns value) (he : empty → empty')
    (hr : returns → returns') : R.Result empty' returns' value := by
  cases h with
  | good h => exact .good h
  | nothing h => exact .nothing (he h)
  | returned id h hvalue => exact .returned id (hr h) hvalue

theorem orNull (h : R.Result empty returns value) : R.Result False returns value.orNull := by
  cases h with
  | good h => exact .good (h.orNull (R.good_plain _ rfl))
  | nothing => exact .good (Value.all_of_components_eq_nil rfl (R.good_plain _ rfl))
  | returned id h hvalue => exact .returned id h hvalue

theorem unwrap (h : R.Result empty returns value) : R.Result empty False value.unwrap := by
  cases h with
  | good h =>
    -- a value on its way out may be good itself, and what it carries is a part of it
    cases value with
    | returned id value =>
      exact .good (h.of_isPart (Value.isPart_of_mem_components List.mem_cons_self))
    | _ => exact .good h
  | nothing h => exact .nothing h
  | returned id h hvalue => exact .good hvalue

theorem of_not_isSignal (h : R.Result empty returns value) (hvalue : ¬ value.isSignal) :
    R.Result empty False value := by
  cases h with
  | good h => exact .good h
  | nothing h => exact .nothing h
  | returned => exact absurd rfl hvalue

theorem toGood (h : R.Result False False value) : R.Good value := by
  cases h with
  | good h => exact h
  | nothing h => exact h.elim
  | returned id h => exact h.elim

end Result

/-! ### Keeping to a regime -/

section Maintains

variable {post mid : α → Prop} {post' : β → Prop} {x : EvalM α} {k : α → EvalM β}

theorem Maintains.mono (h : R.Maintains mid x) (hpost : ∀ a, mid a → post a) :
    R.Maintains post x := by
  intro store hstore
  obtain ⟨hafter, hend⟩ := h store hstore
  refine ⟨hafter, ?_⟩
  split at hend
  · exact hpost _ hend
  · exact hend

theorem Maintains.pure {a : α} (h : post a) : R.Maintains post (pure a) :=
  fun _ hstore => ⟨hstore, h⟩

theorem Maintains.throw {fault : Fault} (h : R.tolerates fault) : R.Maintains post (throw fault) :=
  fun _ hstore => ⟨hstore, h⟩

theorem Maintains.bind (hx : R.Maintains mid x) (hk : ∀ a, mid a → R.Maintains post' (k a)) :
    R.Maintains post' (x >>= k) := by
  intro store hstore
  obtain ⟨hafter, hend⟩ := hx store hstore
  rw [EvalM.exec_bind]
  rcases hrun : x.exec store with ⟨fault | a, after⟩
  · rw [hrun] at hafter hend
    exact ⟨hafter, hend⟩
  · rw [hrun] at hafter hend
    exact hk a hend after hafter

theorem Maintains.fresh : R.Maintains (fun _ => True) EvalM.fresh :=
  fun _ hstore => ⟨hstore.congr rfl, trivial⟩

theorem Maintains.newReturned {empty returns : Prop} {value : Value} (h : R.Good value)
    (hreturns : returns) : R.Maintains (R.Result empty returns) (EvalM.newReturned value) :=
  Maintains.fresh.bind fun id _ => .pure (.returned id hreturns h)

theorem Maintains.bindName (frame : FrameId) (name : String) {value : Value} (h : R.Good value) :
    R.Maintains (fun _ => True) (EvalM.bind frame name value) :=
  fun _ hstore => ⟨hstore.bind frame name h, trivial⟩

/-- A new frame is one that is seen. -/
theorem Maintains.enclose {frame : FrameId} (h : R.seen frame) :
    R.Maintains R.seen (EvalM.enclose frame) :=
  fun store hstore => ⟨hstore.enclose h, hstore.unused store.frames.size (Nat.le_refl _)⟩

end Maintains

theorem good_of_components_eq_nil {value : Value} (hvalue : value.components = [])
    (h : R.good value) : R.Good value :=
  Value.all_of_components_eq_nil hvalue h

theorem good_of_isPlain {value : Value} (h : value.isPlain) : R.Good value :=
  good_of_components_eq_nil (Value.components_of_isPlain h) (R.good_plain value h)

theorem good_orNull {value : Value} (h : R.Good value) : R.Good value.orNull :=
  h.orNull (R.good_plain _ rfl)

/-- Operations on good values, in frames that are seen, keep to every regime. -/
theorem maintains_of_operates {frames : List FrameId} {args : List Value} {x : EvalM Value}
    (h : Operates frames args x) (hframes : ∀ frame ∈ frames, R.seen frame)
    (hargs : ∀ arg ∈ args, R.Good arg) : R.Maintains R.Good x := by
  intro store hstore
  have hoperation := h store
  refine ⟨hstore.congr hoperation.frames_eq, ?_⟩
  have hgood : ∀ value, (x.exec store).1 = .ok value → R.Good value :=
    fun _ => hoperation.all R.good_plain R.good_data
      (fun frame hframe _ _ => hstore.lookup (hframes frame hframe)) hargs
  generalize x.exec store = ending at hoperation hgood
  cases hoperation with
  | plain | found | made | printed => exact hgood _ rfl
  | kindless hmem => exact R.kindless (hargs _ hmem).self
  | textless hmem hobstacle => exact R.textless _ _ (hargs _ hmem) hobstacle

/-! ### Coming to the same end -/

section Agrees

variable {ε γ : Type} {stop : Fault → ε} {view : β → StopM ε γ} {x : EvalM α} {y : StopM ε α}

theorem agrees_lift (x : EvalM α) : R.Agrees stop pure x (StopM.lift stop x) := by
  intro store _
  rw [bind_pure]

/-- Two evaluations of the language agree if they end alike from all stores that are governed. -/
theorem agrees_iff_exec_eq {x x' : EvalM α} :
    R.Agrees id pure x x' ↔ ∀ store : Store, R.Governs store → x'.exec store = x.exec store := by
  unfold Agrees
  rw [bind_pure, StopM.lift_id]
  rfl

theorem agrees_refl (x : EvalM α) : R.Agrees id pure x x :=
  agrees_iff_exec_eq.2 fun _ _ => rfl

theorem Agrees.ite {c : Prop} [Decidable c] {x x' : EvalM β} {y y' : StopM ε γ}
    (h : R.Agrees stop view x y) (h' : R.Agrees stop view x' y') :
    R.Agrees stop view (if c then x else x') (if c then y else y') := by
  split <;> assumption

/-- The rule for sequence: what comes behind has to agree for the results that there can be. -/
theorem Agrees.bind {mid : α → Prop} {k : α → EvalM β} {k' : α → StopM ε γ}
    (hx : R.Agrees stop pure x y) (hmaintains : R.Maintains mid x)
    (hk : ∀ a, mid a → R.Agrees stop view (k a) (k' a)) :
    R.Agrees stop view (x >>= k) (y >>= k') := by
  intro store hstore
  obtain ⟨hafter, hend⟩ := hmaintains store hstore
  rw [StopM.exec_bind, hx store hstore, bind_pure, StopM.lift_bind, bind_assoc, StopM.exec_bind,
    StopM.exec_lift]
  -- the first steps have ended alike, with a fault or where `hk` begins
  rcases hrun : x.exec store with ⟨fault | a, after⟩
  · rfl
  · rw [hrun] at hafter hend
    exact hk a hend after hafter

end Agrees

namespace Guards

variable {post mid : α → Prop} {post' : β → Prop} {x x' : EvalM α} {y y' : GuardM α}
  {k : α → EvalM β} {k' : α → GuardM β}

theorem mono (h : R.Guards mid x y) (hpost : ∀ a, mid a → post a) : R.Guards post x y :=
  ⟨h.maintains.mono hpost, h.agrees⟩

theorem pure {a : α} (h : post a) : R.Guards post (pure a) (pure a) :=
  ⟨.pure h, agrees_lift _⟩

theorem throw {fault : Fault} (h : R.tolerates fault) :
    R.Guards post (throw fault) (throw (.fault fault)) :=
  ⟨.throw h, agrees_lift _⟩

theorem step (h : R.Maintains post x) : R.Guards post x (Guard.step x) :=
  ⟨h, agrees_lift x⟩

theorem bind (hx : R.Guards mid x y) (hk : ∀ a, mid a → R.Guards post' (k a) (k' a)) :
    R.Guards post' (x >>= k) (y >>= k') :=
  ⟨hx.maintains.bind fun a ha => (hk a ha).maintains,
    hx.agrees.bind hx.maintains fun a ha => (hk a ha).agrees⟩

theorem ite {c : Prop} [Decidable c] (h : R.Guards post x y) (h' : R.Guards post x' y') :
    R.Guards post (if c then x else x') (if c then y else y') := by
  split <;> assumption

/-- A check that the regime allows is no obstacle. -/
theorem check {k : Value → EvalM β} {k' : Value → GuardM β} {use : Use} {x : EvalM Value}
    {y : GuardM Value} {mid : Value → Prop} (hx : R.Guards mid x y)
    (hallows : ∀ value, mid value → R.allows use value)
    (hk : ∀ value, mid value → R.Guards post' (k value) (k' value)) :
    R.Guards post' (x >>= k) (y >>= fun value => Guard.check R.allows use value >>= k') := by
  refine hx.bind fun value hvalue => ?_
  rw [Guard.check, if_pos (hallows value hvalue), pure_bind]
  exact hk value hvalue

theorem check_last {use : Use} {x : EvalM Value} {y : GuardM Value} {post : Value → Prop}
    (hx : R.Guards post x y) (hallows : ∀ value, post value → R.allows use value) :
    R.Guards post x (y >>= Guard.check R.allows use) := by
  have h := hx.check hallows fun value hvalue => Guards.pure hvalue
  simpa only [bind_pure] using h

end Guards

/-! ### Trees -/

/-- A tree that the regime suits, with good values as its only outcomes. -/
structure Settles (R : Regime) (node : Node) : Prop where
  suits : R.suits node
  good : ∀ value, R.Outcome node value → R.Good value

/-- Expressions settle wherever they are not statements. -/
theorem settles_of_mem_places {node : Node} (hsuits : R.suits node)
    (hnode : node.isExpressionStatement = false) {part : Node}
    (hplace : (.expression, part) ∈ node.places) : R.Settles part := by
  obtain ⟨hrole, hpart⟩ := R.places node hsuits _ hplace
  refine ⟨hpart, fun value houtcome => ?_⟩
  cases houtcome with
  | good h => exact h
  | nothing h => exact absurd hrole h
  | returned id h hvalue =>
    -- only a conditional with a return statement in a branch can come to this
    simp only [Node.canReturn, hrole] at h
    refine Value.all_iff.2 ⟨R.settled node hsuits hnode _ hplace h id _, ?_⟩
    simpa [Value.components] using hvalue

/-- The rule for an expression that settles: its value is good, and may be put to any use. -/
theorem Guards.settled {node : Node} (hnode : R.Settles node) {use : Use} {x : EvalM Value}
    {y : GuardM Value} {k : Value → EvalM β} {k' : Value → GuardM β} {post : β → Prop}
    (hx : R.Guards (R.Outcome node) x y)
    (hk : ∀ value, R.Good value → R.Guards post (k value) (k' value)) :
    R.Guards post (x >>= k) (y >>= fun value => Guard.check R.allows use value >>= k') :=
  .check (hx.mono hnode.good) (fun value hvalue => R.allows_good use value hvalue.self) hk

/-- The rule for operations on good values. -/
theorem Guards.operation {args : List Value} {x : EvalM Value} {empty returns : Prop}
    (h : Operates [] args x) (hargs : ∀ arg ∈ args, R.Good arg) :
    R.Guards (R.Result empty returns) x (Guard.step x) :=
  .step ((maintains_of_operates h (List.forall_mem_nil _) hargs).mono fun _ => .good)

/-- The rule for names. -/
theorem maintains_evalName {frame : FrameId} (h : R.seen frame) (name : String) :
    R.Maintains R.Good (evalName frame name) :=
  maintains_of_operates (evalName_operates frame name) (List.forall_mem_singleton.2 h)
    (List.forall_mem_nil _)

theorem settles_pairs {token : Token} {pairs : List (Node × Node)}
    (hsuits : R.suits (.hash token pairs)) :
    ∀ pair ∈ pairs, R.Settles pair.1 ∧ R.Settles pair.2 := by
  intro pair hpair
  have hplace : ∀ part ∈ [pair.1, pair.2],
      (Role.expression, part) ∈ (Node.hash token pairs).places := fun part hpart =>
    List.mem_flatMap.2 ⟨pair, hpair, List.mem_map_of_mem hpart⟩
  exact ⟨settles_of_mem_places hsuits rfl (hplace _ List.mem_cons_self),
    settles_of_mem_places hsuits rfl (hplace _ (List.mem_cons_of_mem _ List.mem_cons_self))⟩

/-- What the statements of a program come to may be its outcome. -/
theorem allows_outcome (R : Regime) {value : Value} (h : R.Result True False value) :
    R.allows .outcome value := by
  cases h with
  | good h => exact R.allows_good _ value h.self
  | nothing => exact R.allows_nothing
  | returned id h => exact h.elim

/-- The outcome of an expression may be that of a statement. -/
theorem allows_statement (R : Regime) {node : Node} (hrole : node.role? = some .expression)
    {value : Value} (h : R.Outcome node value) : R.allows .statement value := by
  cases h with
  | good h => exact R.allows_good _ value h.self
  | nothing h => exact absurd hrole h
  | returned id => exact R.allows_returned id _

/-- A rule for calls that keeps to the regime and is let pass by the guards. -/
def GuardsCalls (R : Regime) (call : CallRule) (call' : GuardedCallRule) : Prop :=
  ∀ callee args, R.Good callee → (∀ arg ∈ args, R.Good arg) →
    R.Guards R.Good (call callee args) (call' callee args)

end Regime

namespace Node

open Regime

variable {R : Regime} {call : CallRule} {call' : GuardedCallRule}

mutual

theorem eval_guards (hcall : R.GuardsCalls call call') {frame : FrameId} (hframe : R.seen frame) :
    (node : Node) →
    R.suits node → R.Guards (R.Outcome node) (node.eval call frame)
      (node.evalGuarded R.allows call' frame)
  | program statements, hsuits => by
    rw [eval, evalGuarded]
    have hstatements : ∀ statement ∈ statements, R.suits statement := fun statement hmem =>
      (R.places _ hsuits _ (List.mem_map_of_mem hmem)).2
    have h := (evalProgram_guards hcall hframe (.nothing trivial) statements hstatements).check_last
      fun value hvalue => R.allows_outcome hvalue
    exact h.mono fun value hvalue => hvalue.mono (fun _ => nofun) False.elim
  | letStatement token target value, hsuits => by
    rw [eval, evalGuarded]
    have hvalue := settles_of_mem_places hsuits rfl List.mem_cons_self
    refine .settled hvalue (eval_guards hcall hframe value hvalue.suits) fun v hv => ?_
    refine .ite (.pure (.good hv)) ?_
    exact .bind (.step (.bindName frame target.name (good_orNull hv))) fun _ _ =>
      .pure (.nothing nofun)
  | returnStatement token none, hsuits => by
    rw [eval, evalGuarded]
    exact .step (.newReturned (good_of_isPlain rfl) rfl)
  | returnStatement token (some value), hsuits => by
    rw [eval, evalGuarded]
    have hvalue := settles_of_mem_places hsuits rfl List.mem_cons_self
    refine .settled hvalue (eval_guards hcall hframe value hvalue.suits) fun v hv => ?_
    exact .ite (.pure (.good hv)) (.step (.newReturned (good_orNull hv) rfl))
  | expressionStatement token expression, hsuits => by
    rw [eval, evalGuarded]
    obtain ⟨hrole, hexpression⟩ := R.places _ hsuits _ List.mem_cons_self
    have h := (eval_guards hcall hframe expression hexpression).check_last
      fun value hvalue => R.allows_statement hrole hvalue
    exact h.mono fun value hvalue => hvalue.mono (fun _ => nofun) hasReturn_of_canReturn
  | block token statements, hsuits => by
    rw [eval, evalGuarded]
    have hstatements : ∀ statement ∈ statements, R.suits statement ∧
        (statement.hasReturn → anyHasReturn statements) := fun statement hmem =>
      ⟨(R.places _ hsuits _ (List.mem_map_of_mem hmem)).2, anyHasReturn_of_mem hmem⟩
    have h := evalBlock_guards hcall hframe (.nothing trivial) statements hstatements
    exact h.mono fun value hvalue => hvalue.mono (fun _ => nofun) id
  | identifier ident, hsuits => by
    rw [eval, evalGuarded]
    exact .step ((maintains_evalName hframe ident.name).mono fun _ => .good)
  | integer token value, hsuits => by
    rw [eval, evalGuarded]
    exact .pure (.good (good_of_isPlain rfl))
  | string token value, hsuits => by
    rw [eval, evalGuarded]
    exact .operation (newString_operates value) (by simp)
  | boolean token value, hsuits => by
    rw [eval, evalGuarded]
    exact .pure (.good (good_of_isPlain rfl))
  | unary token operator right, hsuits => by
    rw [eval, evalGuarded]
    have hright := settles_of_mem_places hsuits rfl List.mem_cons_self
    refine .settled hright (eval_guards hcall hframe right hright.suits) fun r hr => ?_
    refine .ite (.pure (.good hr)) (.operation (Eval.unary_operates operator r.orNull) ?_)
    simpa using good_orNull hr
  | binary token left operator right, hsuits => by
    rw [eval, evalGuarded]
    have hleft := settles_of_mem_places hsuits rfl List.mem_cons_self
    have hright := settles_of_mem_places hsuits rfl (List.mem_cons_of_mem _ List.mem_cons_self)
    refine .settled hleft (eval_guards hcall hframe left hleft.suits) fun l hl =>
      .ite (.pure (.good hl)) ?_
    refine .settled hright (eval_guards hcall hframe right hright.suits) fun r hr =>
      .ite (.pure (.good hr)) ?_
    rw [Guard.binary_eq]
    exact .operation (Eval.binary_operates operator l.orNull r.orNull)
      (by simpa using ⟨good_orNull hl, good_orNull hr⟩)
  | conditional token condition consequence none, hsuits => by
    rw [eval, evalGuarded]
    have hcondition := settles_of_mem_places hsuits rfl List.mem_cons_self
    have hconsequence := (R.places _ hsuits _ (List.mem_cons_of_mem _ List.mem_cons_self)).2
    refine .settled hcondition (eval_guards hcall hframe condition hcondition.suits) fun c hc =>
      .ite (.pure (.good hc)) (.ite ?_ (.pure (.good (good_of_isPlain rfl))))
    refine .bind (eval_guards hcall hframe consequence hconsequence) fun v hv => .pure ?_
    exact hv.orNull.mono False.elim hasReturn_of_canReturn
  | conditional token condition consequence (some alternative), hsuits => by
    rw [eval, evalGuarded]
    have hcondition := settles_of_mem_places hsuits rfl List.mem_cons_self
    have hconsequence := (R.places _ hsuits _ (List.mem_cons_of_mem _ List.mem_cons_self)).2
    have halternative := (R.places _ hsuits _
      (List.mem_cons_of_mem _ (List.mem_cons_of_mem _ List.mem_cons_self))).2
    refine .settled hcondition (eval_guards hcall hframe condition hcondition.suits) fun c hc =>
      .ite (.pure (.good hc)) (.ite ?_ ?_)
    · refine .bind (eval_guards hcall hframe consequence hconsequence) fun v hv => .pure ?_
      exact hv.orNull.mono False.elim fun h =>
        Bool.or_eq_true_iff.2 (.inl (hasReturn_of_canReturn h))
    · refine .bind (eval_guards hcall hframe alternative halternative) fun v hv => .pure ?_
      exact hv.orNull.mono False.elim fun h =>
        Bool.or_eq_true_iff.2 (.inr (hasReturn_of_canReturn h))
  | function token parameters body, hsuits => by
    rw [eval, evalGuarded]
    refine .bind (.step .fresh) fun id _ => .pure (.good ?_)
    exact good_of_components_eq_nil rfl (R.good_function token id parameters body frame hsuits hframe)
  | Node.call token callee arguments, hsuits => by
    rw [eval, evalGuarded]
    have hcallee := settles_of_mem_places hsuits rfl List.mem_cons_self
    have harguments : ∀ argument ∈ arguments, R.Settles argument := fun argument hmem =>
      settles_of_mem_places hsuits rfl (List.mem_cons_of_mem _ (List.mem_map_of_mem hmem))
    refine .settled hcallee (eval_guards hcall hframe callee hcallee.suits) fun f hf =>
      .ite (.pure (.good hf)) ?_
    refine .bind (evalEach_guards hcall hframe .argument arguments harguments) fun args hargs => ?_
    cases args with
    | ok args => exact (hcall f args hf hargs).mono fun _ => .good
    | error failure => exact .pure (.good hargs)
  | array token elements, hsuits => by
    rw [eval, evalGuarded]
    have helements : ∀ element ∈ elements, R.Settles element := fun element hmem =>
      settles_of_mem_places hsuits rfl (List.mem_map_of_mem hmem)
    refine .bind (evalEach_guards hcall hframe .element elements helements) fun values hvalues => ?_
    cases values with
    | ok values => exact .operation (newArray_operates values) hvalues
    | error failure => exact .pure (.good hvalues)
  | index token target position, hsuits => by
    rw [eval, evalGuarded]
    have htarget := settles_of_mem_places hsuits rfl List.mem_cons_self
    have hposition := settles_of_mem_places hsuits rfl (List.mem_cons_of_mem _ List.mem_cons_self)
    refine .settled htarget (eval_guards hcall hframe target htarget.suits) fun t ht =>
      .ite (.pure (.good ht)) ?_
    refine .settled hposition (eval_guards hcall hframe position hposition.suits) fun p hp =>
      .ite (.pure (.good hp)) ?_
    rw [Guard.index_eq]
    exact .operation (Eval.index_operates t p) (by simpa using ⟨ht, hp⟩)
  | hash token pairs, hsuits => by
    rw [eval, evalGuarded]
    exact (evalPairs_guards hcall hframe (List.forall_mem_nil _) pairs (settles_pairs hsuits)).mono fun _ => .good
  | foreign kind text, hsuits => by
    rw [eval, evalGuarded]
    exact .throw (R.foreign kind text hsuits)

theorem evalProgram_guards (hcall : R.GuardsCalls call call') {frame : FrameId}
    (hframe : R.seen frame) {last : Value}
    (hlast : R.Result True False last) : (statements : List Node) →
    (∀ statement ∈ statements, R.suits statement) →
    R.Guards (R.Result True False) (evalProgram call frame last statements)
      (guardedProgram R.allows call' frame last statements)
  | [], _ => by
    rw [evalProgram, guardedProgram]
    exact .pure hlast
  | statement :: statements, hsuits => by
    rw [evalProgram, guardedProgram]
    obtain ⟨hfirst, hrest⟩ := List.forall_mem_cons.1 hsuits
    refine .bind (eval_guards hcall hframe statement hfirst) fun v hv => ?_
    have houtcome := hv.mono (fun _ => trivial) id
    split
    · exact .pure houtcome.unwrap
    · next hsignal =>
      exact evalProgram_guards hcall hframe (houtcome.of_not_isSignal hsignal) statements hrest

theorem evalBlock_guards (hcall : R.GuardsCalls call call') {frame : FrameId}
    (hframe : R.seen frame) {returns : Prop}
    {last : Value} (hlast : R.Result True returns last) : (statements : List Node) →
    (∀ statement ∈ statements, R.suits statement ∧ (statement.hasReturn → returns)) →
    R.Guards (R.Result True returns) (evalBlock call frame last statements)
      (guardedBlock R.allows call' frame last statements)
  | [], _ => by
    rw [evalBlock, guardedBlock]
    exact .pure hlast
  | statement :: statements, hsuits => by
    rw [evalBlock, guardedBlock]
    obtain ⟨⟨hfirst, hreturns⟩, hrest⟩ := List.forall_mem_cons.1 hsuits
    refine .bind (eval_guards hcall hframe statement hfirst) fun v hv => ?_
    have houtcome := hv.mono (fun _ => trivial) fun h => hreturns (hasReturn_of_canReturn h)
    exact .ite (.pure houtcome) (evalBlock_guards hcall hframe houtcome statements hrest)

theorem evalEach_guards (hcall : R.GuardsCalls call call') {frame : FrameId}
    (hframe : R.seen frame) (use : Use) :
    (nodes : List Node) → (∀ node ∈ nodes, R.Settles node) →
    R.Guards (Value.EachIs R.Good) (evalEach call frame nodes)
      (guardedEach R.allows use call' frame nodes)
  | [], _ => by
    rw [evalEach, guardedEach]
    exact .pure (List.forall_mem_nil _)
  | node :: nodes, hsettles => by
    rw [evalEach, guardedEach]
    obtain ⟨hnode, hrest⟩ := List.forall_mem_cons.1 hsettles
    refine .settled hnode (eval_guards hcall hframe node hnode.suits) fun v hv => .ite (.pure hv) ?_
    refine .bind (evalEach_guards hcall hframe use nodes hrest) fun vs hvs => .pure ?_
    cases vs with
    | ok vs => exact List.forall_mem_cons.2 ⟨hv, hvs⟩
    | error failure => exact hvs

theorem evalPairs_guards (hcall : R.GuardsCalls call call') {frame : FrameId}
    (hframe : R.seen frame)
    {entries : List (HashKey × Value × Value)}
    (hentries : ∀ value ∈ Value.entryValues entries, R.Good value) :
    (pairs : List (Node × Node)) → (∀ pair ∈ pairs, R.Settles pair.1 ∧ R.Settles pair.2) →
    R.Guards R.Good (evalPairs call frame entries pairs)
      (guardedPairs R.allows call' frame entries pairs)
  | [], _ => by
    rw [evalPairs, guardedPairs]
    exact .step (maintains_of_operates (newHash_operates entries) (List.forall_mem_nil _) hentries)
  | (key, value) :: pairs, hsettles => by
    rw [evalPairs, guardedPairs]
    obtain ⟨⟨hkey, hvalue⟩, hrest⟩ := List.forall_mem_cons.1 hsettles
    refine .settled hkey (eval_guards hcall hframe key hkey.suits) fun k hk => .ite (.pure hk) ?_
    cases k.key? with
    | none =>
      exact .step (maintains_of_operates (unusableKey_operates k) (List.forall_mem_nil _)
        (by simpa using hk))
    | some hashKey =>
      refine .settled hvalue (eval_guards hcall hframe value hvalue.suits) fun v hv =>
        .ite (.pure hv) ?_
      exact evalPairs_guards hcall hframe (Value.forall_mem_insert hentries hashKey hk hv) pairs hrest

end

end Node

/-! ### Calls -/

namespace Regime

variable {R : Regime}

theorem bindParameters_guards (frame : FrameId) (parameters : List Identifier) {args : List Value}
    (hargs : ∀ arg ∈ args, R.Good arg) :
    R.Guards (fun _ => True) (bindParameters frame parameters args)
      (bindParametersGuarded R.allows frame parameters args) := by
  induction parameters generalizing args with
  | nil => exact .pure trivial
  | cons parameter parameters ih =>
    cases args with
    | nil => exact .pure trivial
    | cons arg args =>
      obtain ⟨harg, hrest⟩ := List.forall_mem_cons.1 hargs
      rw [bindParameters, bindParametersGuarded, Guard.check,
        if_pos (R.allows_good _ arg harg.self), pure_bind]
      exact .bind (.step (.bindName frame parameter.name harg)) fun _ _ => ih hrest

theorem callWith_guards {body : FrameId → Node → EvalM Value}
    {body' : FrameId → Node → GuardM Value}
    (h : ∀ frame node, R.seen frame → R.suits node →
      R.Guards (R.Result True True) (body frame node) (body' frame node)) :
    R.GuardsCalls (callWith body) (callGuardedWith R.allows body') := by
  intro callee args hcallee hargs
  have hnot : R.Guards R.Good (do EvalM.failWith (.notCallable (← EvalM.kindOf callee)))
      (Guard.step do EvalM.failWith (.notCallable (← EvalM.kindOf callee))) :=
    .step (maintains_of_operates (notCallable_operates callee) (List.forall_mem_nil _)
      (by simpa using hcallee))
  cases callee with
  | function id parameters node scope =>
    rw [callWith, callGuardedWith]
    have hsuits := R.suits_body id parameters node scope hcallee.self
    refine .ite (.step (maintains_of_operates (parameterCount_operates _ _)
      (List.forall_mem_nil _) (List.forall_mem_nil _))) ?_
    have hscope := R.seen_scope id parameters node scope hcallee.self
    refine .bind (.step (.enclose hscope)) fun frame hframe => ?_
    refine .bind (bindParameters_guards frame parameters hargs) fun _ _ => ?_
    exact .bind (h frame node hframe hsuits) fun v hv => .pure hv.unwrap.orNull.toGood
  | builtin f =>
    rw [callWith, callGuardedWith, Guard.run_eq]
    exact .step (maintains_of_operates (f.run_operates args) (List.forall_mem_nil _) hargs)
  | _ => exact hnot

/-- Under every regime calls are let pass by the guards, however deep they may go. -/
theorem callWithin_guards (R : Regime) (depth : Nat) :
    R.GuardsCalls (callWithin depth) (callGuardedWithin R.allows depth) := by
  induction depth with
  | zero => exact callWith_guards fun _ _ _ _ => .throw R.deep
  | succ depth ih =>
    refine callWith_guards fun frame node hframe hsuits => ?_
    exact (Node.eval_guards ih hframe node hsuits).mono fun value hvalue =>
      hvalue.mono (fun _ => trivial) fun _ => trivial

end Regime

end MonkeyLang
