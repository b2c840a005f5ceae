import MonkeyLang.Proofs.Lockstep

/-!
# Evaluation in lockstep

A tree is evaluated in a frame and in the counterpart of that frame.  If the frame is seen and the
names in the tree are not hidden, the two runs stay in lockstep, and so do calls of a function that
is known and of its counterpart: `Node.eval_lockstep` by induction on trees, where calls are assumed
to stay in lockstep, and `callWithin_lockstep` by induction on the depth of calls.
-/

namespace MonkeyLang

namespace View

variable (V : View)

/-- The values of several trees in two runs, or the failure in the place of one. -/
inductive SameEach (n : Nat) : Except Value (List Value) → Except Value (List Value) → Prop
  | values {values : List Value} (h : ∀ value ∈ values, V.Knows n value) :
    SameEach n (.ok values) (.ok (Value.renameEach V.toRenaming values))
  | failure {failure : Value} (h : V.Knows n failure) :
    SameEach n (.error failure) (.error (V.move failure))

/-- A rule for calls by which two runs stay in lockstep. -/
def CallsAlike (call : CallRule) : Prop :=
  ∀ n callee args, V.Knows n callee → (∀ arg ∈ args, V.Knows n arg) →
    V.Lockstep n (call callee args)
      (call (V.move callee) (Value.renameEach V.toRenaming args)) V.Same

end View

open View

variable {V : View} {call : CallRule}

/-! ### Trees -/

namespace Node

mutual

theorem eval_lockstep (hcall : V.CallsAlike call) {n : Nat} {frame : FrameId}
    (hframe : V.Sees n frame) : (node : Node) → node.Avoids V.hidden →
    V.Lockstep n (node.eval call frame) (node.eval call (V.frame frame)) V.Same
  | program statements, h => by
    rw [eval, eval]
    exact evalProgram_lockstep hcall hframe knows_nothing statements fun statement hmem =>
      h.of_mem_places (List.mem_map_of_mem hmem)
  | letStatement token target value, h => by
    rw [eval, eval]
    refine (eval_lockstep hcall hframe value (h.of_mem_places List.mem_cons_self)).passing
      fun m v hle hv => ?_
    rw [Value.orNull_rename]
    refine (Lockstep.bindName (hframe.mono hle).lt target.name hv.orNull).bind fun _ _ _ _ _ => ?_
    exact .known knows_nothing
  | returnStatement token none, _ => by
    rw [eval, eval]
    exact .newReturned (knows_of_isPlain rfl)
  | returnStatement token (some value), h => by
    rw [eval, eval]
    refine (eval_lockstep hcall hframe value (h.of_mem_places List.mem_cons_self)).passing
      fun m v hle hv => ?_
    rw [Value.orNull_rename]
    exact .newReturned hv.orNull
  | expressionStatement token expression, h => by
    rw [eval, eval]
    exact eval_lockstep hcall hframe expression (h.of_mem_places List.mem_cons_self)
  | block token statements, h => by
    rw [eval, eval]
    exact evalBlock_lockstep hcall hframe knows_nothing statements fun statement hmem =>
      h.of_mem_places (List.mem_map_of_mem hmem)
  | identifier ident, h => by
    rw [eval, eval]
    exact evalName_lockstep hframe (h.own List.mem_cons_self)
  | integer token value, _ => by
    rw [eval, eval]
    exact .plain rfl
  | string token value, _ => by
    rw [eval, eval]
    exact .newString value
  | boolean token value, _ => by
    rw [eval, eval]
    exact .plain rfl
  | unary token operator right, h => by
    rw [eval, eval]
    refine (eval_lockstep hcall hframe right (h.of_mem_places List.mem_cons_self)).passing
      fun m r hle hr => ?_
    rw [Value.orNull_rename]
    exact Eval.unary_lockstep operator r.orNull
  | binary token left operator right, h => by
    rw [eval, eval]
    have hright := h.of_mem_places (List.mem_cons_of_mem _ List.mem_cons_self)
    refine (eval_lockstep hcall hframe left (h.of_mem_places List.mem_cons_self)).passing
      fun m l hle hl => ?_
    refine (eval_lockstep hcall (hframe.mono hle) right hright).passing fun m' r hle' hr => ?_
    rw [Value.orNull_rename, Value.orNull_rename]
    exact Eval.binary_lockstep operator l.orNull r.orNull
  | conditional token condition consequence none, h => by
    rw [eval, eval]
    have hconsequence := h.of_mem_places (List.mem_cons_of_mem _ List.mem_cons_self)
    refine (eval_lockstep hcall hframe condition (h.of_mem_places List.mem_cons_self)).passing
      fun m c hle hc => ?_
    rw [Value.orNull_rename, Value.isTruthy_rename]
    refine .ite Iff.rfl ?_ (.plain rfl)
    refine (eval_lockstep hcall (hframe.mono hle) consequence hconsequence).value
      fun m' v hle' hv => ?_
    rw [Value.orNull_rename]
    exact .known hv.orNull
  | conditional token condition consequence (some alternative), h => by
    rw [eval, eval]
    have hconsequence := h.of_mem_places (List.mem_cons_of_mem _ List.mem_cons_self)
    have halternative := h.of_mem_places
      (List.mem_cons_of_mem _ (List.mem_cons_of_mem _ List.mem_cons_self))
    refine (eval_lockstep hcall hframe condition (h.of_mem_places List.mem_cons_self)).passing
      fun m c hle hc => ?_
    rw [Value.orNull_rename, Value.isTruthy_rename]
    refine .ite Iff.rfl ?_ ?_
    · refine (eval_lockstep hcall (hframe.mono hle) consequence hconsequence).value
        fun m' v hle' hv => ?_
      rw [Value.orNull_rename]
      exact .known hv.orNull
    · refine (eval_lockstep hcall (hframe.mono hle) alternative halternative).value
        fun m' v hle' hv => ?_
      rw [Value.orNull_rename]
      exact .known hv.orNull
  | function token parameters body, h => by
    rw [eval, eval]
    refine .make (fun _ => rfl) fun id => Value.all_of_components_eq_nil rfl ⟨hframe, ?_, ?_⟩
    · exact fun parameter hmem => h.own (List.mem_map_of_mem hmem)
    · exact h.of_mem_places List.mem_cons_self
  | Node.call token callee arguments, h => by
    rw [eval, eval]
    have harguments : ∀ argument ∈ arguments, argument.Avoids V.hidden := fun argument hmem =>
      h.of_mem_places (List.mem_cons_of_mem _ (List.mem_map_of_mem hmem))
    refine (eval_lockstep hcall hframe callee (h.of_mem_places List.mem_cons_self)).passing
      fun m f hle hf => ?_
    refine (evalEach_lockstep hcall (hframe.mono hle) arguments harguments).bind ?_
    rintro m' _ _ hle' (⟨hargs⟩ | ⟨hfailure⟩)
    · exact hcall m' f _ (hf.mono hle') hargs
    · exact .known hfailure
  | array token elements, h => by
    rw [eval, eval]
    have helements : ∀ element ∈ elements, element.Avoids V.hidden := fun element hmem =>
      h.of_mem_places (List.mem_map_of_mem hmem)
    refine (evalEach_lockstep hcall hframe elements helements).bind ?_
    rintro m _ _ hle (⟨hvalues⟩ | ⟨hfailure⟩)
    · exact .newArray hvalues
    · exact .known hfailure
  | index token target position, h => by
    rw [eval, eval]
    have hposition := h.of_mem_places (List.mem_cons_of_mem _ List.mem_cons_self)
    refine (eval_lockstep hcall hframe target (h.of_mem_places List.mem_cons_self)).passing
      fun m t hle ht => ?_
    refine (eval_lockstep hcall (hframe.mono hle) position hposition).passing
      fun m' p hle' hp => ?_
    exact Eval.index_lockstep (ht.mono hle') p
  | hash token pairs, h => by
    rw [eval, eval]
    refine evalPairs_lockstep hcall hframe (List.forall_mem_nil _) pairs fun pair hpair => ?_
    have hplace : ∀ part ∈ [pair.1, pair.2], (Role.expression, part) ∈ (hash token pairs).places :=
      fun part hpart => List.mem_flatMap.2 ⟨pair, hpair, List.mem_map_of_mem hpart⟩
    exact ⟨h.of_mem_places (hplace _ List.mem_cons_self),
      h.of_mem_places (hplace _ (List.mem_cons_of_mem _ List.mem_cons_self))⟩
  | foreign kind text, _ => by
    rw [eval, eval]
    exact .throw _

theorem evalProgram_lockstep (hcall : V.CallsAlike call) {n : Nat} {frame : FrameId}
    (hframe : V.Sees n frame) {last : Value} (hlast : V.Knows n last) :
    (statements : List Node) → (∀ statement ∈ statements, statement.Avoids V.hidden) →
    V.Lockstep n (evalProgram call frame last statements)
      (evalProgram call (V.frame frame) (V.move last) statements) V.Same
  | [], _ => by
    rw [evalProgram, evalProgram]
    exact .known hlast
  | statement :: statements, h => by
    rw [evalProgram, evalProgram]
    obtain ⟨hfirst, hrest⟩ := List.forall_mem_cons.1 h
    refine (eval_lockstep hcall hframe statement hfirst).value fun m v hle hv => ?_
    rw [Value.isSignal_rename, Value.unwrap_rename]
    refine .ite Iff.rfl (.known hv.unwrap) ?_
    exact evalProgram_lockstep hcall (hframe.mono hle) hv statements hrest

theorem evalBlock_lockstep (hcall : V.CallsAlike call) {n : Nat} {frame : FrameId}
    (hframe : V.Sees n frame) {last : Value} (hlast : V.Knows n last) :
    (statements : List Node) → (∀ statement ∈ statements, statement.Avoids V.hidden) →
    V.Lockstep n (evalBlock call frame last statements)
      (evalBlock call (V.frame frame) (V.move last) statements) V.Same
  | [], _ => by
    rw [evalBlock, evalBlock]
    exact .known hlast
  | statement :: statements, h => by
    rw [evalBlock, evalBlock]
    obtain ⟨hfirst, hrest⟩ := List.forall_mem_cons.1 h
    refine (eval_lockstep hcall hframe statement hfirst).value fun m v hle hv => ?_
    rw [Value.isSignal_rename]
    refine .ite Iff.rfl (.known hv) ?_
    exact evalBlock_lockstep hcall (hframe.mono hle) hv statements hrest

theorem evalEach_lockstep (hcall : V.CallsAlike call) {n : Nat} {frame : FrameId}
    (hframe : V.Sees n frame) : (nodes : List Node) → (∀ node ∈ nodes, node.Avoids V.hidden) →
    V.Lockstep n (evalEach call frame nodes) (evalEach call (V.frame frame) nodes) V.SameEach
  | [], _ => by
    rw [evalEach, evalEach]
    exact .pure (.values (List.forall_mem_nil _))
  | node :: nodes, h => by
    rw [evalEach, evalEach]
    obtain ⟨hfirst, hrest⟩ := List.forall_mem_cons.1 h
    refine (eval_lockstep hcall hframe node hfirst).value fun m v hle hv => ?_
    rw [Value.isError_rename]
    refine .ite Iff.rfl (.pure (.failure hv)) ?_
    refine (evalEach_lockstep hcall (hframe.mono hle) nodes hrest).bind ?_
    rintro m' _ _ hle' (⟨hvalues⟩ | ⟨hfailure⟩)
    · exact .pure (.values (List.forall_mem_cons.2 ⟨hv.mono hle', hvalues⟩))
    · exact .pure (.failure hfailure)

theorem evalPairs_lockstep (hcall : V.CallsAlike call) {n : Nat} {frame : FrameId}
    (hframe : V.Sees n frame) {entries : List (HashKey × Value × Value)}
    (hentries : ∀ value ∈ Value.entryValues entries, V.Knows n value) :
    (pairs : List (Node × Node)) →
    (∀ pair ∈ pairs, pair.1.Avoids V.hidden ∧ pair.2.Avoids V.hidden) →
    V.Lockstep n (evalPairs call frame entries pairs)
      (evalPairs call (V.frame frame) (Value.renameEntries V.toRenaming entries) pairs) V.Same
  | [], _ => by
    rw [evalPairs, evalPairs]
    exact .newHash hentries
  | (key, value) :: pairs, h => by
    rw [evalPairs, evalPairs]
    obtain ⟨⟨hkey, hvalue⟩, hrest⟩ := List.forall_mem_cons.1 h
    refine (eval_lockstep hcall hframe key hkey).passing fun m k hle hk => ?_
    rw [Value.key?_rename]
    cases k.key? with
    | none => exact .failWithKind .unusableKey k
    | some hashKey =>
      refine (eval_lockstep hcall (hframe.mono hle) value hvalue).passing fun m' v hle' hv => ?_
      rw [Value.insert_renameEntries]
      have hold : ∀ value ∈ Value.entryValues entries, V.Knows m' value := fun value hmem =>
        (hentries value hmem).mono (Nat.le_trans hle hle')
      exact evalPairs_lockstep hcall ((hframe.mono hle).mono hle')
        (Value.forall_mem_insert hold hashKey (hk.mono hle') hv) pairs hrest

end

end Node

/-! ### Calls -/

theorem bindParameters_lockstep {n : Nat} {frame : FrameId} (hframe : V.Sees n frame)
    (parameters : List Identifier) {args : List Value} (hargs : ∀ arg ∈ args, V.Knows n arg) :
    V.Lockstep n (bindParameters frame parameters args)
      (bindParameters (V.frame frame) parameters (Value.renameEach V.toRenaming args))
      fun _ _ _ => True := by
  induction parameters generalizing args n with
  | nil => exact .pure trivial
  | cons parameter parameters ih =>
    cases args with
    | nil => exact .pure trivial
    | cons arg args =>
      obtain ⟨harg, hrest⟩ := List.forall_mem_cons.1 hargs
      rw [Value.renameEach, bindParameters, bindParameters]
      refine (Lockstep.bindName hframe.lt parameter.name harg).bind fun m _ _ hle _ => ?_
      exact ih (hframe.mono hle) fun arg harg => (hrest arg harg).mono hle

theorem callWith_lockstep {body : FrameId → Node → EvalM Value}
    (h : ∀ n frame node, V.Sees n frame → node.Avoids V.hidden →
      V.Lockstep n (body frame node) (body (V.frame frame) node) V.Same) :
    V.CallsAlike (callWith body) := by
  intro n callee args hcallee hargs
  have hnot : V.Lockstep n (do EvalM.failWith (.notCallable (← EvalM.kindOf callee)))
      (do EvalM.failWith (.notCallable (← EvalM.kindOf (V.move callee)))) V.Same :=
    .failWithKind .notCallable callee
  cases callee with
  | function id parameters node scope =>
    obtain ⟨hscope, -, hnode⟩ := hcallee.self
    simp only [View.move, Value.rename, callWith, Value.length_renameEach]
    refine .ite Iff.rfl (.failWith _) ?_
    refine (Lockstep.enclose hscope).bind ?_
    rintro m frame _ hle ⟨rfl, hframe⟩
    refine (bindParameters_lockstep hframe parameters fun arg harg =>
      (hargs arg harg).mono hle).bind fun m' _ _ hle' _ => ?_
    refine (h m' frame node (hframe.mono hle') hnode).value fun k v _ hv => ?_
    rw [Value.unwrap_rename, Value.orNull_rename]
    exact .known hv.unwrap.orNull
  | builtin f => exact f.run_lockstep hargs
  | _ => exact hnot

/-- Calls stay in lockstep, however deep they may go before that is a fault. -/
theorem callWithin_lockstep (V : View) (depth : Nat) : V.CallsAlike (callWithin depth) := by
  induction depth with
  | zero => exact callWith_lockstep fun _ _ _ _ _ => .throw _
  | succ depth ih =>
    exact callWith_lockstep fun _ _ node hframe hnode => Node.eval_lockstep ih hframe node hnode

end MonkeyLang
