import MonkeyLang.Proofs.View

/-!
# Two runs in lockstep

`V.Lockstep n x y post` is a triple for two evaluations: from stores that match in the view `V`, of
which the first has `n` frames, they come to stores that match again, have printed the same lines,
and end alike.  Either both end in the same fault, or both have a result, and the results satisfy
`post`; for values this is mostly `V.Same`, that the second is the counterpart of the first.

There is a rule for every step, and an operation on counterparts is in lockstep with the operation
on the values themselves: none of them looks at a number but to ask whether two objects are the
same.  A name has to be looked up in a frame that is seen, and must not be hidden.
-/

namespace MonkeyLang

namespace View

variable (V : View)

/-- Two results that satisfy `post`, or the same fault. -/
inductive Alike {α β : Type} (post : α → β → Prop) : Except Fault α → Except Fault β → Prop
  | results {a : α} {b : β} (h : post a b) : Alike post (.ok a) (.ok b)
  | fault (fault : Fault) : Alike post (.error fault) (.error fault)

/-- How two runs end that were in lockstep, from `s` and `t`. -/
structure EndsAlike {α β : Type} (s t : Store) (post : Nat → α → β → Prop)
    (ending : Except Fault α × Store) (ending' : Except Fault β × Store) : Prop where
  size_le : s.frames.size ≤ ending.2.frames.size
  nextId_le : s.nextId ≤ ending.2.nextId
  stores : V.Matches ending.2 ending'.2
  printed : ∃ lines, ending.2.output = s.output ++ lines ∧ ending'.2.output = t.output ++ lines
  results : Alike (post ending.2.frames.size) ending.1 ending'.1

/-- From stores that match, the first with `n` frames, two evaluations end alike. -/
def Lockstep {α β : Type} (n : Nat) (x : EvalM α) (y : EvalM β) (post : Nat → α → β → Prop) :
    Prop :=
  ∀ s t : Store, s.frames.size = n → V.Matches s t →
    V.EndsAlike s t post (x.exec s) (y.exec t)

/-- The second value is the counterpart of the first, which is known. -/
structure Same (n : Nat) (value value' : Value) : Prop where
  eq : value' = V.move value
  knows : V.Knows n value

variable {V}

theorem same_move {n : Nat} {value : Value} (h : V.Knows n value) : V.Same n value (V.move value) :=
  ⟨rfl, h⟩

theorem same_of_isPlain {n : Nat} {value : Value} (h : value.isPlain) : V.Same n value value :=
  ⟨(Value.rename_of_isPlain _ h).symm, knows_of_isPlain h⟩

/-- What it takes for a step that prints nothing. -/
theorem printed_nothing (s t : Store) :
    ∃ lines, s.output = s.output ++ lines ∧ t.output = t.output ++ lines :=
  ⟨#[], by simp⟩

namespace Lockstep

variable {α β γ δ : Type} {n : Nat} {x x' : EvalM α} {y y' : EvalM β} {k : α → EvalM γ}
  {k' : β → EvalM δ} {mid post : Nat → α → β → Prop} {post' : Nat → γ → δ → Prop}

/-! ### Steps -/

theorem pure {a : α} {b : β} (h : post n a b) : V.Lockstep n (pure a) (pure b) post := by
  rintro s t rfl hmatch
  exact ⟨Nat.le_refl _, Nat.le_refl _, hmatch, printed_nothing s t, .results h⟩

theorem throw (fault : Fault) : V.Lockstep n (throw fault) (throw fault) post := by
  rintro s t rfl hmatch
  exact ⟨Nat.le_refl _, Nat.le_refl _, hmatch, printed_nothing s t, .fault fault⟩

/-- The rule for sequence: the runs stay together as long as each step keeps them together. -/
theorem bind (hx : V.Lockstep n x y mid)
    (hk : ∀ m a b, n ≤ m → mid m a b → V.Lockstep m (k a) (k' b) post') :
    V.Lockstep n (x >>= k) (y >>= k') post' := by
  rintro s t rfl hmatch
  obtain ⟨hsize, hnext, hstores, ⟨lines, hs, ht⟩, hresults⟩ := hx s t rfl hmatch
  rw [EvalM.exec_bind, EvalM.exec_bind]
  generalize x.exec s = first at hsize hnext hstores hs hresults ⊢
  generalize y.exec t = second at hstores ht hresults ⊢
  obtain ⟨end₁, s'⟩ := first
  obtain ⟨end₂, t'⟩ := second
  cases hresults with
  | fault fault => exact ⟨hsize, hnext, hstores, ⟨lines, hs, ht⟩, .fault fault⟩
  | results hresults =>
    obtain ⟨hsize', hnext', hstores', ⟨more, hs', ht'⟩, hresults'⟩ :=
      hk _ _ _ hsize hresults s' t' rfl hstores
    refine ⟨Nat.le_trans hsize hsize', Nat.le_trans hnext hnext', hstores',
      ⟨lines ++ more, ?_, ?_⟩, hresults'⟩
    · rw [hs', hs, Array.append_assoc]
    · rw [ht', ht, Array.append_assoc]

theorem ite {c c' : Prop} [Decidable c] [Decidable c'] (hc : c' ↔ c)
    (h : V.Lockstep n x y post) (h' : V.Lockstep n x' y' post) :
    V.Lockstep n (if c then x else x') (if c' then y else y') post := by
  by_cases hcond : c
  · rwa [if_pos hcond, if_pos (hc.2 hcond)]
  · rwa [if_neg hcond, if_neg fun hcond' => hcond (hc.1 hcond')]

/-- The rule for what follows an evaluation that gives a value. -/
theorem value {x y : EvalM Value} {k : Value → EvalM γ} {k' : Value → EvalM δ}
    (hx : V.Lockstep n x y V.Same)
    (hk : ∀ m v, n ≤ m → V.Knows m v → V.Lockstep m (k v) (k' (V.move v)) post') :
    V.Lockstep n (x >>= k) (y >>= k') post' := by
  refine hx.bind ?_
  rintro m v _ hle ⟨rfl, hv⟩
  exact hk m v hle hv

/-- The rule for what follows if the value is no failure, which would be passed on. -/
theorem passing {x y : EvalM Value} {k k' : Value → EvalM Value}
    (hx : V.Lockstep n x y V.Same)
    (hk : ∀ m v, n ≤ m → V.Knows m v → V.Lockstep m (k v) (k' (V.move v)) V.Same) :
    V.Lockstep n (x >>= fun v => if v.isError then Pure.pure v else k v)
      (y >>= fun v => if v.isError then Pure.pure v else k' v) V.Same := by
  refine hx.value fun m v hle hv => .ite ?_ (.pure (same_move hv)) (hk m v hle hv)
  rw [Value.isError_rename]

/-- A step that makes a new object out of known values. -/
theorem make {value value' : ObjectId → Value}
    (hmove : ∀ id, value' (V.object id) = V.move (value id))
    (hknows : ∀ id, V.Knows n (value id)) :
    V.Lockstep n (do return value (← EvalM.fresh)) (do return value' (← EvalM.fresh)) V.Same := by
  rintro s t rfl hmatch
  rw [EvalM.exec_fresh_bind, EvalM.exec_fresh_bind]
  refine ⟨Nat.le_refl _, Nat.le_succ _, hmatch.allocate, printed_nothing s t, .results ⟨?_, ?_⟩⟩
  · rw [← hmatch.object_nextId, hmove]
  · exact hknows s.nextId

theorem failWith (failure : Failure) :
    V.Lockstep n (EvalM.failWith failure) (EvalM.failWith failure) V.Same :=
  make (fun _ => rfl) fun _ => knows_of_isData rfl (by simp [Value.components])

theorem newString (text : String) :
    V.Lockstep n (EvalM.newString text) (EvalM.newString text) V.Same :=
  make (fun _ => rfl) fun _ => knows_of_isData rfl (by simp [Value.components])

theorem newArray {elements : List Value} (h : ∀ element ∈ elements, V.Knows n element) :
    V.Lockstep n (EvalM.newArray elements)
      (EvalM.newArray (Value.renameEach V.toRenaming elements)) V.Same :=
  make (fun _ => rfl) fun _ => knows_of_isData rfl h

theorem newHash {entries : List (HashKey × Value × Value)}
    (h : ∀ value ∈ Value.entryValues entries, V.Knows n value) :
    V.Lockstep n (EvalM.newHash entries)
      (EvalM.newHash (Value.renameEntries V.toRenaming entries)) V.Same :=
  make (fun _ => rfl) fun _ => knows_of_isData rfl h

theorem newReturned {value : Value} (h : V.Knows n value) :
    V.Lockstep n (EvalM.newReturned value) (EvalM.newReturned (V.move value)) V.Same :=
  make (fun _ => rfl) fun _ => Value.all_iff.2 ⟨trivial, by simpa [Value.components] using h⟩

theorem kindOf {value : Value} {k : ValueKind → EvalM γ} {k' : ValueKind → EvalM δ}
    (h : ∀ kind, V.Lockstep n (k kind) (k' kind) post') :
    V.Lockstep n (EvalM.kindOf value >>= k) (EvalM.kindOf (V.move value) >>= k') post' := by
  unfold EvalM.kindOf
  rw [Value.kind?_rename]
  cases value.kind? with
  | some kind =>
    rw [pure_bind, pure_bind]
    exact h kind
  | none =>
    have hthrow : V.Lockstep n (MonadExcept.throw Fault.noKind : EvalM ValueKind)
        (MonadExcept.throw Fault.noKind : EvalM ValueKind) fun _ _ _ => False := .throw _
    exact hthrow.bind fun _ _ _ _ => False.elim

theorem textOf (value : Value) :
    V.Lockstep n (EvalM.textOf value) (EvalM.textOf (V.move value)) fun _ text text' =>
      text' = text := by
  unfold EvalM.textOf
  rw [Value.obstacle?_rename, Value.display_rename]
  cases value.obstacle? with
  | none => exact .pure rfl
  | some obstacle => exact .throw _

theorem print (line : String) :
    V.Lockstep n (EvalM.print line) (EvalM.print line) fun _ _ _ => True := by
  rintro s t rfl hmatch
  exact ⟨Nat.le_refl _, Nat.le_refl _, hmatch.print line, ⟨#[line], rfl, rfl⟩, .results trivial⟩

theorem bindName {frame : FrameId} (hframe : frame < n) (name : String) {value : Value}
    (hvalue : V.Knows n value) :
    V.Lockstep n (EvalM.bind frame name value)
      (EvalM.bind (V.frame frame) name (V.move value)) fun _ _ _ => True := by
  rintro s t rfl hmatch
  exact ⟨Nat.le_of_eq (Store.size_bind ..).symm, Nat.le_refl _, hmatch.bind hframe name hvalue,
    printed_nothing s t, .results trivial⟩

/-- A new frame is the counterpart of a new frame, and is seen. -/
theorem enclose {scope : FrameId} (hscope : V.Sees n scope) :
    V.Lockstep n (EvalM.enclose scope) (EvalM.enclose (V.frame scope)) fun m frame frame' =>
      frame' = V.frame frame ∧ V.Sees m frame := by
  rintro s t rfl hmatch
  rw [EvalM.exec_enclose, EvalM.exec_enclose]
  have hlt : s.frames.size < (s.enclose scope).2.frames.size :=
    Nat.lt_of_lt_of_eq (Nat.lt_succ_self _) (Store.size_enclose s scope).symm
  exact ⟨Nat.le_of_lt hlt, Nat.le_refl _, hmatch.enclose hscope, printed_nothing s t,
    .results ⟨hmatch.frame_size.symm, hlt, hmatch.seen_size⟩⟩

/-- What a name is looked up to in a frame that is seen. -/
theorem lookup {frame : FrameId} (hframe : V.Sees n frame) {name : String}
    (hname : V.hidden name = false) :
    V.Lockstep n (EvalM.lookup frame name) (EvalM.lookup (V.frame frame) name)
      fun m value? value?' => value?' = value?.map V.move ∧
        ∀ value, value? = some value → V.Knows m value := by
  rintro s t rfl hmatch
  rw [EvalM.exec_lookup, EvalM.exec_lookup]
  refine ⟨Nat.le_refl _, Nat.le_refl _, hmatch, printed_nothing s t, .results ⟨?_, ?_⟩⟩
  · exact hmatch.lookup_eq hframe.seen hname
  · exact fun value hvalue => hmatch.knows_lookup hframe.seen hname hvalue

/-- A failure that names the kind of a value. -/
theorem failWithKind (failure : ValueKind → Failure) (value : Value) :
    V.Lockstep n (do EvalM.failWith (failure (← EvalM.kindOf value)))
      (do EvalM.failWith (failure (← EvalM.kindOf (V.move value)))) V.Same :=
  .kindOf fun _ => .failWith _

theorem plain {value : Value} (h : value.isPlain) :
    V.Lockstep n (Pure.pure value) (Pure.pure value) V.Same :=
  .pure (same_of_isPlain h)

theorem known {value : Value} (h : V.Knows n value) :
    V.Lockstep n (Pure.pure value) (Pure.pure (V.move value)) V.Same :=
  .pure (same_move h)

end Lockstep

end View

open View

variable {V : View} {n : Nat}

/-! ### Operators -/

namespace Eval

theorem unary_lockstep (operator : String) (right : Value) :
    V.Lockstep n (unary operator right) (unary operator (V.move right)) V.Same := by
  unfold unary
  rw [Value.isTruthy_rename]
  refine .ite Iff.rfl (.plain rfl) (.ite Iff.rfl ?_ (.failWithKind _ _))
  have hfail : V.Lockstep n (do EvalM.failWith (.unknownPrefix "-" (← EvalM.kindOf right)))
      (do EvalM.failWith (.unknownPrefix "-" (← EvalM.kindOf (V.move right)))) V.Same :=
    .failWithKind (.unknownPrefix "-") right
  cases right with
  | integer => exact .plain rfl
  | _ => exact hfail

theorem integerBinary_lockstep (operator : String) (a b : Int) :
    V.Lockstep n (integerBinary operator a b) (integerBinary operator a b) V.Same := by
  unfold integerBinary
  refine .ite Iff.rfl (.plain rfl) <| .ite Iff.rfl (.plain rfl) <| .ite Iff.rfl (.plain rfl) <|
    .ite Iff.rfl ?_ <| .ite Iff.rfl (.plain rfl) <| .ite Iff.rfl (.plain rfl) <|
      .ite Iff.rfl (.plain rfl) <| .ite Iff.rfl (.plain rfl) <| .failWith _
  split
  · exact .plain rfl
  · exact .failWith _

/-- Whether two values are the same object does not depend on the numbers of the objects. -/
theorem generalBinary_lockstep (operator : String) (left right : Value) :
    V.Lockstep n (generalBinary operator left right)
      (generalBinary operator (V.move left) (V.move right)) V.Same := by
  unfold generalBinary
  rw [Value.isSame_rename V.object_injective]
  refine .ite Iff.rfl (.plain rfl) (.ite Iff.rfl (.plain rfl) ?_)
  refine .kindOf fun leftKind => .kindOf fun rightKind => .ite Iff.rfl (.failWith _) ?_
  cases left with
  | string =>
    cases right with
    | string => exact .ite Iff.rfl (.newString _) (.failWith _)
    | _ => exact .failWith _
  | _ => exact .failWith _

theorem binary_lockstep (operator : String) (left right : Value) :
    V.Lockstep n (binary operator left right)
      (binary operator (V.move left) (V.move right)) V.Same := by
  have hgeneral := generalBinary_lockstep (V := V) (n := n) operator left right
  cases left with
  | integer a =>
    cases right with
    | integer b => exact integerBinary_lockstep operator a b
    | _ => exact hgeneral
  | _ => exact hgeneral

theorem elementAt_rename (ρ : Renaming) (elements : List Value) (position : Int) :
    elementAt (Value.renameEach ρ elements) position = (elementAt elements position).rename ρ := by
  unfold elementAt
  split
  · rfl
  · rw [Value.renameEach_eq_map, List.getElem?_map]
    cases elements[position.toNat]? <;> rfl

theorem knows_elementAt {elements : List Value} (h : ∀ element ∈ elements, V.Knows n element)
    (position : Int) : V.Knows n (elementAt elements position) := by
  unfold elementAt
  split
  · exact knows_of_isPlain rfl
  · cases helement : elements[position.toNat]? with
    | none => exact knows_of_isPlain rfl
    | some element => exact h element (List.mem_of_getElem? helement)

theorem valueAt_rename (ρ : Renaming) (entries : List (HashKey × Value × Value)) (key : HashKey) :
    valueAt (Value.renameEntries ρ entries) key = (valueAt entries key).rename ρ := by
  unfold valueAt
  rw [Value.find?_renameEntries]
  cases Assoc.find? key entries <;> rfl

theorem knows_valueAt {entries : List (HashKey × Value × Value)}
    (h : ∀ value ∈ Value.entryValues entries, V.Knows n value) (key : HashKey) :
    V.Knows n (valueAt entries key) := by
  unfold valueAt
  split
  · next hfind =>
    exact h _ (Value.mem_entryValues.2 ⟨_, Assoc.mem_of_find? hfind, .inr rfl⟩)
  · exact knows_of_isPlain rfl

theorem index_lockstep {target : Value} (htarget : V.Knows n target) (position : Value) :
    V.Lockstep n (index target position) (index (V.move target) (V.move position)) V.Same := by
  have hfail : V.Lockstep n (do EvalM.failWith (.notIndexable (← EvalM.kindOf target)))
      (do EvalM.failWith (.notIndexable (← EvalM.kindOf (V.move target)))) V.Same :=
    .failWithKind .notIndexable target
  have hcomponents := (Value.all_iff.1 htarget).2
  cases target with
  | array id elements =>
    cases position with
    | integer p =>
      simp only [index, View.move, Value.rename, elementAt_rename]
      exact .known (knows_elementAt hcomponents p)
    | _ => exact hfail
  | hash id entries =>
    simp only [index, View.move, Value.rename, Value.key?_rename]
    cases position.key? with
    | some key =>
      simp only [valueAt_rename]
      exact .known (knows_valueAt hcomponents key)
    | none => exact .failWithKind .unusableKey position
  | _ => exact hfail

end Eval

/-! ### Builtin functions -/

namespace Builtin

theorem argumentCount_lockstep (args : List Value) (want : Nat) :
    V.Lockstep n (EvalM.failWith (.argumentCount args.length want))
      (EvalM.failWith (.argumentCount (Value.renameEach V.toRenaming args).length want))
      V.Same := by
  rw [Value.length_renameEach]
  exact .failWith _

theorem withOne_lockstep {args : List Value} {action : Value → EvalM Value}
    (h : ∀ arg ∈ args, V.Lockstep n (action arg) (action (V.move arg)) V.Same) :
    V.Lockstep n (withOne args action)
      (withOne (Value.renameEach V.toRenaming args) action) V.Same := by
  match args with
  | [] => exact .failWith _
  | [arg] => exact h arg List.mem_cons_self
  | arg :: other :: args => exact argumentCount_lockstep (arg :: other :: args) 1

theorem withElements_lockstep (f : Builtin) {arg : Value} (harg : V.Knows n arg)
    {action action' : List Value → EvalM Value}
    (h : ∀ elements, (∀ element ∈ elements, V.Knows n element) → V.Lockstep n (action elements)
      (action' (Value.renameEach V.toRenaming elements)) V.Same) :
    V.Lockstep n (withElements f arg action) (withElements f (V.move arg) action') V.Same := by
  have hfail : V.Lockstep n (do EvalM.failWith (.notArray f (← EvalM.kindOf arg)))
      (do EvalM.failWith (.notArray f (← EvalM.kindOf (V.move arg)))) V.Same :=
    .failWithKind (.notArray f) arg
  cases arg with
  | array id elements => exact h elements (Value.all_iff.1 harg).2
  | _ => exact hfail

theorem length_lockstep (arg : Value) :
    V.Lockstep n (length arg) (length (V.move arg)) V.Same := by
  have hfail : V.Lockstep n (do EvalM.failWith (.noLength (← EvalM.kindOf arg)))
      (do EvalM.failWith (.noLength (← EvalM.kindOf (V.move arg)))) V.Same :=
    .failWithKind .noLength arg
  cases arg with
  | array id elements =>
    simp only [length, View.move, Value.rename, Value.length_renameEach]
    exact .plain rfl
  | string => exact .plain rfl
  | _ => exact hfail

theorem printEach_lockstep (values : List Value) :
    V.Lockstep n (printEach values) (printEach (Value.renameEach V.toRenaming values))
      fun _ _ _ => True := by
  induction values generalizing n with
  | nil => exact .pure trivial
  | cons value values ih =>
    rw [Value.renameEach, printEach, printEach]
    refine (Lockstep.textOf value).bind ?_
    rintro m line _ - rfl
    exact (Lockstep.print _).bind fun _ _ _ _ _ => ih

theorem run_lockstep (f : Builtin) {args : List Value} (hargs : ∀ arg ∈ args, V.Knows n arg) :
    V.Lockstep n (f.run args) (f.run (Value.renameEach V.toRenaming args)) V.Same := by
  cases f with
  | len => exact withOne_lockstep fun arg _ => length_lockstep arg
  | first =>
    refine withOne_lockstep fun arg harg => withElements_lockstep _ (hargs arg harg) ?_
    intro elements helements
    cases elements with
    | nil => exact .plain rfl
    | cons value values => exact .known (helements value List.mem_cons_self)
  | last =>
    refine withOne_lockstep fun arg harg => withElements_lockstep _ (hargs arg harg) ?_
    intro elements helements
    rw [Value.renameEach_eq_map, List.getLast?_map]
    cases hlast : elements.getLast? with
    | none => exact .plain rfl
    | some value => exact .known (helements value (List.mem_of_getLast? hlast))
  | rest =>
    refine withOne_lockstep fun arg harg => withElements_lockstep _ (hargs arg harg) ?_
    intro elements helements
    cases elements with
    | nil => exact .plain rfl
    | cons value values => exact .newArray (List.forall_mem_cons.1 helements).2
  | push =>
    match args with
    | [arg, added] =>
      refine withElements_lockstep _ (hargs arg List.mem_cons_self) fun elements helements => ?_
      have hadded : V.Knows n added := hargs added (List.mem_cons_of_mem _ List.mem_cons_self)
      have happend : Value.renameEach V.toRenaming elements ++ [V.move added] =
          Value.renameEach V.toRenaming (elements ++ [added]) := by
        simp [Value.renameEach_eq_map]
      rw [happend]
      refine .newArray fun value hvalue => ?_
      rcases List.mem_append.1 hvalue with hold | hnew
      · exact helements value hold
      · exact List.mem_singleton.1 hnew ▸ hadded
    | [] => exact .failWith _
    | [_] => exact .failWith _
    | arg :: added :: other :: args =>
      exact argumentCount_lockstep (arg :: added :: other :: args) 2
  | puts => exact (printEach_lockstep args).bind fun _ _ _ _ _ => .plain rfl

end Builtin

/-! ### Names -/

/-- A name that is not hidden has counterparts as its values.  One that is not bound stands for the
same builtin function, or for none. -/
theorem evalName_lockstep {frame : FrameId} (hframe : V.Sees n frame) {name : String}
    (hname : V.hidden name = false) :
    V.Lockstep n (evalName frame name) (evalName (V.frame frame) name) V.Same := by
  refine (Lockstep.lookup hframe hname).bind ?_
  rintro m value? _ - ⟨rfl, hknows⟩
  cases value? with
  | none =>
    cases Builtin.ofName? name with
    | some f => exact .plain rfl
    | none => exact .failWith _
  | some value =>
    have hvalue := hknows value rfl
    cases value with
    | nothing =>
      cases Builtin.ofName? name with
      | some f => exact .plain rfl
      | none => exact .failWith _
    | _ => exact .known hvalue

end MonkeyLang
