import MonkeyLang.Proofs.Session

/-!
# Expressions are repeatable

An expression without a `let` binds nothing in the frame that it is evaluated in.  If it is
evaluated again, it finds the same bindings; but every object and every frame that it makes gets
another number than the first time, and `==` can tell objects apart.

`View.later before after` is the view from a store to a later one: what there was is still the same,
and what came next in the first store comes next in the second one.  The two evaluations are in
lockstep in this view, from the store before the first to the store before the second.

`expression_repeats` is the main statement, about the expressions of programs that are read from
texts and the stores of sessions.
-/

namespace MonkeyLang

/-! ### Later stores -/

/-- Numbers below `start` as they are, and those from `start` on moved up by `offset`. -/
def shiftFrom (start offset k : Nat) : Nat :=
  if k < start then k else k + offset

section Shift

variable (start offset : Nat)

theorem shiftFrom_of_lt {start k : Nat} (h : k < start) : shiftFrom start offset k = k :=
  if_pos h

theorem shiftFrom_add {start finish : Nat} (h : start ≤ finish) (k : Nat) :
    shiftFrom start (finish - start) (start + k) = finish + k := by
  rw [shiftFrom, if_neg (Nat.not_lt.2 (Nat.le_add_right start k))]
  omega

theorem shiftFrom_lt {a b : Nat} (h : a < b) :
    shiftFrom start offset a < shiftFrom start offset b := by
  unfold shiftFrom
  split_ifs <;> omega

theorem shiftFrom_injective : Function.Injective (shiftFrom start offset) := by
  intro a b h
  unfold shiftFrom at h
  split_ifs at h <;> omega

/-- What is below `start` afterwards was there before, and has not been moved. -/
theorem eq_of_shiftFrom_lt {k : Nat} (h : shiftFrom start offset k < start) :
    shiftFrom start offset k = k := by
  unfold shiftFrom at h ⊢
  split_ifs at h ⊢ with hk
  · rfl
  · omega

end Shift

/-- The view from a store to a later one.  What was made by then is the same in both. -/
def View.later (before after : Store) : View where
  frame := shiftFrom before.frames.size (after.frames.size - before.frames.size)
  object := shiftFrom before.nextId (after.nextId - before.nextId)
  seen _ := True
  hidden _ := false
  frame_lt := shiftFrom_lt _ _
  object_injective := shiftFrom_injective _ _

namespace View

variable {before after : Store}

theorem later_knows {n : Nat} {value : Value} (h : View.full.Knows n value) :
    (later before after).Knows n value := by
  refine Value.All.mono h fun part hpart => ?_
  cases part with
  | function id parameters body scope => exact ⟨⟨hpart.1.lt, trivial⟩, hpart.2⟩
  | _ => trivial

/-- Values of the store before are the same in both stores. -/
theorem later_move {heap : Heap} (hfits : before.Fits heap) {value : Value}
    (hvalue : value.Fits heap) (hknows : View.full.Knows before.frames.size value) :
    (later before after).move value = value := by
  refine Value.rename_eq_self value fun part hpart => ⟨fun id hid => ?_, fun scope hscope => ?_⟩
  · refine shiftFrom_of_lt _ ?_
    by_contra hnot
    have hobject := hvalue part hpart id hid
    rw [hfits.unused id (Nat.le_of_not_lt hnot)] at hobject
    cases hobject
  · have hadmits := hknows part hpart
    cases part with
    | function id parameters body frame =>
      cases hscope
      exact shiftFrom_of_lt _ hadmits.1.lt
    | _ => cases hscope

/-- A store is seen from an earlier one as long as the frames of that one have not changed. -/
theorem later_matches (h : before.IsSound) (hext : before.Extends ∅ after)
    (hnext : before.nextId ≤ after.nextId) : (later before after).Matches before after := by
  obtain ⟨heap, hfits⟩ := h.fits
  have hframe : ∀ f, f < before.frames.size → (later before after).frame f = f :=
    fun f hf => shiftFrom_of_lt _ hf
  have hframes : ∀ k, (later before after).frame (before.frames.size + k) =
      after.frames.size + k := fun k => shiftFrom_add hext.size_le k
  constructor
  · exact fun k => ⟨trivial, hframes k⟩
  · exact fun k => shiftFrom_add hnext k
  · intro f _
    by_cases hf : f < before.frames.size
    · rw [hframe f hf, hext.outer_eq f hf]
      cases houter : before.outer? f with
      | none => rfl
      | some outer =>
        have hlt := (h.closed.outward f outer trivial houter).2
        rw [Option.map_some, hframe outer (Nat.lt_trans hlt hf)]
    · obtain ⟨k, rfl⟩ := Nat.exists_eq_add_of_le (Nat.le_of_not_lt hf)
      rw [hframes, Store.outer?_eq_none (Nat.le_add_right _ _),
        Store.outer?_eq_none (Nat.le_add_right _ _)]
      rfl
  · exact fun f outer _ => h.closed.outward f outer trivial
  · intro f name _ _
    by_cases hf : f < before.frames.size
    · rw [hframe f hf, Store.binding?_congr (hext.frame_eq f hf (Set.notMem_empty f))]
      cases hvalue : before.binding? f name with
      | none => rfl
      | some value =>
        have hmem := Assoc.mem_of_find? hvalue
        rw [Option.map_some, later_move hfits (hfits.holds f _ hmem)
          (h.closed.known f name value trivial rfl hvalue)]
    · obtain ⟨k, rfl⟩ := Nat.exists_eq_add_of_le (Nat.le_of_not_lt hf)
      rw [hframes, Store.binding?_eq_none (Nat.le_add_right _ _),
        Store.binding?_eq_none (Nat.le_add_right _ _)]
      rfl
  · exact fun f name value _ _ hvalue =>
      later_knows (h.closed.known f name value trivial rfl hvalue)

end View

/-! ### The same evaluation twice -/

/-- Two evaluations end alike for a user: with values of the same kind that are shown by the same
text, or with calls that are nested too deep. -/
inductive LookAlike : Except Fault Value → Except Fault Value → Prop
  | deep : LookAlike (.error .depthExceeded) (.error .depthExceeded)
  | shown {value value' : Value} {kind : ValueKind} (hkind : value.kind? = some kind)
      (hkind' : value'.kind? = some kind) (hshown : value.obstacle? = none)
      (hshown' : value'.obstacle? = none) (hdisplay : value'.display = value.display) :
      LookAlike (.ok value) (.ok value')

/-- The value is an object that has been made. -/
def Store.HasMade (store : Store) (value : Value) : Prop :=
  ∃ id, value.id? = some id ∧ id < store.nextId

/-- What it means that an evaluation can be repeated: when it is made twice in a row, beginning
with the given store. -/
structure Repeats (x : EvalM Value) (store : Store) : Prop where
  /-- The ends look alike. -/
  outcome : LookAlike (x.exec store).1 (x.exec (x.exec store).2).1
  /-- The same lines are printed both times. -/
  printed : ∃ lines, (x.exec store).2.output = store.output ++ lines ∧
    (x.exec (x.exec store).2).2.output = (x.exec store).2.output ++ lines
  /-- The frames that there were are not changed, neither the first nor the second time. -/
  frames_eq : ∀ frame < store.frames.size,
    (x.exec store).2.frames[frame]? = store.frames[frame]? ∧
      (x.exec (x.exec store).2).2.frames[frame]? = store.frames[frame]?
  /-- If one of the values is plain, or an object that there was before, the other is the same. -/
  same : ∀ value value', (x.exec store).1 = .ok value → (x.exec (x.exec store).2).1 = .ok value' →
    value.isPlain ∨ value'.isPlain ∨ store.HasMade value ∨ store.HasMade value' → value' = value

theorem Value.exists_kind {value : Value} (h : value.All IsThere) :
    ∃ kind, value.kind? = some kind := by
  have hself := h.self
  cases value with
  | nothing => exact hself.elim
  | _ => exact ⟨_, rfl⟩

/-- What fits a heap is determined by its number. -/
theorem Value.Fits.eq_of_id? {heap : Heap} {value value' : Value} (h : value.Fits heap)
    (h' : value'.Fits heap) {id : ObjectId} (hid : value.id? = some id)
    (hid' : value'.id? = some id) : value' = value :=
  Option.some.inj ((All.self h' id hid').symm.trans (All.self h id hid))

namespace View

variable {before after : Store}

theorem later_object {id : ObjectId} (h : id < before.nextId) :
    (later before after).object id = id :=
  shiftFrom_of_lt _ h

/-- The counterpart of a value that was not made in between is the value. -/
theorem later_eq {n : Nat} {heap : Heap} {value value' : Value}
    (hsame : (later before after).Same n value value') (hvalue : value.Fits heap)
    (hvalue' : value'.Fits heap)
    (hold : value.isPlain ∨ value'.isPlain ∨ before.HasMade value ∨ before.HasMade value') :
    value' = value := by
  have heq := hsame.eq
  have hid : value'.id? = value.id?.map (later before after).object := by
    rw [heq, Value.id?_rename]
  rcases hold with hplain | hplain | ⟨id, hmade, hlt⟩ | ⟨id, hmade, hlt⟩
  · rw [heq, View.move, Value.rename_of_isPlain _ hplain]
  · rw [heq, Value.isPlain_rename] at hplain
    rw [heq, View.move, Value.rename_of_isPlain _ hplain]
  · rw [hmade, Option.map_some, later_object hlt] at hid
    exact hvalue.eq_of_id? hvalue' hmade hid
  · rw [hmade] at hid
    obtain ⟨old, hold, hobject⟩ := Option.map_eq_some_iff.1 hid.symm
    -- the number was not moved, since it is still below that of the first new object
    have hmoved : (later before after).object old = old := by
      rw [← hobject] at hlt
      exact eq_of_shiftFrom_lt _ _ hlt
    rw [hmoved] at hobject
    exact hvalue.eq_of_id? hvalue' (hobject ▸ hold) hmade

end View

/-- Two values, the second the counterpart of the first, look alike if no value is missing in the
first, and so do faults that there can be. -/
theorem View.Alike.lookAlike {V : View} {n : Nat} {end₁ end₂ : Except Fault Value}
    (h : View.Alike (V.Same n) end₁ end₂) (hfault : ∀ fault, end₁ = .error fault →
      fault = .depthExceeded) (hthere : ∀ value, end₁ = .ok value → value.All Value.IsThere) :
    LookAlike end₁ end₂ := by
  cases h with
  | fault fault =>
    obtain rfl := hfault fault rfl
    exact .deep
  | @results value value' hsame =>
    obtain rfl := hsame.eq
    have hvalue := hthere value rfl
    have hshown := value.obstacle?_eq_none hvalue
    obtain ⟨kind, hkind⟩ := Value.exists_kind hvalue
    refine .shown hkind ?_ hshown ?_ (Value.display_rename _ value)
    · rw [Value.kind?_rename, hkind]
    · rw [Value.obstacle?_rename, hshown]

/-- The second evaluation is in lockstep with the first. -/
theorem eval_again (depth : Nat) {node : Node} (hlet : node.hasLet = false) {store : Store}
    (hstore : store.IsSound) {frame : FrameId} (hframe : frame < store.frames.size) :
    let first := (node.eval (callWithin depth) frame).exec store
    (View.later store first.2).EndsAlike store first.2 (View.later store first.2).Same first
      ((node.eval (callWithin depth) frame).exec first.2) := by
  intro first
  have hwrites := Node.eval_writes_nothing hlet depth frame
  -- the numbers of objects have grown, as the evaluation is in lockstep with itself
  have hnext : store.nextId ≤ first.2.nextId :=
    (Node.eval_lockstep (callWithin_lockstep .full depth) ⟨hframe, trivial⟩ node
      (Node.avoids_none node) store store rfl hstore.closed).nextId_le
  have hagain := Node.eval_lockstep (callWithin_lockstep (.later store first.2) depth)
    ⟨hframe, trivial⟩ node (Node.avoids_none node) store first.2 rfl
    (View.later_matches hstore (hwrites store) hnext)
  have hmoved : (View.later store first.2).frame frame = frame := shiftFrom_of_lt _ hframe
  rwa [hmoved] at hagain

/-- **Expressions are repeatable.**  An expression without a `let` outside of the bodies of its
functions, evaluated twice in a row in a frame of a session, comes to the same outcome, prints the
same lines and changes no bindings.  Values that are not made by the evaluation are the very same
both times. -/
theorem expression_repeats (depth : Nat) {text : List Char} {node : Node}
    (hnode : node ∈ (parse text).program.subtrees) (hrole : node.role? = some .expression)
    (hlet : node.hasLet = false) {store : Store} (hstore : store.InSession) {frame : FrameId}
    (hframe : frame < store.frames.size) :
    Repeats (node.eval (callWithin depth) frame) store := by
  have hsound := hstore.isSound
  obtain ⟨heap, hfits⟩ := hsound.fits
  have hkeeps := Node.eval_keepsObjects (callWithin_keepsObjects depth) frame
  have hwrites := Node.eval_writes_nothing hlet depth frame
  obtain ⟨-, -, -, hprinted, hresults⟩ := eval_again depth hlet hsound hframe
  have hmaintains := (Regime.presence_guards depth frame
    (Regime.presence_suits_of_mem_subtrees hnode hrole)).maintains
  obtain ⟨-, hend⟩ := hmaintains store (Regime.presence_governs_iff.2 hsound.holds)
  obtain ⟨heap₁, -, hfits₁, hfirst⟩ := hkeeps heap node store hfits
  obtain ⟨heap₂, hle, -, hsecond⟩ := hkeeps heap₁ node _ hfits₁
  have hframes := hwrites store
  have hframes' := hwrites ((node.eval (callWithin depth) frame).exec store).2
  refine ⟨?_, hprinted, fun f hf => ⟨hframes.frame_eq f hf (Set.notMem_empty f), ?_⟩, ?_⟩
  · refine hresults.lookAlike (fun fault hfault => ?_) fun value hvalue => ?_
    · rwa [hfault] at hend
    · rw [hvalue] at hend
      exact (Regime.presence_result hend).resolve_left fun hempty => hempty.2 hrole
  · rw [hframes'.frame_eq f (Nat.lt_of_lt_of_le hf hframes.size_le) (Set.notMem_empty f),
      hframes.frame_eq f hf (Set.notMem_empty f)]
  · intro value value' hvalue hvalue'
    rw [hvalue, hvalue'] at hresults
    obtain ⟨hsame⟩ := hresults
    exact View.later_eq hsame ((hfirst value hvalue).mono hle) (hsecond value' hvalue')

/-- A function that is called makes an array, compares it with itself and prints it. -/
theorem expression_repeats_call :
    let first := (parse "let f = fn(x) \x7b let a = [x]; puts(a); a == a \x7d;".toList).program
    let store := ((first.eval (callWithin maxCallDepth) Store.global).exec .initial).2
    ∃ node ∈ (parse "f(fn() \x7b let b = 1 \x7d)".toList).program.subtrees,
      node.role? = some .expression ∧ node.hasLet = false ∧ node.kind = "CallExpression" ∧
      store.InSession ∧ Store.global < store.frames.size ∧
      Repeats (node.eval (callWithin maxCallDepth) Store.global) store := by
  intro first store
  have hnode : ∃ node ∈ (parse "f(fn() \x7b let b = 1 \x7d)".toList).program.subtrees,
      node.role? = some .expression ∧ node.hasLet = false ∧ node.kind = "CallExpression" := by
    decide +kernel
  obtain ⟨node, hmem, hrole, hlet, hkind⟩ := hnode
  have hstore : store.InSession :=
    .evaluate .initial Store.InSession.initial.global_lt maxCallDepth _
  exact ⟨node, hmem, hrole, hlet, hkind, hstore, hstore.global_lt,
    expression_repeats maxCallDepth hmem hrole hlet hstore hstore.global_lt⟩

end MonkeyLang
