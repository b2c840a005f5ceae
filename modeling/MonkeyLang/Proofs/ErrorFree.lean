import Mathlib.Tactic.Common
import MonkeyLang.Proofs.Bindings

/-!
# Values without failures

`Value.ErrorFree` says that a failure is neither the value nor inside it, and `Store.ErrorFree` that
no name is bound to a value that is or contains one.

`Keeps x post` is the triple in which the steps of evaluation are described: from a store without
failures `x` comes to a store without failures, and a result that it gives satisfies `post`.  The
outcome of every operation on values without failures is a failure itself or free of failures
(`Value.IsOutcome`): none of them puts a failure inside another value.
-/

namespace MonkeyLang

namespace Value

mutual

/-- Tells whether a failure is the value or inside it. -/
def containsError : Value → Bool
  | error .. => true
  | array _ elements => anyContainsError elements
  | hash _ entries => anyEntryContainsError entries
  | returned _ value => value.containsError
  | nothing | null | integer _ | boolean _ | string .. | function .. | builtin _ => false

/-- Tells whether a failure is among several values or inside one of them. -/
def anyContainsError : List Value → Bool
  | [] => false
  | value :: values => value.containsError || anyContainsError values

/-- Tells whether a failure is inside one of the entries of a hash. -/
def anyEntryContainsError : List (HashKey × Value × Value) → Bool
  | [] => false
  | (_, key, value) :: entries =>
    key.containsError || value.containsError || anyEntryContainsError entries

end

/-- A failure is neither the value nor inside it. -/
def ErrorFree (value : Value) : Prop := value.containsError = false

instance (value : Value) : Decidable value.ErrorFree :=
  inferInstanceAs (Decidable (_ = _))

/-- All the values are free of failures. -/
def AllErrorFree (values : List Value) : Prop := ∀ value ∈ values, value.ErrorFree

/-- The keys and values of all entries are free of failures. -/
def EntriesErrorFree (entries : List (HashKey × Value × Value)) : Prop :=
  ∀ entry ∈ entries, entry.2.1.ErrorFree ∧ entry.2.2.ErrorFree

/-- A failure, or a value without failures. -/
def IsOutcome (value : Value) : Prop := value.isError ∨ value.ErrorFree

@[simp] theorem errorFree_nothing : nothing.ErrorFree := rfl

@[simp] theorem errorFree_null : null.ErrorFree := rfl

@[simp] theorem errorFree_integer (value : Int) : (integer value).ErrorFree := rfl

@[simp] theorem errorFree_boolean (value : Bool) : (boolean value).ErrorFree := rfl

@[simp] theorem errorFree_string (id : ObjectId) (value : String) : (string id value).ErrorFree :=
  rfl

@[simp] theorem errorFree_function (id : ObjectId) (parameters : List Identifier) (body : Node)
    (scope : FrameId) : (function id parameters body scope).ErrorFree := rfl

@[simp] theorem errorFree_builtin (f : Builtin) : (builtin f).ErrorFree := rfl

@[simp] theorem not_errorFree_error (id : ObjectId) (failure : Failure) :
    ¬ (error id failure).ErrorFree := nofun

@[simp] theorem errorFree_returned {id : ObjectId} {value : Value} :
    (returned id value).ErrorFree ↔ value.ErrorFree := Iff.rfl

@[simp] theorem errorFree_array {id : ObjectId} {elements : List Value} :
    (array id elements).ErrorFree ↔ AllErrorFree elements := by
  have hany : anyContainsError elements = elements.any containsError := by
    induction elements with
    | nil => rfl
    | cons value values ih => rw [anyContainsError, ih, List.any_cons]
  simp [ErrorFree, AllErrorFree, containsError, hany]

@[simp] theorem errorFree_hash {id : ObjectId} {entries : List (HashKey × Value × Value)} :
    (hash id entries).ErrorFree ↔ EntriesErrorFree entries := by
  have hany : anyEntryContainsError entries =
      entries.any fun entry => entry.2.1.containsError || entry.2.2.containsError := by
    induction entries with
    | nil => rfl
    | cons entry entries ih => rw [anyEntryContainsError, ih, List.any_cons]
  simp [ErrorFree, EntriesErrorFree, containsError, hany]

theorem ErrorFree.isError {value : Value} (h : value.ErrorFree) : value.isError = false := by
  cases value <;> first | rfl | exact absurd h (not_errorFree_error _ _)

theorem ErrorFree.orNull {value : Value} (h : value.ErrorFree) : value.orNull.ErrorFree := by
  cases value <;> exact h

theorem ErrorFree.unwrap {value : Value} (h : value.ErrorFree) : value.unwrap.ErrorFree := by
  cases value <;> exact h

theorem EntriesErrorFree.insert {entries : List (HashKey × Value × Value)}
    (h : EntriesErrorFree entries) (hashKey : HashKey) {key value : Value} (hkey : key.ErrorFree)
    (hvalue : value.ErrorFree) : EntriesErrorFree (Assoc.insert hashKey (key, value) entries) := by
  intro entry hentry
  rcases Assoc.mem_insert hentry with hmem | heq
  · exact h entry hmem
  · exact heq ▸ ⟨hkey, hvalue⟩

theorem ErrorFree.isOutcome {value : Value} (h : value.ErrorFree) : value.IsOutcome := .inr h

end Value

namespace Store

/-- No name is bound to a value that is or contains a failure. -/
def ErrorFree (store : Store) : Prop :=
  ∀ frame, ∀ binding ∈ store.bindings frame, binding.2.ErrorFree

theorem errorFree_initial : initial.ErrorFree := holds_initial Value.ErrorFree

theorem ErrorFree.lookup {store : Store} (h : store.ErrorFree) {frame : FrameId} {name : String}
    {value : Value} (hvalue : store.lookup frame name = some value) : value.ErrorFree :=
  Holds.lookup h hvalue

theorem ErrorFree.bind {store : Store} (h : store.ErrorFree) (frame : FrameId) (name : String)
    {value : Value} (hvalue : value.ErrorFree) : (store.bind frame name value).ErrorFree :=
  Holds.bind h frame name hvalue

theorem ErrorFree.addFrame {store : Store} (h : store.ErrorFree) (outer : Option FrameId) :
    (store.addFrame outer).2.ErrorFree :=
  Holds.addFrame h outer

end Store

/-! ### Steps of evaluation -/

namespace EvalM

variable {α β : Type}

@[simp] theorem exec_pure (a : α) (store : Store) :
    (pure a : EvalM α).exec store = (.ok a, store) :=
  rfl

@[simp] theorem exec_throw (fault : Fault) (store : Store) :
    (throw fault : EvalM α).exec store = (.error fault, store) := rfl

/-- Evaluation goes on with the store that the step before it has left, unless there was a fault. -/
theorem exec_bind (x : EvalM α) (k : α → EvalM β) (store : Store) :
    (x >>= k).exec store =
      match x.exec store with
      | (.ok a, store) => (k a).exec store
      | (.error fault, store) => (.error fault, store) := by
  simp only [exec, ExceptT.run_bind, StateT.run_bind]
  change (match (ExceptT.run x).run store with | (r, after) => _ : Except Fault β × Store) = _
  rcases (ExceptT.run x).run store with ⟨_ | a, after⟩ <;> rfl

end EvalM

/-- From a store without failures the evaluation comes to one without failures, and a result that
it gives satisfies `post`. -/
def Keeps {α : Type} (x : EvalM α) (post : α → Prop) : Prop :=
  ∀ store, store.ErrorFree →
    (x.exec store).2.ErrorFree ∧ ∀ a, (x.exec store).1 = .ok a → post a

namespace Keeps

variable {α β : Type} {x : EvalM α} {k : α → EvalM β} {post mid : α → Prop} {post₂ : β → Prop}

theorem mono (h : Keeps x mid) (hpost : ∀ a, mid a → post a) : Keeps x post :=
  fun store hstore => ⟨(h store hstore).1, fun a ha => hpost a ((h store hstore).2 a ha)⟩

theorem pure {a : α} (h : post a) : Keeps (pure a) post := by
  intro store hstore
  refine ⟨hstore, fun b hb => ?_⟩
  cases hb
  exact h

theorem throw (fault : Fault) : Keeps (throw fault) post :=
  fun _ hstore => ⟨hstore, nofun⟩

theorem bind (h : Keeps x mid) (h' : ∀ a, mid a → Keeps (k a) post₂) : Keeps (x >>= k) post₂ := by
  intro store hstore
  obtain ⟨hafter, hmid⟩ := h store hstore
  rw [EvalM.exec_bind]
  rcases hx : x.exec store with ⟨_ | a, after⟩
  · exact ⟨by simpa [hx] using hafter, nofun⟩
  · rw [hx] at hafter hmid
    exact h' a (hmid a rfl) after hafter

theorem ite {c : Prop} [Decidable c] {y : EvalM α} (h : Keeps x post) (h' : Keeps y post) :
    Keeps (if c then x else y) post := by
  split <;> assumption

theorem fresh : Keeps EvalM.fresh fun _ => True :=
  fun _ hstore => ⟨hstore, fun _ _ => trivial⟩

theorem lookup (frame : FrameId) (name : String) :
    Keeps (EvalM.lookup frame name) fun v => ∀ value, v = some value → value.ErrorFree := by
  intro store hstore
  refine ⟨hstore, fun v hv value hvalue => ?_⟩
  cases hv
  exact hstore.lookup hvalue

theorem bindName (frame : FrameId) (name : String) {value : Value} (h : value.ErrorFree) :
    Keeps (EvalM.bind frame name value) fun _ => True :=
  fun _ hstore => ⟨hstore.bind frame name h, fun _ _ => trivial⟩

theorem enclose (frame : FrameId) : Keeps (EvalM.enclose frame) fun _ => True :=
  fun _ hstore => ⟨hstore.addFrame (some frame), fun _ _ => trivial⟩

theorem print (line : String) : Keeps (EvalM.print line) fun _ => True :=
  fun _ hstore => ⟨hstore, fun _ _ => trivial⟩

theorem kindOf (value : Value) : Keeps (EvalM.kindOf value) fun _ => True := by
  unfold EvalM.kindOf
  split
  · exact .pure trivial
  · exact .throw _

theorem textOf (value : Value) : Keeps (EvalM.textOf value) fun _ => True := by
  unfold EvalM.textOf
  split
  · exact .pure trivial
  · exact .throw _

theorem failWith (failure : Failure) : Keeps (EvalM.failWith failure) Value.IsOutcome :=
  .bind .fresh fun _ _ => .pure (.inl rfl)

theorem newString (value : String) : Keeps (EvalM.newString value) Value.IsOutcome :=
  .bind .fresh fun _ _ => .pure (.inr rfl)

theorem newArray {elements : List Value} (h : Value.AllErrorFree elements) :
    Keeps (EvalM.newArray elements) Value.IsOutcome :=
  .bind .fresh fun _ _ => .pure (Value.errorFree_array.2 h).isOutcome

theorem newHash {entries : List (HashKey × Value × Value)} (h : Value.EntriesErrorFree entries) :
    Keeps (EvalM.newHash entries) Value.IsOutcome :=
  .bind .fresh fun _ _ => .pure (Value.errorFree_hash.2 h).isOutcome

theorem newReturned {value : Value} (h : value.ErrorFree) :
    Keeps (EvalM.newReturned value) Value.IsOutcome :=
  .bind .fresh fun _ _ => .pure (Value.errorFree_returned.2 h).isOutcome

end Keeps

/-! ### Operators -/

namespace Eval

open Value (IsOutcome AllErrorFree EntriesErrorFree)

theorem unary_keeps (operator : String) (right : Value) :
    Keeps (unary operator right) IsOutcome := by
  unfold unary
  split
  · exact .pure (.inr rfl)
  · split
    · split
      · exact .pure (.inr rfl)
      · exact .bind (.kindOf _) fun _ _ => .failWith _
    · exact .bind (.kindOf _) fun _ _ => .failWith _

theorem integerBinary_keeps (operator : String) (a b : Int) :
    Keeps (integerBinary operator a b) IsOutcome := by
  have hinteger : ∀ value, Keeps (pure (.integer value)) IsOutcome := fun _ => .pure (.inr rfl)
  have hboolean : ∀ value, Keeps (pure (.boolean value)) IsOutcome := fun _ => .pure (.inr rfl)
  unfold integerBinary
  refine .ite (hinteger _) (.ite (hinteger _) (.ite (hinteger _) (.ite ?_ ?_)))
  · split
    · exact hinteger _
    · exact .failWith _
  · exact .ite (hboolean _) <| .ite (hboolean _) <| .ite (hboolean _) <| .ite (hboolean _) <|
      .failWith _

theorem generalBinary_keeps (operator : String) (left right : Value) :
    Keeps (generalBinary operator left right) IsOutcome := by
  unfold generalBinary
  split
  · exact .pure (.inr rfl)
  · split
    · exact .pure (.inr rfl)
    · refine .bind (.kindOf _) fun leftKind _ => .bind (.kindOf _) fun rightKind _ => ?_
      split
      · exact .failWith _
      · split
        · split
          · exact .newString _
          · exact .failWith _
        · exact .failWith _

theorem binary_keeps (operator : String) (left right : Value) :
    Keeps (binary operator left right) IsOutcome := by
  unfold binary
  split
  · exact integerBinary_keeps operator _ _
  · exact generalBinary_keeps operator _ _

theorem elementAt_errorFree {elements : List Value} (h : AllErrorFree elements) (position : Int) :
    (elementAt elements position).ErrorFree := by
  unfold elementAt
  split
  · rfl
  · cases hget : elements[position.toNat]? with
    | none => rfl
    | some value => exact h value (List.mem_of_getElem? hget)

theorem valueAt_errorFree {entries : List (HashKey × Value × Value)} (h : EntriesErrorFree entries)
    (key : HashKey) : (valueAt entries key).ErrorFree := by
  unfold valueAt
  split
  · next hfind => exact (h _ (Assoc.mem_of_find? hfind)).2
  · rfl

/-- What is taken out of an array or a hash is no failure, since none was put in. -/
theorem index_keeps {target : Value} (h : target.ErrorFree) (position : Value) :
    Keeps (index target position) IsOutcome := by
  unfold index
  split
  · exact .pure (elementAt_errorFree (Value.errorFree_array.1 h) _).isOutcome
  · split
    · exact .pure (valueAt_errorFree (Value.errorFree_hash.1 h) _).isOutcome
    · exact .bind (.kindOf _) fun _ _ => .failWith _
  · exact .bind (.kindOf _) fun _ _ => .failWith _

end Eval

/-! ### Builtin functions -/

namespace Builtin

open Value (IsOutcome AllErrorFree)

theorem withOne_keeps {args : List Value} {action : Value → EvalM Value} (h : AllErrorFree args)
    (haction : ∀ arg : Value, arg.ErrorFree → Keeps (action arg) IsOutcome) :
    Keeps (withOne args action) IsOutcome := by
  unfold withOne
  split
  · exact haction _ (h _ (by simp))
  · exact .failWith _

theorem withElements_keeps (f : Builtin) {arg : Value} {action : List Value → EvalM Value}
    (h : arg.ErrorFree) (haction : ∀ elements, AllErrorFree elements →
      Keeps (action elements) IsOutcome) : Keeps (withElements f arg action) IsOutcome := by
  unfold withElements
  split
  · exact haction _ (Value.errorFree_array.1 h)
  · exact .bind (.kindOf _) fun _ _ => .failWith _

theorem length_keeps (arg : Value) : Keeps (length arg) IsOutcome := by
  unfold length
  split
  · exact .pure (.inr rfl)
  · exact .pure (.inr rfl)
  · exact .bind (.kindOf _) fun _ _ => .failWith _

theorem printEach_keeps (values : List Value) : Keeps (printEach values) fun _ => True := by
  induction values with
  | nil => exact .pure trivial
  | cons value values ih =>
    exact .bind (.textOf value) fun _ _ => .bind (.print _) fun _ _ => ih

theorem run_keeps (f : Builtin) {args : List Value} (h : AllErrorFree args) :
    Keeps (f.run args) IsOutcome := by
  cases f with
  | len => exact withOne_keeps h fun arg _ => length_keeps arg
  | first =>
    refine withOne_keeps h fun arg harg => withElements_keeps _ harg fun elements helements => ?_
    refine .pure (.inr ?_)
    cases elements with
    | nil => rfl
    | cons value values => exact helements value (by simp)
  | last =>
    refine withOne_keeps h fun arg harg => withElements_keeps _ harg fun elements helements => ?_
    refine .pure (.inr ?_)
    cases hlast : elements.getLast? with
    | none => rfl
    | some value => exact helements value (List.mem_of_getLast? hlast)
  | rest =>
    refine withOne_keeps h fun arg harg => withElements_keeps _ harg fun elements helements => ?_
    cases elements with
    | nil => exact .pure (.inr rfl)
    | cons value values =>
      exact .newArray fun v hv => helements v (List.mem_cons_of_mem value hv)
  | push =>
    unfold run
    dsimp only
    split
    · next arg added =>
      refine withElements_keeps _ (h arg (by simp)) fun elements helements => .newArray ?_
      intro v hv
      rcases List.mem_append.1 hv with hv | hv
      · exact helements v hv
      · exact h v (List.mem_cons_of_mem arg hv)
    · exact .failWith _
  | puts => exact .bind (printEach_keeps args) fun _ _ => .pure (.inr rfl)

end Builtin

/-! ### Names -/

theorem evalName_keeps (frame : FrameId) (name : String) :
    Keeps (evalName frame name) Value.IsOutcome := by
  refine .bind (.lookup frame name) fun v hv => ?_
  split
  · split
    · exact .pure (.inr rfl)
    · exact .failWith _
  · split
    · exact .pure (.inr rfl)
    · exact .failWith _
  · next value _ => exact .pure (hv value rfl).isOutcome

end MonkeyLang
