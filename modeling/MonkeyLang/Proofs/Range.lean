import MonkeyLang.Proofs.Guard
import MonkeyLang.Proofs.Whole
import MonkeyLang.Proofs.Wrapping
import MonkeyLang.Syntax.Equality

/-!
# Integers stay in 64 bits

Integers are wrapped after every operation that could leave the range of 64 bits, and literals are
in the range when they are read.  There is one more source of integers, the length of a string or an
array, which is not wrapped.  So the range can be left only if a string or an array is as long as
`2 ^ 63`.

* `Value.inRange` tells whether all integers in a value are in the range, those in its elements, its
  keys and what it carries included;
* `Value.isShort` tells whether the value is no string and no array that is too long;
* `UsesOnly depth allows program frame store` says that the evaluation of a program uses no value but
  those that are allowed: the interpreter with guards, which asks for every value before it is used,
  comes to the same end.

`integers_stay_in_range` is the main statement, about sessions that start without bindings: as long
as the values that are used are short, they are also in the range, and so is everything that is
bound.  `Bounds` compares the three runs that are involved.
-/

namespace MonkeyLang

/-! ### Values in the range -/

/-- An integer that has 64 bits. -/
def Signed64.InRange (n : Int) : Prop :=
  -bound ≤ n ∧ n < bound

instance (n : Int) : Decidable (Signed64.InRange n) :=
  inferInstanceAs (Decidable (_ ∧ _))

/-- Tells whether the integer in a key is in the range. -/
def HashKey.inRange : HashKey → Bool
  | integer n => decide (Signed64.InRange n)
  | _ => true

/-- Every integer literal in a tree is in the range. -/
def Node.LiteralsInRange (node : Node) : Prop :=
  ∀ token n, .integer token n ∈ node.subtrees → Signed64.InRange n

namespace Value

/-- Tells whether a value is no string and no array of length `2 ^ 63` or more. -/
def isShort : Value → Bool
  | string _ value => decide ((value.length : Int) < Signed64.bound)
  | array _ elements => decide ((elements.length : Int) < Signed64.bound)
  | _ => true

mutual

/-- Tells whether all integers in a value are in the range. -/
def inRange : Value → Bool
  | integer n => decide (Signed64.InRange n)
  | array _ elements => eachInRange elements
  | hash _ entries => entriesInRange entries
  | returned _ value => value.inRange
  | nothing | null | boolean _ | string .. | function .. | builtin _ | error .. => true

/-- Tells whether all integers in several values are in the range. -/
def eachInRange : List Value → Bool
  | [] => true
  | value :: values => value.inRange && eachInRange values

/-- Tells whether all integers in the entries of a hash are in the range. -/
def entriesInRange : List (HashKey × Value × Value) → Bool
  | [] => true
  | (hashKey, key, value) :: entries =>
    (hashKey.inRange && (key.inRange && value.inRange)) && entriesInRange entries

end

/-- What is asked of every part of a value, so that evaluation stays in the range: functions have
literals that are in the range. -/
def Bounded : Value → Prop
  | integer n => Signed64.InRange n
  | hash _ entries => ∀ hashKey ∈ Assoc.keys entries, hashKey.inRange
  | function _ _ body _ => body.LiteralsInRange
  | _ => True

mutual

/-- A value with bounded parts is in the range. -/
theorem inRange_of_all : (value : Value) → value.All Bounded → value.inRange
  | integer _, h => decide_eq_true h.self
  | array _ elements, h => eachInRange_of_all elements fun _ hmem =>
    h.of_isPart (isPart_of_mem_components hmem)
  | hash _ entries, h => entriesInRange_of_all entries fun entry hmem =>
    ⟨h.self entry.1 (List.mem_map_of_mem hmem),
      h.of_isPart (isPart_of_mem_components (mem_entryValues.2 ⟨entry, hmem, .inl rfl⟩)),
      h.of_isPart (isPart_of_mem_components (mem_entryValues.2 ⟨entry, hmem, .inr rfl⟩))⟩
  | returned _ value, h =>
    inRange_of_all value (h.of_isPart (isPart_of_mem_components List.mem_cons_self))
  | nothing, _ | null, _ | boolean _, _ | string .., _ | function .., _ | builtin _, _
  | error .., _ => rfl

theorem eachInRange_of_all : (values : List Value) → (∀ value ∈ values, value.All Bounded) →
    eachInRange values
  | [], _ => rfl
  | value :: values, h => by
    obtain ⟨hfirst, hrest⟩ := List.forall_mem_cons.1 h
    rw [eachInRange, inRange_of_all value hfirst, eachInRange_of_all values hrest]
    rfl

theorem entriesInRange_of_all : (entries : List (HashKey × Value × Value)) →
    (∀ entry ∈ entries, entry.1.inRange ∧ entry.2.1.All Bounded ∧ entry.2.2.All Bounded) →
    entriesInRange entries
  | [], _ => rfl
  | (hashKey, key, value) :: entries, h => by
    obtain ⟨⟨hhashKey, hkey, hvalue⟩, hrest⟩ := List.forall_mem_cons.1 h
    rw [entriesInRange, hhashKey, inRange_of_all key hkey, inRange_of_all value hvalue,
      entriesInRange_of_all entries hrest]
    rfl

end

/-- The key that a bounded value is, is in the range. -/
theorem Bounded.key? {value : Value} {hashKey : HashKey} (h : value.Bounded)
    (hkey : value.key? = some hashKey) : hashKey.inRange := by
  cases value with
  | integer n =>
    cases hkey
    exact decide_eq_true h
  | boolean | string =>
    cases hkey
    rfl
  | _ => cases hkey

theorem all_bounded_null : null.All Bounded :=
  all_of_components_eq_nil rfl trivial

theorem all_bounded_nothing : nothing.All Bounded :=
  all_of_components_eq_nil rfl trivial

theorem all_bounded_boolean (b : Bool) : (boolean b).All Bounded :=
  all_of_components_eq_nil rfl trivial

theorem all_bounded_returned {value : Value} (h : value.All Bounded) (id : ObjectId) :
    (returned id value).All Bounded :=
  all_iff.2 ⟨trivial, List.forall_mem_singleton.2 h⟩

theorem all_bounded_unwrap {value : Value} (h : value.All Bounded) : value.unwrap.All Bounded := by
  cases value with
  | returned id value => exact h.of_isPart (isPart_of_mem_components List.mem_cons_self)
  | _ => exact h

theorem all_bounded_orNull {value : Value} (h : value.All Bounded) : value.orNull.All Bounded :=
  h.orNull trivial

end Value

open Value (Bounded)

theorem inRange_insert {entries : List (HashKey × Value × Value)} {hashKey : HashKey}
    (h : ∀ k ∈ Assoc.keys entries, k.inRange) (hhashKey : hashKey.inRange)
    (pair : Value × Value) : ∀ k ∈ Assoc.keys (Assoc.insert hashKey pair entries), k.inRange := by
  rw [Assoc.keys_insert]
  split
  · exact h
  · exact List.forall_mem_append.2 ⟨h, List.forall_mem_singleton.2 hhashKey⟩

/-! ### Literals -/

theorem Node.LiteralsInRange.of_mem_places {node : Node} (h : node.LiteralsInRange)
    {place : Role × Node} (hplace : place ∈ node.places) : place.2.LiteralsInRange :=
  fun token n hmem => h token n (Node.mem_subtrees.2 (.inr ⟨place, hplace, hmem⟩))

/-- The literals of a program are in the range, for a reader that complains of all others. -/
theorem parse_literalsInRange (text : List Char) : (parse text).program.LiteralsInRange := by
  intro token n hmem
  obtain ⟨-, -, hpos, hle⟩ := ((parse_isWhole text).2 _ hmem).2
  unfold Signed64.InRange Signed64.bound
  omega

/-! ### Operations -/

/-- From a store with bounded values the evaluation yields nothing but bounded values, as far as the
values themselves are concerned and not their parts. -/
def Yields (x : EvalM Value) : Prop :=
  ∀ store : Store, store.Holds (Value.All Bounded) → ∀ value, (x.exec store).1 = .ok value →
    value.Bounded

namespace Yields

variable {x y : EvalM Value}

theorem pure {value : Value} (h : value.Bounded) : Yields (pure value) := by
  intro store _ v hv
  cases hv
  exact h

theorem failWith (failure : Failure) : Yields (EvalM.failWith failure) := by
  intro store _ v hv
  cases hv
  trivial

theorem newString (value : String) : Yields (EvalM.newString value) := by
  intro store _ v hv
  cases hv
  trivial

theorem newArray (elements : List Value) : Yields (EvalM.newArray elements) := by
  intro store _ v hv
  cases hv
  trivial

theorem newHash {entries : List (HashKey × Value × Value)}
    (h : ∀ hashKey ∈ Assoc.keys entries, hashKey.inRange) : Yields (EvalM.newHash entries) := by
  intro store _ v hv
  cases hv
  exact h

/-- What a value was preceded by makes no difference to it. -/
theorem after {α : Type} (x : EvalM α) {value : Value} (h : value.Bounded) :
    Yields (do let _ ← x; return value) := by
  intro store _ v hv
  rw [EvalM.exec_bind] at hv
  rcases hrun : x.exec store with ⟨_ | _, _⟩ <;> rw [hrun] at hv <;> cases hv
  exact h

theorem kindOf (value : Value) {k : ValueKind → EvalM Value} (h : ∀ kind, Yields (k kind)) :
    Yields (EvalM.kindOf value >>= k) := by
  unfold EvalM.kindOf
  split
  · rw [pure_bind]
    exact h _
  · exact fun _ _ _ hv => nomatch hv

theorem ite {c : Prop} [Decidable c] (h : Yields x) (h' : Yields y) :
    Yields (if c then x else y) := by
  split <;> assumption

end Yields

namespace Eval

theorem wrap_yields (n : Int) : Yields (pure (.integer (Signed64.wrap n))) :=
  .pure (Signed64.wrap_mem n)

theorem boolean_yields (b : Bool) : Yields (pure (.boolean b)) :=
  .pure trivial

theorem unary_yields (operator : String) (right : Value) : Yields (unary operator right) := by
  unfold unary
  refine .ite (boolean_yields _) (.ite ?_ (.kindOf _ fun _ => .failWith _))
  split
  · exact wrap_yields _
  · exact .kindOf _ fun _ => .failWith _

theorem integerBinary_yields (operator : String) (a b : Int) :
    Yields (integerBinary operator a b) := by
  unfold integerBinary
  refine .ite (wrap_yields _) <| .ite (wrap_yields _) <| .ite (wrap_yields _) <| .ite ?_ <|
    .ite (boolean_yields _) <| .ite (boolean_yields _) <| .ite (boolean_yields _) <|
      .ite (boolean_yields _) <| .failWith _
  split
  · exact wrap_yields _
  · exact .failWith _

theorem generalBinary_yields (operator : String) (left right : Value) :
    Yields (generalBinary operator left right) := by
  unfold generalBinary
  refine .ite (boolean_yields _) (.ite (boolean_yields _) ?_)
  refine .kindOf _ fun leftKind => .kindOf _ fun rightKind => .ite (.failWith _) ?_
  split
  · exact .ite (.newString _) (.failWith _)
  · exact .failWith _

theorem binary_yields (operator : String) (left right : Value) :
    Yields (binary operator left right) := by
  unfold binary
  split
  · exact integerBinary_yields operator _ _
  · exact generalBinary_yields operator _ _

theorem elementAt_bounded {elements : List Value} (h : ∀ element ∈ elements, element.Bounded)
    (position : Int) : (elementAt elements position).Bounded := by
  unfold elementAt
  split
  · trivial
  · cases hget : elements[position.toNat]? with
    | none => trivial
    | some value => exact h value (List.mem_of_getElem? hget)

theorem valueAt_bounded {entries : List (HashKey × Value × Value)}
    (h : ∀ value ∈ Value.entryValues entries, value.Bounded) (key : HashKey) :
    (valueAt entries key).Bounded := by
  unfold valueAt
  split
  · next hfind => exact h _ (Value.mem_entryValues.2 ⟨_, Assoc.mem_of_find? hfind, .inr rfl⟩)
  · trivial

theorem index_yields {target : Value} (h : target.All Bounded) (position : Value) :
    Yields (index target position) := by
  have hcomponents : ∀ component ∈ target.components, component.Bounded := fun component hmem =>
    h component (Value.isPart_of_mem_components hmem)
  unfold index
  split
  · exact .pure (elementAt_bounded hcomponents _)
  · split
    · exact .pure (valueAt_bounded hcomponents _)
    · exact .kindOf _ fun _ => .failWith _
  · exact .kindOf _ fun _ => .failWith _

end Eval

namespace Builtin

theorem withOne_yields {args : List Value} {action : Value → EvalM Value}
    (h : ∀ arg ∈ args, Yields (action arg)) : Yields (withOne args action) := by
  unfold withOne
  split
  · exact h _ List.mem_cons_self
  · exact .failWith _

theorem withElements_yields (f : Builtin) {arg : Value} {action : List Value → EvalM Value}
    (h : ∀ id elements, arg = .array id elements → Yields (action elements)) :
    Yields (withElements f arg action) := by
  unfold withElements
  split
  · exact h _ _ rfl
  · exact .kindOf _ fun _ => .failWith _

theorem bounded_length {n : Nat} (h : (n : Int) < Signed64.bound) : (Value.integer n).Bounded := by
  change Signed64.InRange n
  unfold Signed64.InRange Signed64.bound at *
  omega

/-- The only integers that are not wrapped are lengths. -/
theorem length_yields {arg : Value} (h : arg.isShort) : Yields (length arg) := by
  unfold length
  split
  · exact .pure (bounded_length (by simpa [Value.isShort] using h))
  · exact .pure (bounded_length (by simpa [Value.isShort] using h))
  · exact .kindOf _ fun _ => .failWith _

theorem run_yields (f : Builtin) {args : List Value}
    (h : ∀ arg ∈ args, arg.All Bounded ∧ arg.isShort) : Yields (f.run args) := by
  have hnull : (Value.null).Bounded := trivial
  cases f with
  | len => exact withOne_yields fun arg harg => length_yields (h arg harg).2
  | first =>
    refine withOne_yields fun arg harg => withElements_yields _ fun id elements helements => ?_
    subst helements
    cases elements with
    | nil => exact .pure hnull
    | cons value values =>
      exact .pure ((h _ harg).1 _ (Value.isPart_of_mem_components List.mem_cons_self))
  | last =>
    refine withOne_yields fun arg harg => withElements_yields _ fun id elements helements => ?_
    subst helements
    cases hlast : elements.getLast? with
    | none => exact .pure hnull
    | some value =>
      exact .pure ((h _ harg).1 _ (Value.isPart_of_mem_components (List.mem_of_getLast? hlast)))
  | rest =>
    refine withOne_yields fun arg harg => withElements_yields _ fun id elements _ => ?_
    cases elements with
    | nil => exact .pure hnull
    | cons value values => exact .newArray values
  | push =>
    unfold run
    dsimp only
    split
    · exact withElements_yields _ fun id elements _ => .newArray _
    · exact .failWith _
  | puts => exact .after (printEach args) hnull

end Builtin

theorem evalName_yields (frame : FrameId) (name : String) : Yields (evalName frame name) := by
  intro store hstore
  simp only [evalName, EvalM.exec_bind, EvalM.exec_lookup]
  split
  case h_1 | h_2 =>
    split
    · refine Yields.pure ?_ store hstore
      trivial
    · exact Yields.failWith _ store hstore
  case h_3 value _ hlookup =>
    intro v hv
    cases hv
    exact (hstore.lookup hlookup).self

/-- The result of an operation on bounded values is bounded in all its parts, if it is itself. -/
theorem Operation.all_bounded {frames : List FrameId} {args : List Value} {store : Store}
    {ending : Except Fault Value × Store} (h : Operation frames args store ending)
    (hstore : store.Holds (Value.All Bounded)) (hargs : ∀ arg ∈ args, arg.All Bounded)
    {value : Value} (hvalue : ending.1 = .ok value) (hself : value.Bounded) :
    value.All Bounded := by
  cases h with
  | plain h =>
    cases hvalue
    exact Value.all_of_components_eq_nil (Value.components_of_isPlain h) hself
  | found h =>
    cases hvalue
    exact h.all (fun _ _ _ _ => hstore.lookup) hargs
  | made _ _ h =>
    cases hvalue
    exact Value.all_iff.2 ⟨hself, fun c hc => (h c hc).all (fun _ _ _ _ => hstore.lookup) hargs⟩
  | printed output =>
    cases hvalue
    exact Value.all_of_components_eq_nil rfl hself
  | kindless => cases hvalue
  | textless => cases hvalue

/-! ### Three runs -/

open Guard (step check)

/-- The runs `y` and `z` of the interpreter with guards are not stopped, but come to the same end as
the evaluation `x`; and this is a store with bounded values, and a result that satisfies `post`. -/
structure Passes {α : Type} (post : α → Prop) (x : EvalM α) (y z : GuardM α) (store : Store) :
    Prop where
  short : y.exec store = (step x).exec store
  range : z.exec store = (step x).exec store
  holds : (x.exec store).2.Holds (Value.All Bounded)
  result : ∀ a, (x.exec store).1 = .ok a → post a

namespace Passes

variable {α β : Type} {mid : α → Prop} {post : β → Prop} {x : EvalM α} {y z : GuardM α}
  {k : α → EvalM β} {ky kz : α → GuardM β} {store after : Store}

theorem exec_of_fault (h : Passes mid x y z store) {fault : Fault}
    (hrun : x.exec store = (.error fault, after)) :
    y.exec store = (.error (.fault fault), after) ∧
      z.exec store = (.error (.fault fault), after) := by
  rw [h.short, h.range, step, StopM.exec_lift, hrun]
  exact ⟨rfl, rfl⟩

theorem exec_of_ok (h : Passes mid x y z store) {a : α} (hrun : x.exec store = (.ok a, after)) :
    y.exec store = (.ok a, after) ∧ z.exec store = (.ok a, after) := by
  rw [h.short, h.range, step, StopM.exec_lift, hrun]
  exact ⟨rfl, rfl⟩

/-- Nothing comes behind a fault. -/
theorem bind_of_fault (h : Passes mid x y z store) {fault : Fault}
    (hrun : x.exec store = (.error fault, after)) :
    Passes post (x >>= k) (y >>= ky) (z >>= kz) store := by
  obtain ⟨hy, hz⟩ := h.exec_of_fault hrun
  have hholds := h.holds
  have hx : (x >>= k).exec store = (.error fault, after) := by rw [EvalM.exec_bind, hrun]
  rw [hrun] at hholds
  refine ⟨?_, ?_, ?_, ?_⟩
  · rw [step, StopM.exec_lift, hx, StopM.exec_bind, hy]
    rfl
  · rw [step, StopM.exec_lift, hx, StopM.exec_bind, hz]
    rfl
  · rw [hx]
    exact hholds
  · rw [hx]
    exact nofun

/-- What comes behind a result passes, if it passes from the store that was left. -/
theorem bind_of_ok (h : Passes mid x y z store) {a : α} (hrun : x.exec store = (.ok a, after))
    (hnext : Passes post (k a) (ky a) (kz a) after) :
    Passes post (x >>= k) (y >>= ky) (z >>= kz) store := by
  obtain ⟨hy, hz⟩ := h.exec_of_ok hrun
  have hx : (x >>= k).exec store = (k a).exec after := by rw [EvalM.exec_bind, hrun]
  refine ⟨?_, ?_, ?_, ?_⟩
  · rw [step, StopM.exec_lift, hx, StopM.exec_bind, hy]
    exact hnext.short
  · rw [step, StopM.exec_lift, hx, StopM.exec_bind, hz]
    exact hnext.range
  · rw [hx]
    exact hnext.holds
  · rw [hx]
    exact hnext.result

end Passes

/-- From a store with bounded values, the run `y`, which asks for short values, is stopped at a
value that is too long, or neither this run is stopped nor the run `z`, which asks for values in
the range. -/
def Bounds {α : Type} (post : α → Prop) (x : EvalM α) (y z : GuardM α) : Prop :=
  ∀ store : Store, store.Holds (Value.All Bounded) →
    (∃ use value, (y.exec store).1 = .error (.misused use value)) ∨ Passes post x y z store

/-- The guard that asks for short values. -/
abbrev allowsShort (_ : Use) (value : Value) : Bool := value.isShort

/-- The guard that asks for values in the range. -/
abbrev allowsInRange (_ : Use) (value : Value) : Bool := value.inRange

namespace Bounds

variable {α β : Type} {post mid : α → Prop} {post' : β → Prop} {x x' : EvalM α}
  {y y' z z' : GuardM α} {k : α → EvalM β} {ky kz : α → GuardM β}

/-- Steps that are taken in all three runs alike. -/
theorem ofStep (hholds : ∀ store : Store, store.Holds (Value.All Bounded) →
      (x.exec store).2.Holds (Value.All Bounded) ∧ ∀ a, (x.exec store).1 = .ok a → post a) :
    Bounds post x (step x) (step x) :=
  fun store hstore => .inr ⟨rfl, rfl, (hholds store hstore).1, (hholds store hstore).2⟩

theorem pure {a : α} (h : post a) : Bounds post (pure a) (pure a) (pure a) := by
  refine ofStep fun store hstore => ⟨hstore, fun b hb => ?_⟩
  cases hb
  exact h

theorem throw (fault : Fault) :
    Bounds post (throw fault) (throw (.fault fault)) (throw (.fault fault)) :=
  ofStep fun _ hstore => ⟨hstore, nofun⟩

theorem bind (hx : Bounds mid x y z) (hk : ∀ a, mid a → Bounds post' (k a) (ky a) (kz a)) :
    Bounds post' (x >>= k) (y >>= ky) (z >>= kz) := by
  intro store hstore
  rcases hx store hstore with ⟨use, value, hstop⟩ | hpass
  · refine .inl ⟨use, value, ?_⟩
    rw [StopM.exec_bind]
    rcases hrun : y.exec store with ⟨trap | a, after⟩ <;> rw [hrun] at hstop
    · exact congrArg _ (Except.error.inj hstop)
    · cases hstop
  · rcases hrun : x.exec store with ⟨fault | a, after⟩
    · exact .inr (hpass.bind_of_fault hrun)
    · have hholds := hpass.holds
      rw [hrun] at hholds
      rcases hk a (hpass.result a (by rw [hrun])) after hholds with ⟨use, value, hstop⟩ | hnext
      · refine .inl ⟨use, value, ?_⟩
        rw [StopM.exec_bind, (hpass.exec_of_ok hrun).1]
        exact hstop
      · exact .inr (hpass.bind_of_ok hrun hnext)

theorem ite {c : Prop} [Decidable c] (h : Bounds post x y z) (h' : Bounds post x' y' z') :
    Bounds post (if c then x else x') (if c then y else y') (if c then z else z') := by
  split <;> assumption

/-- A value that is used is bounded in all its parts, and short, or else the run that asks for this
is stopped. -/
theorem check {use : Use} {x : EvalM Value} {y z : GuardM Value} {k : Value → EvalM β}
    {ky kz : Value → GuardM β} (hx : Bounds (Value.All Bounded) x y z)
    (hk : ∀ value : Value, value.All Bounded → value.isShort →
      Bounds post' (k value) (ky value) (kz value)) :
    Bounds post' (x >>= k) (y >>= fun value => check allowsShort use value >>= ky)
      (z >>= fun value => Guard.check allowsInRange use value >>= kz) := by
  refine hx.bind fun value hvalue => ?_
  have hrange : allowsInRange use value := value.inRange_of_all hvalue
  rw [Guard.check, Guard.check, if_pos hrange, pure_bind]
  by_cases hshort : allowsShort use value
  · rw [if_pos hshort, pure_bind]
    exact hk value hvalue hshort
  · rw [if_neg hshort]
    exact fun _ _ => .inl ⟨use, value, rfl⟩

theorem check_last {use : Use} {x : EvalM Value} {y z : GuardM Value}
    (hx : Bounds (Value.All Bounded) x y z) :
    Bounds (Value.All Bounded) x (y >>= Guard.check allowsShort use)
      (z >>= Guard.check allowsInRange use) := by
  have h : Bounds (Value.All Bounded) (x >>= Pure.pure)
      (y >>= fun value => Guard.check allowsShort use value >>= Pure.pure)
      (z >>= fun value => Guard.check allowsInRange use value >>= Pure.pure) :=
    hx.check fun value hvalue _ => .pure hvalue
  simpa only [bind_pure] using h

/-- The rule for operations. -/
theorem operation {frames : List FrameId} {args : List Value} {x : EvalM Value}
    (h : Operates frames args x) (hyields : Yields x) (hargs : ∀ arg ∈ args, arg.All Bounded) :
    Bounds (Value.All Bounded) x (step x) (step x) := by
  refine ofStep fun store hstore => ⟨fun frame => ?_, fun value hvalue => ?_⟩
  · rw [(h store).bindings_eq]
    exact hstore frame
  · exact (h store).all_bounded hstore hargs hvalue (hyields store hstore value hvalue)

theorem fresh : Bounds (fun _ => True) EvalM.fresh (step EvalM.fresh) (step EvalM.fresh) :=
  ofStep fun _ hstore => ⟨hstore, fun _ _ => trivial⟩

theorem enclose (frame : FrameId) : Bounds (fun _ => True) (EvalM.enclose frame)
    (step (EvalM.enclose frame)) (step (EvalM.enclose frame)) :=
  ofStep fun _ hstore => ⟨hstore.addFrame (some frame), fun _ _ => trivial⟩

theorem newReturned {value : Value} (h : value.All Bounded) :
    Bounds (Value.All Bounded) (EvalM.newReturned value) (step (EvalM.newReturned value))
      (step (EvalM.newReturned value)) := by
  refine ofStep fun store hstore => ?_
  rw [EvalM.newReturned, EvalM.exec_fresh_bind]
  refine ⟨hstore, fun v hv => ?_⟩
  cases hv
  exact Value.all_bounded_returned h _

theorem bindName (frame : FrameId) (name : String) {value : Value} (h : value.All Bounded) :
    Bounds (fun _ => True) (EvalM.bind frame name value) (step (EvalM.bind frame name value))
      (step (EvalM.bind frame name value)) :=
  ofStep fun _ hstore => ⟨hstore.bind frame name h, fun _ _ => trivial⟩

end Bounds

/-- Rules for calls, of which two have guards. -/
def BoundsCalls (call : CallRule) (callShort callRange : GuardedCallRule) : Prop :=
  ∀ callee args, callee.All Bounded → (∀ arg ∈ args, arg.All Bounded ∧ arg.isShort) →
    Bounds (Value.All Bounded) (call callee args) (callShort callee args) (callRange callee args)

/-- All of several values are bounded and short, or the failure in the place of one is bounded. -/
def EachBounded : Except Value (List Value) → Prop
  | .ok values => ∀ value ∈ values, value.All Bounded ∧ value.isShort
  | .error failure => failure.All Bounded

/-! ### Trees -/

namespace Node

open Value (all_bounded_null all_bounded_nothing all_bounded_boolean all_bounded_orNull
  all_bounded_unwrap)

variable {call : CallRule} {callShort callRange : GuardedCallRule}

theorem LiteralsInRange.pairs {token : Token} {pairs : List (Node × Node)}
    (h : (hash token pairs).LiteralsInRange) :
    ∀ pair ∈ pairs, pair.1.LiteralsInRange ∧ pair.2.LiteralsInRange := by
  intro pair hpair
  have hplace : ∀ part ∈ [pair.1, pair.2],
      (Role.expression, part) ∈ (hash token pairs).places := fun part hpart =>
    List.mem_flatMap.2 ⟨pair, hpair, by simpa using hpart⟩
  exact ⟨h.of_mem_places (hplace _ List.mem_cons_self),
    h.of_mem_places (hplace _ (List.mem_cons_of_mem _ List.mem_cons_self))⟩

mutual

theorem eval_bounds (hcall : BoundsCalls call callShort callRange) (frame : FrameId) :
    (node : Node) → node.LiteralsInRange →
    Bounds (Value.All Bounded) (node.eval call frame)
      (node.evalGuarded allowsShort callShort frame)
      (node.evalGuarded allowsInRange callRange frame)
  | program statements, h => by
    rw [eval, evalGuarded, evalGuarded]
    have hstatements : ∀ statement ∈ statements, statement.LiteralsInRange :=
      fun statement hmem => h.of_mem_places (List.mem_map_of_mem hmem)
    exact (evalProgram_bounds hcall frame all_bounded_nothing statements hstatements).check_last
  | letStatement token target value, h => by
    rw [eval, evalGuarded, evalGuarded]
    refine .check (eval_bounds hcall frame value (h.of_mem_places List.mem_cons_self))
      fun v hv _ => .ite (.pure hv) ?_
    exact .bind (.bindName frame target.name (all_bounded_orNull hv)) fun _ _ =>
      .pure all_bounded_nothing
  | returnStatement token none, _ => by
    rw [eval, evalGuarded, evalGuarded]
    exact .newReturned all_bounded_null
  | returnStatement token (some value), h => by
    rw [eval, evalGuarded, evalGuarded]
    refine .check (eval_bounds hcall frame value (h.of_mem_places List.mem_cons_self))
      fun v hv _ => .ite (.pure hv) (.newReturned (all_bounded_orNull hv))
  | expressionStatement token expression, h => by
    rw [eval, evalGuarded, evalGuarded]
    exact (eval_bounds hcall frame expression (h.of_mem_places List.mem_cons_self)).check_last
  | block token statements, h => by
    rw [eval, evalGuarded, evalGuarded]
    have hstatements : ∀ statement ∈ statements, statement.LiteralsInRange :=
      fun statement hmem => h.of_mem_places (List.mem_map_of_mem hmem)
    exact evalBlock_bounds hcall frame all_bounded_nothing statements hstatements
  | identifier ident, _ => by
    rw [eval, evalGuarded, evalGuarded]
    exact .operation (evalName_operates frame ident.name) (evalName_yields frame ident.name)
      (List.forall_mem_nil _)
  | integer token value, h => by
    rw [eval, evalGuarded, evalGuarded]
    exact .pure (Value.all_of_components_eq_nil rfl (h token value List.mem_cons_self))
  | string token value, _ => by
    rw [eval, evalGuarded, evalGuarded]
    exact .operation (newString_operates value) (.newString value) (List.forall_mem_nil _)
  | boolean token value, _ => by
    rw [eval, evalGuarded, evalGuarded]
    exact .pure (all_bounded_boolean value)
  | unary token operator right, h => by
    rw [eval, evalGuarded, evalGuarded]
    refine .check (eval_bounds hcall frame right (h.of_mem_places List.mem_cons_self))
      fun r hr _ => .ite (.pure hr) ?_
    exact .operation (Eval.unary_operates operator r.orNull) (Eval.unary_yields operator r.orNull)
      (List.forall_mem_singleton.2 (all_bounded_orNull hr))
  | binary token left operator right, h => by
    rw [eval, evalGuarded, evalGuarded]
    refine .check (eval_bounds hcall frame left (h.of_mem_places List.mem_cons_self))
      fun l hl _ => .ite (.pure hl) ?_
    refine .check (eval_bounds hcall frame right
      (h.of_mem_places (List.mem_cons_of_mem _ List.mem_cons_self)))
      fun r hr _ => .ite (.pure hr) ?_
    rw [Guard.binary_eq]
    exact .operation (Eval.binary_operates operator l.orNull r.orNull)
      (Eval.binary_yields operator l.orNull r.orNull)
      (by simpa using ⟨all_bounded_orNull hl, all_bounded_orNull hr⟩)
  | conditional token condition consequence none, h => by
    rw [eval, evalGuarded, evalGuarded]
    have hconsequence := eval_bounds hcall frame consequence
      (h.of_mem_places (List.mem_cons_of_mem _ List.mem_cons_self))
    refine .check (eval_bounds hcall frame condition (h.of_mem_places List.mem_cons_self))
      fun c hc _ => .ite (.pure hc) (.ite ?_ ?_)
    · exact .bind hconsequence fun v hv => .pure (all_bounded_orNull hv)
    · exact .pure all_bounded_null
  | conditional token condition consequence (some alternative), h => by
    rw [eval, evalGuarded, evalGuarded]
    have hconsequence := eval_bounds hcall frame consequence
      (h.of_mem_places (List.mem_cons_of_mem _ List.mem_cons_self))
    have halternative := eval_bounds hcall frame alternative
      (h.of_mem_places (List.mem_cons_of_mem _ (List.mem_cons_of_mem _ List.mem_cons_self)))
    refine .check (eval_bounds hcall frame condition (h.of_mem_places List.mem_cons_self))
      fun c hc _ => .ite (.pure hc) (.ite ?_ ?_)
    · exact .bind hconsequence fun v hv => .pure (all_bounded_orNull hv)
    · exact .bind halternative fun v hv => .pure (all_bounded_orNull hv)
  | function token parameters body, h => by
    rw [eval, evalGuarded, evalGuarded]
    refine .bind .fresh fun id _ => .pure (Value.all_of_components_eq_nil rfl ?_)
    exact h.of_mem_places List.mem_cons_self
  | Node.call token callee arguments, h => by
    rw [eval, evalGuarded, evalGuarded]
    have harguments : ∀ argument ∈ arguments, argument.LiteralsInRange := fun argument hmem =>
      h.of_mem_places (List.mem_cons_of_mem _ (List.mem_map_of_mem hmem))
    refine .check (eval_bounds hcall frame callee (h.of_mem_places List.mem_cons_self))
      fun f hf _ => .ite (.pure hf) ?_
    refine .bind (evalEach_bounds hcall frame .argument arguments harguments) fun args hargs => ?_
    cases args with
    | ok args => exact hcall f args hf hargs
    | error failure => exact .pure hargs
  | array token elements, h => by
    rw [eval, evalGuarded, evalGuarded]
    have helements : ∀ element ∈ elements, element.LiteralsInRange := fun element hmem =>
      h.of_mem_places (List.mem_map_of_mem hmem)
    refine .bind (evalEach_bounds hcall frame .element elements helements) fun values hvalues => ?_
    cases values with
    | ok values =>
      exact .operation (newArray_operates values) (.newArray values)
        fun value hvalue => (hvalues value hvalue).1
    | error failure => exact .pure hvalues
  | index token target position, h => by
    rw [eval, evalGuarded, evalGuarded]
    refine .check (eval_bounds hcall frame target (h.of_mem_places List.mem_cons_self))
      fun t ht _ => .ite (.pure ht) ?_
    refine .check (eval_bounds hcall frame position
      (h.of_mem_places (List.mem_cons_of_mem _ List.mem_cons_self)))
      fun p hp _ => .ite (.pure hp) ?_
    rw [Guard.index_eq]
    exact .operation (Eval.index_operates t p) (Eval.index_yields ht p) (by simpa using ⟨ht, hp⟩)
  | hash token pairs, h => by
    rw [eval, evalGuarded, evalGuarded]
    exact evalPairs_bounds hcall frame (List.forall_mem_nil _) (List.forall_mem_nil _) pairs h.pairs
  | foreign kind text, _ => by
    rw [eval, evalGuarded, evalGuarded]
    exact .throw _

theorem evalProgram_bounds (hcall : BoundsCalls call callShort callRange) (frame : FrameId)
    {last : Value} (hlast : last.All Bounded) : (statements : List Node) →
    (∀ statement ∈ statements, statement.LiteralsInRange) →
    Bounds (Value.All Bounded) (evalProgram call frame last statements)
      (guardedProgram allowsShort callShort frame last statements)
      (guardedProgram allowsInRange callRange frame last statements)
  | [], _ => by
    rw [evalProgram, guardedProgram, guardedProgram]
    exact .pure hlast
  | statement :: statements, h => by
    rw [evalProgram, guardedProgram, guardedProgram]
    obtain ⟨hfirst, hrest⟩ := List.forall_mem_cons.1 h
    exact .bind (eval_bounds hcall frame statement hfirst) fun v hv =>
      .ite (.pure (Value.all_bounded_unwrap hv))
        (evalProgram_bounds hcall frame hv statements hrest)

theorem evalBlock_bounds (hcall : BoundsCalls call callShort callRange) (frame : FrameId)
    {last : Value} (hlast : last.All Bounded) : (statements : List Node) →
    (∀ statement ∈ statements, statement.LiteralsInRange) →
    Bounds (Value.All Bounded) (evalBlock call frame last statements)
      (guardedBlock allowsShort callShort frame last statements)
      (guardedBlock allowsInRange callRange frame last statements)
  | [], _ => by
    rw [evalBlock, guardedBlock, guardedBlock]
    exact .pure hlast
  | statement :: statements, h => by
    rw [evalBlock, guardedBlock, guardedBlock]
    obtain ⟨hfirst, hrest⟩ := List.forall_mem_cons.1 h
    exact .bind (eval_bounds hcall frame statement hfirst) fun v hv =>
      .ite (.pure hv) (evalBlock_bounds hcall frame hv statements hrest)

theorem evalEach_bounds (hcall : BoundsCalls call callShort callRange) (frame : FrameId)
    (use : Use) : (nodes : List Node) → (∀ node ∈ nodes, node.LiteralsInRange) →
    Bounds EachBounded (evalEach call frame nodes)
      (guardedEach allowsShort use callShort frame nodes)
      (guardedEach allowsInRange use callRange frame nodes)
  | [], _ => by
    rw [evalEach, guardedEach, guardedEach]
    exact .pure (List.forall_mem_nil _)
  | node :: nodes, h => by
    rw [evalEach, guardedEach, guardedEach]
    obtain ⟨hnode, hrest⟩ := List.forall_mem_cons.1 h
    refine .check (eval_bounds hcall frame node hnode) fun v hv hshort => .ite (.pure hv) ?_
    refine .bind (evalEach_bounds hcall frame use nodes hrest) fun vs hvs => .pure ?_
    cases vs with
    | ok vs => exact List.forall_mem_cons.2 ⟨⟨hv, hshort⟩, hvs⟩
    | error failure => exact hvs

theorem evalPairs_bounds (hcall : BoundsCalls call callShort callRange) (frame : FrameId)
    {entries : List (HashKey × Value × Value)}
    (hkeys : ∀ hashKey ∈ Assoc.keys entries, hashKey.inRange)
    (hentries : ∀ value ∈ Value.entryValues entries, value.All Bounded) :
    (pairs : List (Node × Node)) →
    (∀ pair ∈ pairs, pair.1.LiteralsInRange ∧ pair.2.LiteralsInRange) →
    Bounds (Value.All Bounded) (evalPairs call frame entries pairs)
      (guardedPairs allowsShort callShort frame entries pairs)
      (guardedPairs allowsInRange callRange frame entries pairs)
  | [], _ => by
    rw [evalPairs, guardedPairs, guardedPairs]
    exact .operation (newHash_operates entries) (.newHash hkeys) hentries
  | (key, value) :: pairs, h => by
    rw [evalPairs, guardedPairs, guardedPairs]
    obtain ⟨⟨hkey, hvalue⟩, hrest⟩ := List.forall_mem_cons.1 h
    refine .check (eval_bounds hcall frame key hkey) fun k hk _ => .ite (.pure hk) ?_
    cases hhash : k.key? with
    | none =>
      exact .operation (unusableKey_operates k) (.kindOf k fun _ => .failWith _)
        (List.forall_mem_singleton.2 hk)
    | some hashKey =>
      refine .check (eval_bounds hcall frame value hvalue) fun v hv _ => .ite (.pure hv) ?_
      exact evalPairs_bounds hcall frame (inRange_insert hkeys (hk.self.key? hhash) (k, v))
        (Value.forall_mem_insert hentries hashKey hk hv) pairs hrest

end

end Node

/-! ### Calls -/

theorem bindParameters_bounds (frame : FrameId) (parameters : List Identifier) {args : List Value}
    (hargs : ∀ arg ∈ args, arg.All Bounded ∧ arg.isShort) :
    Bounds (fun _ => True) (bindParameters frame parameters args)
      (bindParametersGuarded allowsShort frame parameters args)
      (bindParametersGuarded allowsInRange frame parameters args) := by
  induction parameters generalizing args with
  | nil => exact .pure trivial
  | cons parameter parameters ih =>
    cases args with
    | nil => exact .pure trivial
    | cons arg args =>
      obtain ⟨⟨harg, hshort⟩, hrest⟩ := List.forall_mem_cons.1 hargs
      have hrange : arg.inRange := arg.inRange_of_all harg
      rw [bindParameters, bindParametersGuarded, bindParametersGuarded, Guard.check, Guard.check,
        if_pos hshort, if_pos hrange, pure_bind, pure_bind]
      exact .bind (.bindName frame parameter.name harg) fun _ _ => ih hrest

theorem callWith_bounds {body : FrameId → Node → EvalM Value}
    {bodyShort bodyRange : FrameId → Node → GuardM Value}
    (h : ∀ frame node, node.LiteralsInRange → Bounds (Value.All Bounded) (body frame node)
      (bodyShort frame node) (bodyRange frame node)) :
    BoundsCalls (callWith body) (callGuardedWith allowsShort bodyShort)
      (callGuardedWith allowsInRange bodyRange) := by
  intro callee args hcallee hargs
  have hnot : Bounds (Value.All Bounded) (do EvalM.failWith (.notCallable (← EvalM.kindOf callee)))
      (step do EvalM.failWith (.notCallable (← EvalM.kindOf callee)))
      (step do EvalM.failWith (.notCallable (← EvalM.kindOf callee))) :=
    .operation (notCallable_operates callee) (.kindOf callee fun _ => .failWith _)
      (List.forall_mem_singleton.2 hcallee)
  cases callee with
  | function id parameters node scope =>
    rw [callWith, callGuardedWith, callGuardedWith]
    refine .ite (.operation (parameterCount_operates _ _) (.failWith _) (List.forall_mem_nil _)) ?_
    refine .bind (.enclose scope) fun frame _ => ?_
    refine .bind (bindParameters_bounds frame parameters hargs) fun _ _ => ?_
    exact .bind (h frame node hcallee.self) fun v hv =>
      .pure (Value.all_bounded_orNull (Value.all_bounded_unwrap hv))
  | builtin f =>
    rw [callWith, callGuardedWith, callGuardedWith, Guard.run_eq]
    exact .operation (f.run_operates args) (f.run_yields hargs) fun arg harg => (hargs arg harg).1
  | _ => exact hnot

theorem callWithin_bounds (depth : Nat) : BoundsCalls (callWithin depth)
    (callGuardedWithin allowsShort depth) (callGuardedWithin allowsInRange depth) := by
  induction depth with
  | zero => exact callWith_bounds fun _ _ _ => .throw _
  | succ depth ih => exact callWith_bounds fun frame node h => Node.eval_bounds ih frame node h

/-! ### Sessions -/

/-- The evaluation of a program in a frame, with calls up to a given depth, uses no value but those
that are allowed: asked for every value before it is used, the interpreter with guards comes to the
same end. -/
def UsesOnly (depth : Nat) (allows : Value → Bool) (program : Node) (frame : FrameId)
    (store : Store) : Prop :=
  (program.evalGuarded (fun _ => allows) (callGuardedWithin (fun _ => allows) depth)
    frame).exec store = (step (program.eval (callWithin depth) frame)).exec store

/-- The stores to which sessions lead that start without bindings, evaluate programs that are read
from texts, with calls up to any depth, and never use a string or an array that is too long. -/
inductive Store.ReachedShort : Store → Prop
  | initial : ReachedShort .initial
  | evaluate {store : Store} (h : store.ReachedShort) (depth : Nat) (frame : FrameId)
      (text : List Char) (hshort : UsesOnly depth Value.isShort (parse text).program frame store) :
      ReachedShort (((parse text).program.eval (callWithin depth) frame).exec store).2
  | forgetOutput {store : Store} (h : store.ReachedShort) : ReachedShort store.forgetOutput

theorem program_passes {store : Store} (hstore : store.Holds (Value.All Bounded)) {depth : Nat}
    {frame : FrameId} {text : List Char}
    (hshort : UsesOnly depth Value.isShort (parse text).program frame store) :
    Passes (Value.All Bounded) ((parse text).program.eval (callWithin depth) frame)
      ((parse text).program.evalGuarded allowsShort (callGuardedWithin allowsShort depth) frame)
      ((parse text).program.evalGuarded allowsInRange (callGuardedWithin allowsInRange depth)
        frame) store := by
  have hbounds := Node.eval_bounds (callWithin_bounds depth) frame (parse text).program
    (parse_literalsInRange text)
  refine (hbounds store hstore).resolve_left ?_
  rintro ⟨use, value, hstop⟩
  -- a run that comes to the same end as one without guards is not stopped by a guard
  rw [show ((parse text).program.evalGuarded allowsShort _ frame).exec store = _ from hshort,
    step, StopM.exec_lift] at hstop
  rcases hrun : (((parse text).program.eval (callWithin depth) frame).exec store).1 with fault | v <;>
    rw [hrun] at hstop <;> cases hstop

theorem Store.ReachedShort.holds {store : Store} (h : store.ReachedShort) :
    store.Holds (Value.All Bounded) := by
  induction h with
  | initial => exact holds_initial _
  | evaluate _ depth frame text hshort ih => exact (program_passes ih hshort).holds
  | forgetOutput _ ih => exact ih

/-- **Integers stay in 64 bits.**  If no string and no array that has been used in a session is too
long, and none is in the evaluation of the next program, then every value that this program uses is
in the range, whatever it is used for, and so is its outcome, and all that is bound before and
after. -/
theorem integers_stay_in_range {store : Store} (h : store.ReachedShort) (depth : Nat)
    (frame : FrameId) (text : List Char)
    (hshort : UsesOnly depth Value.isShort (parse text).program frame store) :
    store.Holds (fun value => value.inRange) ∧
      UsesOnly depth Value.inRange (parse text).program frame store ∧
      (((parse text).program.eval (callWithin depth) frame).exec store).2.Holds
        (fun value => value.inRange) ∧
      ∀ value, (((parse text).program.eval (callWithin depth) frame).exec store).1 = .ok value →
        value.inRange := by
  have hpass := program_passes h.holds hshort
  exact ⟨h.holds.mono Value.inRange_of_all, hpass.range, hpass.holds.mono Value.inRange_of_all,
    fun value hvalue => value.inRange_of_all (hpass.result value hvalue)⟩

/-- An integer that is wrapped, bound to a name in one program and an element in the next. -/
theorem integers_stay_in_range_wrapped :
    let first := "let a = 9223372036854775807 + 1;".toList
    let text := "[-9223372036854775807 - 2][0]".toList
    let depth := maxCallDepth
    let run (text : List Char) := ((parse text).program.eval (callWithin depth) Store.global).exec
    let store := (run first .initial).2
    store.ReachedShort ∧ UsesOnly depth Value.isShort (parse text).program Store.global store ∧
      store.Holds (fun value => value.inRange) ∧
      UsesOnly depth Value.inRange (parse text).program Store.global store ∧
      (run text store).2.Holds (fun value => value.inRange) ∧
      ∀ value, (run text store).1 = .ok value → value.inRange := by
  intro first text depth run store
  let largest : Node := .integer ⟨.int, "9223372036854775807"⟩ 9223372036854775807
  have hfirst : (parse first).program = .program [.letStatement (.sign .let) (.ofName "a")
      (.binary (.sign .plus) largest "+" (.integer ⟨.int, "1"⟩ 1))] := by
    decide +kernel
  have htext : (parse text).program = .program [.expressionStatement (.sign .lbracket)
      (.index (.sign .lbracket)
        (.array (.sign .lbracket) [.binary (.sign .minus) (.unary (.sign .minus) "-" largest) "-"
          (.integer ⟨.int, "2"⟩ 2)])
        (.integer ⟨.int, "0"⟩ 0))] := by
    decide +kernel
  have hstore : store.ReachedShort := by
    refine .evaluate .initial depth Store.global first ?_
    rw [hfirst]
    exact rfl
  have hshort : UsesOnly depth Value.isShort (parse text).program Store.global store := by
    rw [htext]
    exact rfl
  exact ⟨hstore, hshort, integers_stay_in_range hstore depth Store.global text hshort⟩

end MonkeyLang
