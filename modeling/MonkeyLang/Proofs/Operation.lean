import Mathlib.Tactic.Common
import MonkeyLang.Proofs.ErrorFree
import MonkeyLang.Proofs.Parts

/-!
# What operations do

The operators, indexing, the builtin functions and the look-up of names are the operations of the
language: they take values and look at the store, and none of them evaluates a tree.
`Operation frames args store ending` lists what one of them can come to from a store, if it takes
`args` and looks names up in `frames`:

* a plain value, or a value at hand, and the store is as it was;
* a new object made of values at hand, under the next serial number;
* null, and something has been printed;
* a fault, because there was no value to name the kind of, or a value had no text.

What has to be known of all operations follows from the cases of this relation, and no proof about
evaluation opens an operation again.  `Operates frames args x` says that `x` ends in one of these
ways from every store.
-/

namespace MonkeyLang

/-! ### Single steps -/

namespace EvalM

@[simp] theorem exec_fresh (store : Store) :
    fresh.exec store = (.ok store.nextId, store.allocate.2) := rfl

@[simp] theorem exec_lookup (frame : FrameId) (name : String) (store : Store) :
    (lookup frame name).exec store = (.ok (store.lookup frame name), store) := rfl

@[simp] theorem exec_enclose (frame : FrameId) (store : Store) :
    (enclose frame).exec store = (.ok store.frames.size, (store.addFrame (some frame)).2) := rfl

@[simp] theorem exec_print (line : String) (store : Store) :
    (print line).exec store = (.ok (), store.print line) := rfl

/-- A step that gives a new object takes the next serial number for it. -/
theorem exec_fresh_bind {α : Type} (make : ObjectId → α) (store : Store) :
    (do return make (← fresh) : EvalM α).exec store =
      (.ok (make store.nextId), store.allocate.2) := by
  simp only [exec_bind, exec_fresh, exec_pure]

end EvalM

/-- The objects that operations make: strings, arrays, hashes and failures. -/
def Value.isData : Value → Bool
  | string .. | array .. | hash .. | error .. => true
  | _ => false

/-- How an operation on some values, with names looked up in some frames, can end. -/
inductive Operation (frames : List FrameId) (args : List Value) (store : Store) :
    Except Fault Value × Store → Prop
  | plain {value : Value} (h : value.isPlain) : Operation frames args store (.ok value, store)
  | found {value : Value} (h : store.AtHand frames args value) :
      Operation frames args store (.ok value, store)
  | made {value : Value} (hid : value.id? = some store.nextId) (hdata : value.isData)
      (h : ∀ component ∈ value.components, store.AtHand frames args component) :
      Operation frames args store (.ok value, store.allocate.2)
  | printed (output : Array String) :
      Operation frames args store (.ok .null, { store with output })
  | kindless (h : .nothing ∈ args) : Operation frames args store (.error .noKind, store)
  | textless {arg : Value} {obstacle : Obstacle} (harg : arg ∈ args)
      (h : arg.obstacle? = some obstacle) (output : Array String) :
      Operation frames args store (.error (.noDisplay obstacle), { store with output })

/-- An evaluation that is an operation on some values, with names looked up in some frames. -/
def Operates (frames : List FrameId) (args : List Value) (x : EvalM Value) : Prop :=
  ∀ store, Operation frames args store (x.exec store)

namespace Operates

variable {frames : List FrameId} {args : List Value} {x y : EvalM Value}

theorem plain {value : Value} (h : value.isPlain) : Operates frames args (pure value) :=
  fun _ => .plain h

theorem arg {value : Value} (h : value ∈ args) : Operates frames args (pure value) :=
  fun _ => .found (Store.atHand_of_mem h)

/-- What an argument is made of can be taken out of it. -/
theorem component {arg value : Value} (harg : arg ∈ args) (h : value ∈ arg.components) :
    Operates frames args (pure value) :=
  fun _ => .found (Store.atHand_of_mem_components harg h)

theorem failWith (failure : Failure) : Operates frames args (EvalM.failWith failure) := by
  intro store
  rw [EvalM.failWith, EvalM.exec_fresh_bind]
  exact .made rfl rfl (by simp [Value.components])

theorem newString (value : String) : Operates frames args (EvalM.newString value) := by
  intro store
  rw [EvalM.newString, EvalM.exec_fresh_bind]
  exact .made rfl rfl (by simp [Value.components])

theorem newArray {elements : List Value} (h : ∀ element ∈ elements, element ∈ args ∨
    ∃ arg ∈ args, element ∈ arg.components) : Operates frames args (EvalM.newArray elements) := by
  intro store
  rw [EvalM.newArray, EvalM.exec_fresh_bind]
  refine .made rfl rfl fun element helement => ?_
  rcases h element helement with harg | ⟨arg, harg, hcomponent⟩
  · exact Store.atHand_of_mem harg
  · exact Store.atHand_of_mem_components harg hcomponent

/-- The kind of an argument can be asked for, unless there is no value. -/
theorem kindOf {value : Value} {k : ValueKind → EvalM Value} (hvalue : value ∈ args)
    (h : ∀ kind, Operates frames args (k kind)) : Operates frames args (EvalM.kindOf value >>= k) := by
  unfold EvalM.kindOf
  split
  · rw [pure_bind]
    exact h _
  · next hkind =>
    cases value with
    | nothing => exact fun store => .kindless hvalue
    | _ => cases hkind

theorem ite {c : Prop} [Decidable c] (h : Operates frames args x) (h' : Operates frames args y) :
    Operates frames args (if c then x else y) := by
  split <;> assumption

end Operates

/-! ### Operators -/

namespace Eval

theorem unary_operates (operator : String) (right : Value) :
    Operates [] [right] (unary operator right) := by
  unfold unary
  refine .ite (.plain rfl) (.ite ?_ (.kindOf (by simp) fun _ => .failWith _))
  split
  · exact .plain rfl
  · exact .kindOf (by simp) fun _ => .failWith _

theorem integerBinary_operates (operator : String) (a b : Int) (args : List Value) :
    Operates [] args (integerBinary operator a b) := by
  unfold integerBinary
  refine .ite (.plain rfl) <| .ite (.plain rfl) <| .ite (.plain rfl) <| .ite ?_ <|
    .ite (.plain rfl) <| .ite (.plain rfl) <| .ite (.plain rfl) <| .ite (.plain rfl) <|
      .failWith _
  split
  · exact .plain rfl
  · exact .failWith _

theorem generalBinary_operates (operator : String) (left right : Value) :
    Operates [] [left, right] (generalBinary operator left right) := by
  unfold generalBinary
  refine .ite (.plain rfl) (.ite (.plain rfl) ?_)
  refine .kindOf (by simp) fun leftKind => .kindOf (by simp) fun rightKind => ?_
  refine .ite (.failWith _) ?_
  split
  · exact .ite (.newString _) (.failWith _)
  · exact .failWith _

theorem binary_operates (operator : String) (left right : Value) :
    Operates [] [left, right] (binary operator left right) := by
  unfold binary
  split
  · exact integerBinary_operates operator _ _ _
  · exact generalBinary_operates operator _ _

theorem elementAt_operates {id : ObjectId} {elements args : List Value} (position : Int)
    (h : .array id elements ∈ args) : Operates [] args (pure (elementAt elements position)) := by
  unfold elementAt
  split
  · exact .plain rfl
  · cases hget : elements[position.toNat]? with
    | none => exact .plain rfl
    | some value => exact .component h (List.mem_of_getElem? hget)

theorem valueAt_operates {id : ObjectId} {entries : List (HashKey × Value × Value)}
    {args : List Value} (key : HashKey) (h : .hash id entries ∈ args) :
    Operates [] args (pure (valueAt entries key)) := by
  unfold valueAt
  split
  · next hfind =>
    exact .component h (Value.mem_entryValues.2 ⟨_, Assoc.mem_of_find? hfind, .inr rfl⟩)
  · exact .plain rfl

theorem index_operates (target position : Value) :
    Operates [] [target, position] (index target position) := by
  unfold index
  split
  · exact elementAt_operates _ List.mem_cons_self
  · split
    · exact valueAt_operates _ List.mem_cons_self
    · exact .kindOf (by simp) fun _ => .failWith _
  · exact .kindOf (by simp) fun _ => .failWith _

end Eval

/-! ### Builtin functions -/

namespace Builtin

theorem withOne_operates {args : List Value} {action : Value → EvalM Value}
    (h : ∀ arg, args = [arg] → Operates [] args (action arg)) :
    Operates [] args (withOne args action) := by
  unfold withOne
  split
  · exact h _ rfl
  · exact .failWith _

theorem withElements_operates (f : Builtin) {arg : Value} {args : List Value}
    {action : List Value → EvalM Value} (harg : arg ∈ args)
    (h : ∀ id elements, arg = .array id elements → Operates [] args (action elements)) :
    Operates [] args (withElements f arg action) := by
  unfold withElements
  split
  · exact h _ _ rfl
  · exact .kindOf harg fun _ => .failWith _

theorem length_operates {arg : Value} {args : List Value} (harg : arg ∈ args) :
    Operates [] args (length arg) := by
  unfold length
  split
  · exact .plain rfl
  · exact .plain rfl
  · exact .kindOf harg fun _ => .failWith _

/-- Printing changes the output only, and stops at a value without a text. -/
theorem exec_printEach (values : List Value) (store : Store) :
    ∃ output, (printEach values).exec store = (.ok (), { store with output }) ∨
      ∃ value ∈ values, ∃ obstacle, value.obstacle? = some obstacle ∧
        (printEach values).exec store = (.error (.noDisplay obstacle), { store with output }) := by
  induction values generalizing store with
  | nil => exact ⟨store.output, .inl rfl⟩
  | cons value values ih =>
    simp only [printEach, EvalM.textOf, List.mem_cons, exists_eq_or_imp]
    cases hvalue : value.obstacle? with
    | some obstacle => exact ⟨store.output, .inr (.inl ⟨obstacle, rfl, rfl⟩)⟩
    | none =>
      simp only [pure_bind, EvalM.exec_bind, EvalM.exec_print]
      obtain ⟨output, hend | hend⟩ := ih (store.print value.display)
      · exact ⟨output, .inl hend⟩
      · exact ⟨output, .inr (.inr hend)⟩

theorem puts_operates (args : List Value) : Operates [] args (puts.run args) := by
  intro store
  simp only [run, EvalM.exec_bind]
  obtain ⟨output, hend | ⟨arg, harg, obstacle, hobstacle, hend⟩⟩ := exec_printEach args store
  · rw [hend]
    exact .printed output
  · rw [hend]
    exact .textless harg hobstacle output

theorem run_operates (f : Builtin) (args : List Value) : Operates [] args (f.run args) := by
  cases f with
  | len => exact withOne_operates fun arg harg => length_operates (by simp [harg])
  | first =>
    refine withOne_operates fun arg harg => ?_
    refine withElements_operates _ (by simp [harg]) fun id elements helements => ?_
    subst harg helements
    cases elements with
    | nil => exact .plain rfl
    | cons value values => exact .component List.mem_cons_self List.mem_cons_self
  | last =>
    refine withOne_operates fun arg harg => ?_
    refine withElements_operates _ (by simp [harg]) fun id elements helements => ?_
    subst harg helements
    cases hlast : elements.getLast? with
    | none => exact .plain rfl
    | some value => exact .component List.mem_cons_self (List.mem_of_getLast? hlast)
  | rest =>
    refine withOne_operates fun arg harg => ?_
    refine withElements_operates _ (by simp [harg]) fun id elements helements => ?_
    subst harg helements
    cases elements with
    | nil => exact .plain rfl
    | cons value values =>
      exact .newArray fun v hv => .inr ⟨_, List.mem_cons_self, List.mem_cons_of_mem value hv⟩
  | push =>
    unfold run
    dsimp only
    split
    · next arg added =>
      refine withElements_operates _ (by simp) fun id elements helements => .newArray ?_
      subst helements
      intro v hv
      rcases List.mem_append.1 hv with hv | hv
      · exact .inr ⟨_, List.mem_cons_self, hv⟩
      · exact .inl (List.mem_cons_of_mem _ hv)
    · exact .failWith _
  | puts => exact puts_operates args

end Builtin

/-! ### Names -/

theorem evalName_operates (frame : FrameId) (name : String) :
    Operates [frame] [] (evalName frame name) := by
  intro store
  simp only [evalName, EvalM.exec_bind, EvalM.exec_lookup]
  split
  case h_3 hlookup => exact .found (.inr ⟨frame, List.mem_cons_self, name, _, hlookup, .self _⟩)
  -- a name that is not bound, or bound to no value, can still be that of a builtin function
  all_goals
    split
    · exact Operates.plain rfl store
    · exact Operates.failWith _ store

/-! ### Literals and failures -/

theorem newString_operates (value : String) : Operates [] [] (EvalM.newString value) :=
  .newString value

theorem newArray_operates (elements : List Value) :
    Operates [] elements (EvalM.newArray elements) :=
  .newArray fun _ helement => .inl helement

theorem newHash_operates (entries : List (HashKey × Value × Value)) :
    Operates [] (Value.entryValues entries) (EvalM.newHash entries) := by
  intro store
  rw [EvalM.newHash, EvalM.exec_fresh_bind]
  exact .made rfl rfl fun value hvalue => Store.atHand_of_mem hvalue

theorem unusableKey_operates (key : Value) :
    Operates [] [key] (do EvalM.failWith (.unusableKey (← EvalM.kindOf key))) :=
  .kindOf List.mem_cons_self fun _ => .failWith _

theorem notCallable_operates (callee : Value) :
    Operates [] [callee] (do EvalM.failWith (.notCallable (← EvalM.kindOf callee))) :=
  .kindOf List.mem_cons_self fun _ => .failWith _

theorem parameterCount_operates (want got : Nat) :
    Operates [] [] (EvalM.failWith (.parameterCount want got)) :=
  .failWith _

/-! ### What all operations have in common -/

namespace Operation

variable {frames : List FrameId} {args : List Value} {store : Store}
  {ending : Except Fault Value × Store}

/-- Operations leave the frames alone. -/
theorem frames_eq (h : Operation frames args store ending) : ending.2.frames = store.frames := by
  cases h <;> rfl

theorem bindings_eq (h : Operation frames args store ending) : ending.2.bindings = store.bindings := by
  funext frame
  rw [Store.bindings, h.frames_eq, Store.bindings]

/-- A property that plain values and new objects have is kept from the arguments, and from what names
are looked up to, to the result. -/
theorem all {p : Value → Prop} (hplain : ∀ value : Value, value.isPlain → p value)
    (hdata : ∀ value : Value, value.isData → p value)
    (hlookup : ∀ frame ∈ frames, ∀ name value, store.lookup frame name = some value → value.All p)
    (hargs : ∀ arg ∈ args, arg.All p) (h : Operation frames args store ending) {value : Value}
    (hvalue : ending.1 = .ok value) : value.All p := by
  cases h with
  | plain h =>
    cases hvalue
    exact Value.all_of_components_eq_nil (Value.components_of_isPlain h) (hplain _ h)
  | found h =>
    cases hvalue
    exact h.all hlookup hargs
  | made hid hisData h =>
    cases hvalue
    exact Value.all_iff.2 ⟨hdata _ hisData, fun c hc => (h c hc).all hlookup hargs⟩
  | printed output =>
    cases hvalue
    exact Value.all_of_components_eq_nil rfl (hplain _ rfl)
  | kindless h => cases hvalue
  | textless harg h output => cases hvalue

end Operation

end MonkeyLang
