import MonkeyLang.Proofs.Bindings

/-!
# The parts of values

An array is made of its elements, a hash of its keys and values, and a value on its way out of a
function of the value that it carries: these are the `components` of a value.  Its parts are the
value itself and the parts of its components.

* `Value.IsPart part whole` is this relation, and it is transitive;
* `Value.All p value` says that every part of a value has the property `p`;
* `Store.AtHand store frames args value` says that a value can be had without making one: it is a
  part of one of `args`, or of what a name is looked up to in one of `frames`;
* `Store.Reaches store frame` is the frames that can be reached from a frame, and
  `Store.HoldsFrom store frame p` says that what is bound in them has the property `p`.
-/

namespace MonkeyLang

namespace Value

/-- The keys and the values of a hash. -/
def entryValues (entries : List (HashKey × Value × Value)) : List Value :=
  entries.flatMap fun entry => [entry.2.1, entry.2.2]

/-- The values that a value is made of. -/
def components : Value → List Value
  | array _ elements => elements
  | hash _ entries => entryValues entries
  | returned _ value => [value]
  | _ => []

/-- The number of the frame that a function was made in. -/
def scope? : Value → Option FrameId
  | function _ _ _ scope => some scope
  | _ => none

theorem mem_entryValues {entries : List (HashKey × Value × Value)} {value : Value} :
    value ∈ entryValues entries ↔ ∃ entry ∈ entries, value = entry.2.1 ∨ value = entry.2.2 := by
  simp [entryValues]

/-- What holds of the keys and values of a hash, and of a new key and value, holds of those after
the insertion. -/
theorem forall_mem_insert {p : Value → Prop} {entries : List (HashKey × Value × Value)}
    (h : ∀ value ∈ entryValues entries, p value) (hashKey : HashKey) {key value : Value}
    (hkey : p key) (hvalue : p value) :
    ∀ v ∈ entryValues (Assoc.insert hashKey (key, value) entries), p v := by
  intro v hv
  obtain ⟨entry, hentry, hv⟩ := mem_entryValues.1 hv
  rcases Assoc.mem_insert hentry with hold | hnew
  · exact h v (mem_entryValues.2 ⟨entry, hold, hv⟩)
  · rw [hnew] at hv
    rcases hv with rfl | rfl
    · exact hkey
    · exact hvalue

/-- A value is a part of itself and of the values that one of its wholes is a component of. -/
inductive IsPart : Value → Value → Prop
  | self (value : Value) : IsPart value value
  | inside {part component whole : Value} (hcomponent : component ∈ whole.components)
      (hpart : IsPart part component) : IsPart part whole

theorem IsPart.trans {a b c : Value} (hab : a.IsPart b) (hbc : b.IsPart c) : a.IsPart c := by
  induction hbc with
  | self => exact hab
  | inside hcomponent _ ih => exact .inside hcomponent ih

theorem isPart_of_mem_components {component whole : Value} (h : component ∈ whole.components) :
    component.IsPart whole :=
  .inside h (.self component)

/-- Every part of a value has the property. -/
def All (p : Value → Prop) (value : Value) : Prop :=
  ∀ part : Value, part.IsPart value → p part

variable {p q : Value → Prop} {value : Value}

theorem All.self (h : value.All p) : p value := h value (.self value)

theorem All.of_isPart {part : Value} (h : value.All p) (hpart : part.IsPart value) : part.All p :=
  fun inner hinner => h inner (hinner.trans hpart)

theorem All.mono (h : value.All p) (hpq : ∀ value, p value → q value) : value.All q :=
  fun part hpart => hpq part (h part hpart)

theorem all_iff : value.All p ↔ p value ∧ ∀ component ∈ value.components, component.All p := by
  constructor
  · exact fun h => ⟨h.self, fun component hc => h.of_isPart (isPart_of_mem_components hc)⟩
  · rintro ⟨hself, hcomponents⟩ part hpart
    cases hpart with
    | self => exact hself
    | inside hcomponent hpart => exact hcomponents _ hcomponent _ hpart

/-- For a value that is made of no others it is enough to look at the value. -/
theorem all_of_components_eq_nil (hvalue : value.components = []) (h : p value) : value.All p :=
  all_iff.2 ⟨h, by simp [hvalue]⟩

/-- A value that was not made by evaluation: null, an integer, a truth value or a builtin
function. -/
def isPlain : Value → Bool
  | null | integer _ | boolean _ | builtin _ => true
  | _ => false

theorem components_of_isPlain (h : value.isPlain) : value.components = [] := by
  cases value <;> first | rfl | cases h

theorem id?_of_isPlain (h : value.isPlain) : value.id? = none := by
  cases value <;> first | rfl | cases h

theorem All.orNull (h : value.All p) (hnull : p null) : value.orNull.All p := by
  cases value with
  | nothing => exact all_of_components_eq_nil rfl hnull
  | _ => exact h

/-- All of several values have the property, or the failure in the place of one does. -/
def EachIs (p : Value → Prop) : Except Value (List Value) → Prop
  | .ok values => ∀ value ∈ values, p value
  | .error failure => p failure

end Value

namespace Store

/-- A value that can be had without making one: a part of an argument, or of what a name is looked
up to in one of the frames. -/
def AtHand (store : Store) (frames : List FrameId) (args : List Value) (value : Value) : Prop :=
  (∃ arg ∈ args, value.IsPart arg) ∨
    ∃ frame ∈ frames, ∃ name whole, store.lookup frame name = some whole ∧ value.IsPart whole

variable {store : Store} {frames : List FrameId} {args : List Value} {p : Value → Prop}
  {value : Value}

theorem atHand_of_mem (h : value ∈ args) : store.AtHand frames args value :=
  .inl ⟨value, h, .self value⟩

theorem atHand_of_mem_components {arg : Value} (harg : arg ∈ args)
    (h : value ∈ arg.components) : store.AtHand frames args value :=
  .inl ⟨arg, harg, Value.isPart_of_mem_components h⟩

/-- What all arguments have in every part, and all that names are looked up to, all values at hand
have in every part. -/
theorem AtHand.all (h : store.AtHand frames args value)
    (hlookup : ∀ frame ∈ frames, ∀ name value, store.lookup frame name = some value → value.All p)
    (hargs : ∀ arg ∈ args, arg.All p) : value.All p := by
  rcases h with ⟨arg, harg, hpart⟩ | ⟨frame, hframe, name, whole, hwhole, hpart⟩
  · exact (hargs arg harg).of_isPart hpart
  · exact (hlookup frame hframe name whole hwhole).of_isPart hpart

/-- The frames that can be reached from a frame: outwards, and through the functions that are bound
in the frames reached so far. -/
inductive Reaches (store : Store) (frame : FrameId) : FrameId → Prop
  | self : Reaches store frame frame
  | outer {f outer : FrameId} (h : Reaches store frame f) (houter : store.outer? f = some outer) :
    Reaches store frame outer
  | scope {f scope : FrameId} (h : Reaches store frame f) {binding : String × Value}
    (hbinding : binding ∈ store.bindings f) {id : ObjectId} {parameters : List Identifier}
    {body : Node} (hpart : (Value.function id parameters body scope).IsPart binding.2) :
    Reaches store frame scope

/-- Every value that is bound in a frame that can be reached has the property. -/
def HoldsFrom (store : Store) (frame : FrameId) (p : Value → Prop) : Prop :=
  ∀ f, store.Reaches frame f → ∀ binding ∈ store.bindings f, p binding.2

theorem Holds.holdsFrom {p : Value → Prop} (h : store.Holds p) (frame : FrameId) :
    store.HoldsFrom frame p :=
  fun f _ => h f

end Store

end MonkeyLang
