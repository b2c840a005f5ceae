import MonkeyLang.Proofs.Names
import MonkeyLang.Proofs.Operation
import MonkeyLang.Proofs.Renaming

/-!
# Stores that look alike

A `View` tells what two stores have in common.  It consists of the renaming that leads from one
store to the other, of the frames that are `seen`, and of the names that are `hidden`: what is bound
to them may differ, and so may all that is in other frames.

`V.Matches s t` says that `t` is what the view makes of `s`.  A frame that is seen has its
counterpart inside the counterpart of its outer frame, and with the same names bound to renamed
values.  Whatever is made next is a counterpart again, in both stores.  For this to last, nothing
that can be looked up may lead out of the view: the functions in a value were made in frames that
are seen, and have no hidden names in them (`V.Knows n value`, where `n` is the number of frames).

The steps of evaluation that look at the store or change it keep two stores matched:
`Matches.lookup_eq`, `Matches.bind`, `Matches.enclose`, `Matches.allocate` and `Matches.print`.
-/

namespace MonkeyLang

/-! ### Views -/

/-- What two stores have in common. -/
structure View extends Renaming where
  /-- The frames that have a counterpart. -/
  seen : FrameId → Prop
  /-- The names that may be bound to other values, or not be bound. -/
  hidden : String → Bool
  /-- Counterparts of frames are in the same order. -/
  frame_lt : ∀ {a b : FrameId}, a < b → frame a < frame b
  /-- Counterparts of different objects are different. -/
  object_injective : Function.Injective object

namespace View

variable (V : View)

theorem frame_injective : Function.Injective V.frame := by
  intro a b h
  rcases Nat.lt_trichotomy a b with hlt | heq | hlt
  · exact absurd h (Nat.ne_of_lt (V.frame_lt hlt))
  · exact heq
  · exact absurd h (Nat.ne_of_gt (V.frame_lt hlt))

/-- The value in the other store. -/
abbrev move (value : Value) : Value := value.rename V.toRenaming

/-- One of the first `n` frames that is seen. -/
structure Sees (n : Nat) (frame : FrameId) : Prop where
  lt : frame < n
  seen : V.seen frame

/-- A function that was made in one of the first `n` frames, in one that is seen, and without hidden
names; or another value than a function. -/
def Admits (n : Nat) : Value → Prop
  | .function _ parameters body scope =>
    V.Sees n scope ∧
      (∀ parameter ∈ parameters, V.hidden parameter.name = false) ∧ body.Avoids V.hidden
  | _ => True

/-- The functions in the value are admitted. -/
abbrev Knows (n : Nat) (value : Value) : Prop := value.All (V.Admits n)

variable {V} {m n : Nat} {value : Value}

theorem Sees.mono {frame : FrameId} (h : V.Sees n frame) (hle : n ≤ m) : V.Sees m frame :=
  ⟨Nat.lt_of_lt_of_le h.lt hle, h.seen⟩

theorem Knows.mono (h : V.Knows n value) (hle : n ≤ m) : V.Knows m value := by
  refine Value.All.mono h fun part hpart => ?_
  cases part with
  | function id parameters body scope =>
    exact ⟨hpart.1.mono hle, hpart.2⟩
  | _ => trivial

theorem knows_of_isPlain (h : value.isPlain) : V.Knows n value :=
  Value.all_of_components_eq_nil (Value.components_of_isPlain h) (by cases value <;> trivial)

theorem knows_nothing : V.Knows n .nothing := Value.all_of_components_eq_nil rfl trivial

theorem Knows.orNull (h : V.Knows n value) : V.Knows n value.orNull := Value.All.orNull h trivial

theorem Knows.unwrap (h : V.Knows n value) : V.Knows n value.unwrap := by
  cases value with
  | returned => exact h.of_isPart (Value.isPart_of_mem_components List.mem_cons_self)
  | _ => exact h

/-- What new objects are made of is known. -/
theorem knows_of_isData (hdata : value.isData)
    (h : ∀ component ∈ value.components, V.Knows n component) : V.Knows n value := by
  refine Value.all_iff.2 ⟨?_, h⟩
  cases value with
  | function => cases hdata
  | _ => trivial

/-! ### Matching stores -/

/-- The second store is what the view makes of the first one. -/
structure Matches (V : View) (s t : Store) : Prop where
  /-- The frames to come are seen, and are counterparts in order. -/
  frames : ∀ k, V.seen (s.frames.size + k) ∧ V.frame (s.frames.size + k) = t.frames.size + k
  /-- The objects to come are counterparts in order. -/
  objects : ∀ k, V.object (s.nextId + k) = t.nextId + k
  outer : ∀ f, V.seen f → t.outer? (V.frame f) = (s.outer? f).map V.frame
  outward : ∀ f outer, V.seen f → s.outer? f = some outer → V.seen outer ∧ outer < f
  binding : ∀ f name, V.seen f → V.hidden name = false →
    t.binding? (V.frame f) name = (s.binding? f name).map V.move
  known : ∀ f name value, V.seen f → V.hidden name = false → s.binding? f name = some value →
    V.Knows s.frames.size value

namespace Matches

variable {s t : Store}

theorem seen_size (h : V.Matches s t) : V.seen s.frames.size := (h.frames 0).1

theorem frame_size (h : V.Matches s t) : V.frame s.frames.size = t.frames.size := (h.frames 0).2

theorem object_nextId (h : V.Matches s t) : V.object s.nextId = t.nextId := h.objects 0

/-- What a name is looked up to are counterparts, along the whole chain of frames. -/
theorem lookup_eq (h : V.Matches s t) {f : FrameId} (hf : V.seen f) {name : String}
    (hname : V.hidden name = false) :
    t.lookup (V.frame f) name = (s.lookup f name).map V.move := by
  induction f using Nat.strongRecOn with
  | ind f ih =>
    rw [Store.lookup_eq, Store.lookup_eq, h.binding f name hf hname, h.outer f hf]
    cases s.binding? f name with
    | some value => rfl
    | none =>
      cases houter : s.outer? f with
      | none => rfl
      | some outer =>
        obtain ⟨hseen, hlt⟩ := h.outward f outer hf houter
        simp only [Option.map_some, Option.bind_some, V.frame_lt hlt, hlt, if_true]
        exact ih outer hlt hseen

theorem knows_lookup (h : V.Matches s t) {f : FrameId} (hf : V.seen f) {name : String}
    (hname : V.hidden name = false) {value : Value} (hvalue : s.lookup f name = some value) :
    V.Knows s.frames.size value := by
  induction f using Nat.strongRecOn with
  | ind f ih =>
    rw [Store.lookup_eq] at hvalue
    cases hbinding : s.binding? f name with
    | some v =>
      rw [hbinding] at hvalue
      cases hvalue
      exact h.known f name value hf hname hbinding
    | none =>
      cases houter : s.outer? f with
      | none =>
        rw [hbinding, houter] at hvalue
        cases hvalue
      | some outer =>
        obtain ⟨hseen, hlt⟩ := h.outward f outer hf houter
        simp only [hbinding, houter, Option.none_or, Option.bind_some, hlt, if_true] at hvalue
        exact ih outer hlt hseen hvalue

theorem bind (h : V.Matches s t) {f : FrameId} (hlt : f < s.frames.size) (name : String)
    {value : Value} (hvalue : V.Knows s.frames.size value) :
    V.Matches (s.bind f name value) (t.bind (V.frame f) name (V.move value)) := by
  have hlt' : V.frame f < t.frames.size := h.frame_size ▸ V.frame_lt hlt
  constructor
  · intro k
    rw [Store.size_bind, Store.size_bind]
    exact h.frames k
  · exact h.objects
  · intro g hg
    rw [Store.outer?_bind, Store.outer?_bind]
    exact h.outer g hg
  · intro g outer hg
    rw [Store.outer?_bind]
    exact h.outward g outer hg
  · intro g m hg hm
    simp only [Store.binding?_bind _ name hlt, Store.binding?_bind _ name hlt',
      V.frame_injective.eq_iff, h.binding g m hg hm]
    split <;> rfl
  · intro g m v hg hm
    rw [Store.binding?_bind s name hlt, Store.size_bind]
    split
    · rintro ⟨⟩
      exact hvalue
    · exact h.known g m v hg hm

theorem enclose (h : V.Matches s t) {scope : FrameId} (hscope : V.Sees s.frames.size scope) :
    V.Matches (s.enclose scope).2 (t.enclose (V.frame scope)).2 := by
  constructor
  · intro k
    rw [Store.size_enclose, Store.size_enclose, Nat.add_assoc, Nat.add_assoc]
    exact h.frames (1 + k)
  · exact h.objects
  · intro f hf
    simp only [Store.outer?_enclose, ← h.frame_size, V.frame_injective.eq_iff, h.outer f hf]
    split <;> rfl
  · intro f outer hf
    rw [Store.outer?_enclose]
    split
    · next hnew =>
      rintro ⟨⟩
      exact ⟨hscope.seen, hnew ▸ hscope.lt⟩
    · exact h.outward f outer hf
  · intro f name hf hname
    rw [Store.binding?_enclose, Store.binding?_enclose]
    exact h.binding f name hf hname
  · intro f name value hf hname hvalue
    rw [Store.binding?_enclose] at hvalue
    rw [Store.size_enclose]
    exact (h.known f name value hf hname hvalue).mono (Nat.le_succ _)

theorem allocate (h : V.Matches s t) : V.Matches s.allocate.2 t.allocate.2 where
  frames := h.frames
  objects k := by
    change V.object (s.nextId + 1 + k) = t.nextId + 1 + k
    rw [Nat.add_assoc, Nat.add_assoc]
    exact h.objects (1 + k)
  outer := h.outer
  outward := h.outward
  binding := h.binding
  known := h.known

theorem print (h : V.Matches s t) (line : String) : V.Matches (s.print line) (t.print line) :=
  ⟨h.frames, h.objects, h.outer, h.outward, h.binding, h.known⟩

end Matches

end View

end MonkeyLang
