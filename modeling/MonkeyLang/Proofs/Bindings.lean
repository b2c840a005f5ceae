import MonkeyLang.Eval.Node

/-!
# What the frames hold

A frame is described by the frame around it (`Store.outer?`) and by what names are bound to in it
(`Store.binding?`).  Looking up a name goes through these (`Store.lookup_eq`), and there is an
equation for either of them after each step that changes the frames.

`Store.Holds store p` says that every value that is bound to a name in one of the frames has the
property `p`.  The steps of evaluation that change the frames keep such a property as long as the
values that they bind have it, and what a name is looked up to has it.
-/

namespace MonkeyLang

/-- Insertion adds nothing but the new value. -/
theorem Assoc.mem_insert {κ α : Type} [DecidableEq κ] {key : κ} {value : α} {map : List (κ × α)}
    {entry : κ × α} (h : entry ∈ Assoc.insert key value map) :
    entry ∈ map ∨ entry.2 = value := by
  induction map with
  | nil => simp_all [Assoc.insert]
  | cons first map ih => grind [Assoc.insert]

theorem Assoc.mem_of_find? {κ α : Type} [DecidableEq κ] {key : κ} {value : α} {map : List (κ × α)}
    (h : Assoc.find? key map = some value) : (key, value) ∈ map := by
  induction map with
  | nil => simp [Assoc.find?] at h
  | cons first map ih => grind [Assoc.find?]

namespace Store

/-! ### Frames one by one -/

section Frames

/-- What a name is bound to in a frame. -/
def binding? (store : Store) (frame : FrameId) (name : String) : Option Value :=
  Assoc.find? name (store.bindings frame)

variable (store : Store) (frame : FrameId) (name : String)

theorem outer?_eq_none {store : Store} {frame : FrameId} (h : store.frames.size ≤ frame) :
    store.outer? frame = none := by
  rw [outer?, Array.getElem?_eq_none h, Option.bind_none]

theorem binding?_eq_none {store : Store} {frame : FrameId} (h : store.frames.size ≤ frame)
    (name : String) : store.binding? frame name = none := by
  rw [binding?, bindings, Array.getElem?_eq_none h]
  rfl

theorem outer?_congr {s t : Store} {frame : FrameId} (h : t.frames[frame]? = s.frames[frame]?) :
    t.outer? frame = s.outer? frame := by
  rw [outer?, h, outer?]

theorem binding?_congr {s t : Store} {frame : FrameId} (h : t.frames[frame]? = s.frames[frame]?)
    (name : String) : t.binding? frame name = s.binding? frame name := by
  rw [binding?, bindings, h, binding?, bindings]

/-- A name is looked up in its frame, and if it is not bound there, in the frame around it. -/
theorem lookup_eq : store.lookup frame name = (store.binding? frame name).or
    ((store.outer? frame).bind fun outer =>
      if outer < frame then store.lookup outer name else none) := by
  rw [lookup, chain]
  cases store.outer? frame with
  | none => simp [binding?]
  | some outer =>
    dsimp only [Option.bind_some]
    split
    · rw [List.findSome?_cons, binding?, lookup]
      cases Assoc.find? name (store.bindings frame) <;> rfl
    · simp [binding?]

theorem outer?_bind (value : Value) (f : FrameId) :
    (store.bind frame name value).outer? f = store.outer? f := by
  simp only [outer?, Store.bind, Array.getElem?_modify]
  split
  · cases store.frames[f]? <;> rfl
  · rfl

variable {frame} in
theorem binding?_bind (h : frame < store.frames.size) (value : Value) (f : FrameId) (m : String) :
    (store.bind frame name value).binding? f m =
      if frame = f ∧ name = m then some value else store.binding? f m := by
  by_cases hf : frame = f
  · subst hf
    simp only [binding?, bindings, Store.bind, Array.getElem?_modify, Array.getElem?_eq_getElem h,
      if_true, Option.map_some, Option.getD_some, Assoc.find?_insert, true_and]
  · simp only [binding?, bindings, Store.bind, Array.getElem?_modify, hf, if_false, false_and]

@[simp] theorem size_bind (value : Value) :
    (store.bind frame name value).frames.size = store.frames.size := by
  simp [Store.bind]

theorem outer?_enclose (f : FrameId) : (store.enclose frame).2.outer? f =
    if f = store.frames.size then some frame else store.outer? f := by
  simp only [outer?, Store.enclose, addFrame, Array.getElem?_push]
  split <;> rfl

theorem binding?_enclose (f : FrameId) :
    (store.enclose frame).2.binding? f name = store.binding? f name := by
  simp only [binding?, bindings, Store.enclose, addFrame, Array.getElem?_push]
  split
  · next hf => simp [hf]
  · rfl

@[simp] theorem size_enclose :
    (store.enclose frame).2.frames.size = store.frames.size + 1 := by
  simp [Store.enclose, addFrame]

variable {store frame name}

/-- Binding a name adds nothing to a frame but the new value. -/
theorem mem_bindings_bind {value : Value} {f : FrameId} {binding : String × Value}
    (h : binding ∈ (store.bind frame name value).bindings f) :
    binding ∈ store.bindings f ∨ binding.2 = value := by
  simp only [bindings, Store.bind, Array.getElem?_modify] at h ⊢
  -- only the frame of the new binding has changed
  split at h
  · cases hf : store.frames[f]? with
    | none => simp [hf] at h
    | some old =>
      simp only [hf, Option.map_some, Option.getD_some] at h ⊢
      exact Assoc.mem_insert h
  · exact .inl h

/-- A new frame has no bindings. -/
theorem mem_bindings_addFrame {outer : Option FrameId} {f : FrameId} {binding : String × Value}
    (h : binding ∈ (store.addFrame outer).2.bindings f) : binding ∈ store.bindings f := by
  simp only [bindings, Store.addFrame, Array.getElem?_push] at h ⊢
  split at h
  · simp at h
  · exact h

theorem bindings_eq_nil (h : store.frames.size ≤ frame) : store.bindings frame = [] := by
  rw [bindings, Array.getElem?_eq_none h]
  rfl

end Frames

/-! ### All frames -/

/-- Every value that is bound to a name has the property. -/
def Holds (store : Store) (p : Value → Prop) : Prop :=
  ∀ frame, ∀ binding ∈ store.bindings frame, p binding.2

variable {store : Store} {p q : Value → Prop}

theorem holds_initial (p : Value → Prop) : initial.Holds p := by
  intro frame binding h
  cases frame <;> simp [bindings, initial] at h

theorem Holds.mono (h : store.Holds p) (hpq : ∀ value, p value → q value) : store.Holds q :=
  fun frame binding hbinding => hpq _ (h frame binding hbinding)

theorem Holds.lookup (h : store.Holds p) {frame : FrameId} {name : String} {value : Value}
    (hvalue : store.lookup frame name = some value) : p value := by
  obtain ⟨f, -, hf⟩ := List.exists_of_findSome?_eq_some hvalue
  exact h f _ (Assoc.mem_of_find? hf)

theorem Holds.bind (h : store.Holds p) (frame : FrameId) (name : String) {value : Value}
    (hvalue : p value) : (store.bind frame name value).Holds p := by
  intro f binding hbinding
  rcases mem_bindings_bind hbinding with hold | hnew
  · exact h f binding hold
  · exact hnew ▸ hvalue

theorem Holds.addFrame (h : store.Holds p) (outer : Option FrameId) :
    (store.addFrame outer).2.Holds p :=
  fun f binding hbinding => h f binding (mem_bindings_addFrame hbinding)

end Store

end MonkeyLang
