import Mathlib.Tactic.Common
import Mathlib.Logic.Function.Basic
import MonkeyLang.Proofs.Parts
import MonkeyLang.Value.Display

/-!
# Renaming objects and frames

A `Renaming` gives other numbers to objects and to frames, and `Value.rename` carries it through a
value.  The numbers cannot be seen: a renamed value is of the same kind and is shown by the same
text, as a key it is the same, and two values are the same object after a renaming that keeps
objects apart if and only if they were before.

A value whose numbers are all left as they are is not changed (`Value.rename_eq_self`).
-/

namespace MonkeyLang

/-- Other numbers for frames and objects. -/
structure Renaming where
  frame : FrameId → FrameId
  object : ObjectId → ObjectId

/-- The renaming that changes nothing. -/
def Renaming.identity : Renaming := ⟨fun frame => frame, fun id => id⟩

namespace Value

mutual

/-- The value with other numbers for the objects in it and for the frames of its functions. -/
def rename (ρ : Renaming) : Value → Value
  | nothing => nothing
  | null => null
  | integer value => integer value
  | boolean value => boolean value
  | string id value => string (ρ.object id) value
  | array id elements => array (ρ.object id) (renameEach ρ elements)
  | hash id entries => hash (ρ.object id) (renameEntries ρ entries)
  | function id parameters body scope => function (ρ.object id) parameters body (ρ.frame scope)
  | builtin f => builtin f
  | returned id value => returned (ρ.object id) (value.rename ρ)
  | error id failure => error (ρ.object id) failure

/-- Several values with other numbers. -/
def renameEach (ρ : Renaming) : List Value → List Value
  | [] => []
  | value :: values => value.rename ρ :: renameEach ρ values

/-- The entries of a hash with other numbers in the keys and values. -/
def renameEntries (ρ : Renaming) :
    List (HashKey × Value × Value) → List (HashKey × Value × Value)
  | [] => []
  | (hashKey, key, value) :: entries =>
    (hashKey, key.rename ρ, value.rename ρ) :: renameEntries ρ entries

end

variable (ρ : Renaming)

theorem renameEach_eq_map (values : List Value) : renameEach ρ values = values.map (rename ρ) := by
  induction values with
  | nil => rfl
  | cons value values ih => rw [renameEach, ih, List.map_cons]

@[simp] theorem length_renameEach (values : List Value) :
    (renameEach ρ values).length = values.length := by
  rw [renameEach_eq_map, List.length_map]

theorem find?_renameEntries (hashKey : HashKey) (entries : List (HashKey × Value × Value)) :
    Assoc.find? hashKey (renameEntries ρ entries) =
      (Assoc.find? hashKey entries).map fun entry => (entry.1.rename ρ, entry.2.rename ρ) := by
  induction entries with
  | nil => rfl
  | cons entry entries ih =>
    obtain ⟨k, key, value⟩ := entry
    rw [renameEntries, Assoc.find?, Assoc.find?]
    split
    · rfl
    · exact ih

theorem insert_renameEntries (hashKey : HashKey) (key value : Value)
    (entries : List (HashKey × Value × Value)) :
    Assoc.insert hashKey (key.rename ρ, value.rename ρ) (renameEntries ρ entries) =
      renameEntries ρ (Assoc.insert hashKey (key, value) entries) := by
  induction entries with
  | nil => rfl
  | cons entry entries ih =>
    obtain ⟨k, oldKey, oldValue⟩ := entry
    rw [renameEntries, Assoc.insert, Assoc.insert]
    split
    · rfl
    · rw [ih, renameEntries]

/-! ### What a renaming does not change -/

@[simp] theorem kind?_rename (value : Value) : (value.rename ρ).kind? = value.kind? := by
  cases value <;> rfl

@[simp] theorem key?_rename (value : Value) : (value.rename ρ).key? = value.key? := by
  cases value <;> rfl

@[simp] theorem isTruthy_rename (value : Value) : (value.rename ρ).isTruthy = value.isTruthy := by
  cases value <;> rfl

@[simp] theorem isError_rename (value : Value) : (value.rename ρ).isError = value.isError := by
  cases value <;> rfl

@[simp] theorem isSignal_rename (value : Value) : (value.rename ρ).isSignal = value.isSignal := by
  cases value <;> rfl

@[simp] theorem isPlain_rename (value : Value) : (value.rename ρ).isPlain = value.isPlain := by
  cases value <;> rfl

theorem unwrap_rename (value : Value) : (value.rename ρ).unwrap = value.unwrap.rename ρ := by
  cases value <;> rfl

theorem orNull_rename (value : Value) : (value.rename ρ).orNull = value.orNull.rename ρ := by
  cases value <;> rfl

theorem id?_rename (value : Value) : (value.rename ρ).id? = value.id?.map ρ.object := by
  cases value <;> rfl

theorem rename_of_isPlain {value : Value} (h : value.isPlain) : value.rename ρ = value := by
  cases value with
  | null | integer | boolean | builtin => rfl
  | _ => cases h

/-! ### The text that shows a value -/

theorem write_array (id : ObjectId) (elements : List Value) :
    (array id elements).write = Node.writeItems '[' (writeEach elements) ']' := rfl

theorem write_hash (id : ObjectId) (entries : List (HashKey × Value × Value)) :
    (hash id entries).write = Node.writeItems '{' (writeEntries entries) '}' := rfl

theorem write_returned (id : ObjectId) (value : Value) :
    (returned id value).write = value.write := rfl

theorem writeEach_cons (value : Value) (values : List Value) :
    writeEach (value :: values) = value.write :: writeEach values := rfl

theorem writeEntries_cons (hashKey : HashKey) (key value : Value)
    (entries : List (HashKey × Value × Value)) :
    writeEntries ((hashKey, key, value) :: entries) =
      (key.write ++ [':', ' '] ++ value.write) :: writeEntries entries := rfl

mutual

@[simp] theorem write_rename : (value : Value) → (value.rename ρ).write = value.write
  | array _ elements => by rw [rename, write_array, writeEach_rename elements, write_array]
  | hash _ entries => by rw [rename, write_hash, writeEntries_rename entries, write_hash]
  | returned _ value => by rw [rename, write_returned, write_rename value, write_returned]
  | nothing | null | integer _ | boolean _ | string .. | function .. | builtin _ | error .. => rfl

theorem writeEach_rename : (values : List Value) →
    writeEach (renameEach ρ values) = writeEach values
  | [] => rfl
  | value :: values => by
    rw [renameEach, writeEach_cons, write_rename value, writeEach_rename values, writeEach_cons]

theorem writeEntries_rename : (entries : List (HashKey × Value × Value)) →
    writeEntries (renameEntries ρ entries) = writeEntries entries
  | [] => rfl
  | (_, key, value) :: entries => by
    rw [renameEntries, writeEntries_cons, write_rename key, write_rename value,
      writeEntries_rename entries, writeEntries_cons]

end

@[simp] theorem display_rename (value : Value) : (value.rename ρ).display = value.display := by
  rw [display, write_rename, display]

mutual

@[simp] theorem obstacle?_rename : (value : Value) → (value.rename ρ).obstacle? = value.obstacle?
  | array _ elements => by simp only [rename, obstacle?, firstObstacle?_rename elements]
  | hash _ entries => by simp only [rename, obstacle?, firstEntryObstacle?_rename entries]
  | returned _ value => by simp only [rename, obstacle?, obstacle?_rename value]
  | nothing | null | integer _ | boolean _ | string .. | function .. | builtin _ | error .. => rfl

theorem firstObstacle?_rename : (values : List Value) →
    firstObstacle? (renameEach ρ values) = firstObstacle? values
  | [] => rfl
  | value :: values => by
    rw [renameEach, firstObstacle?, firstObstacle?, obstacle?_rename value,
      firstObstacle?_rename values]

theorem firstEntryObstacle?_rename : (entries : List (HashKey × Value × Value)) →
    firstEntryObstacle? (renameEntries ρ entries) = firstEntryObstacle? entries
  | [] => rfl
  | (_, key, value) :: entries => by
    rw [renameEntries, firstEntryObstacle?, firstEntryObstacle?, obstacle?_rename key,
      obstacle?_rename value, firstEntryObstacle?_rename entries]

end

variable {ρ}

/-- Objects that are kept apart are the same if and only if they were. -/
theorem isSame_rename (hρ : Function.Injective ρ.object) (a b : Value) :
    (a.rename ρ).isSame (b.rename ρ) = a.isSame b := by
  have hids : ∀ i j : ObjectId, (ρ.object i == ρ.object j) = (i == j) := by
    intro i j
    rw [Bool.eq_iff_iff, beq_iff_eq, beq_iff_eq]
    exact hρ.eq_iff
  cases a <;> cases b <;> simp [rename, isSame, id?, hids]

/-! ### Values that are not changed -/

/-- The renaming leaves the number of the object and that of its frame as they are. -/
def IsFixed (ρ : Renaming) (value : Value) : Prop :=
  (∀ id, value.id? = some id → ρ.object id = id) ∧
    ∀ scope, value.scope? = some scope → ρ.frame scope = scope

mutual

theorem rename_eq_self : (value : Value) → value.All (IsFixed ρ) → value.rename ρ = value
  | nothing, _ | null, _ | integer _, _ | boolean _, _ | builtin _, _ => rfl
  | string id value, h => by rw [rename, h.self.1 id rfl]
  | array id elements, h => by
    rw [rename, h.self.1 id rfl, renameEach_eq_self elements fun element hmem =>
      h.of_isPart (isPart_of_mem_components hmem)]
  | hash id entries, h => by
    rw [rename, h.self.1 id rfl, renameEntries_eq_self entries fun entry hmem =>
      ⟨h.of_isPart (isPart_of_mem_components (mem_entryValues.2 ⟨entry, hmem, .inl rfl⟩)),
        h.of_isPart (isPart_of_mem_components (mem_entryValues.2 ⟨entry, hmem, .inr rfl⟩))⟩]
  | function id parameters body scope, h => by
    rw [rename, h.self.1 id rfl, h.self.2 scope rfl]
  | returned id value, h => by
    rw [rename, h.self.1 id rfl, rename_eq_self value
      (h.of_isPart (isPart_of_mem_components List.mem_cons_self))]
  | error id failure, h => by rw [rename, h.self.1 id rfl]

theorem renameEach_eq_self : (values : List Value) → (∀ value ∈ values, value.All (IsFixed ρ)) →
    renameEach ρ values = values
  | [], _ => rfl
  | value :: values, h => by
    obtain ⟨hfirst, hrest⟩ := List.forall_mem_cons.1 h
    rw [renameEach, rename_eq_self value hfirst, renameEach_eq_self values hrest]

theorem renameEntries_eq_self : (entries : List (HashKey × Value × Value)) →
    (∀ entry ∈ entries, entry.2.1.All (IsFixed ρ) ∧ entry.2.2.All (IsFixed ρ)) →
    renameEntries ρ entries = entries
  | [], _ => rfl
  | (hashKey, key, value) :: entries, h => by
    obtain ⟨⟨hkey, hvalue⟩, hrest⟩ := List.forall_mem_cons.1 h
    rw [renameEntries, rename_eq_self key hkey, rename_eq_self value hvalue,
      renameEntries_eq_self entries hrest]

end

@[simp] theorem rename_identity (value : Value) : value.rename .identity = value :=
  rename_eq_self value fun _ _ => ⟨fun _ _ => rfl, fun _ _ => rfl⟩

end Value

end MonkeyLang
