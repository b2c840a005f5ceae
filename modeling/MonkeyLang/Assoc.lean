/-!
# Association lists

A finite map as a list of keys with values, in the order in which the keys were first inserted.

* `Assoc.find?` looks a key up;
* `Assoc.insert` overwrites the value of a key where it stands, or adds the key at the end;
* `Assoc.find?_insert` says what insertion does to look-up.

The operations make no use of an order of keys; a list with a key twice shows the first of them.
-/

namespace MonkeyLang.Assoc

variable {κ α : Type} [DecidableEq κ]

/-- The value of a key, if it has one. -/
def find? (key : κ) : List (κ × α) → Option α
  | [] => none
  | (k, a) :: rest => if k = key then some a else find? key rest

/-- The map with a value for a key. -/
def insert (key : κ) (value : α) : List (κ × α) → List (κ × α)
  | [] => [(key, value)]
  | (k, a) :: rest => if k = key then (k, value) :: rest else (k, a) :: insert key value rest

/-- The keys, in order of first insertion. -/
def keys (map : List (κ × α)) : List κ :=
  map.map (·.1)

theorem find?_insert (key k : κ) (value : α) (map : List (κ × α)) :
    find? k (insert key value map) = if key = k then some value else find? k map := by
  induction map with
  | nil => simp [insert, find?]
  | cons entry map ih => grind [insert, find?]

/-- Insertion adds the key at the end unless it is there already. -/
theorem keys_insert (key : κ) (value : α) (map : List (κ × α)) :
    keys (insert key value map) = if key ∈ keys map then keys map else keys map ++ [key] := by
  induction map with
  | nil => simp [insert, keys]
  | cons entry map ih => grind [insert, keys]

end MonkeyLang.Assoc
