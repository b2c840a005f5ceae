import Mathlib.Data.List.Induction
import MonkeyLang.Proofs.Bindings
import MonkeyLang.Proofs.Operation

/-!
# Hash literals

A hash literal may name a key more than once.  The pair that comes last is the one that counts, but
it stands where the key was named first.

* `Assoc.insertAll` is what becomes of a map when several pairs are inserted one after the other:
  its keys (`keys_insertAll`), and what is found under them (`find?_insertAll_of_last`);
* `PairsTo` is the evaluation of the pairs of a literal, from left to right, a key before its value;
* `eval_hash` ties the two together: the entries of the hash are the pairs, inserted in this order;
* `hash_literal_last_wins` is what a user sees of it, in look-up and on the screen.

Keys are compared there as a user would compare them (`SameKey`), by kind and contents.
-/

namespace MonkeyLang

/-! ### Inserting several pairs -/

namespace Assoc

variable {κ α : Type} [DecidableEq κ] {key : κ} {value : α} {pairs map : List (κ × α)}

/-- The map with each pair inserted, one after the other. -/
def insertAll (pairs map : List (κ × α)) : List (κ × α) :=
  pairs.foldl (fun map pair => insert pair.1 pair.2 map) map

theorem insertAll_append (before after map : List (κ × α)) :
    insertAll (before ++ after) map = insertAll after (insertAll before map) :=
  List.foldl_append

/-- A key is found as before, if it is not among those that are inserted. -/
theorem find?_insertAll_of_notMem (h : key ∉ keys pairs) :
    find? key (insertAll pairs map) = find? key map := by
  induction pairs generalizing map with
  | nil => rfl
  | cons pair pairs ih =>
    obtain ⟨hne, hrest⟩ := not_or.1 (mt List.mem_cons.2 h)
    have hstep : insertAll (pair :: pairs) map = insertAll pairs (insert pair.1 pair.2 map) := rfl
    rw [hstep, ih hrest, find?_insert, if_neg (Ne.symm hne)]

/-- The last of the pairs with a key is the one that is found. -/
theorem find?_insertAll_of_last {before after : List (κ × α)} (h : key ∉ keys after) :
    find? key (insertAll (before ++ (key, value) :: after) map) = some value := by
  have hstep : insertAll (before ++ (key, value) :: after) map =
      insertAll after (insert key value (insertAll before map)) := insertAll_append ..
  rw [hstep, find?_insertAll_of_notMem h, find?_insert, if_pos rfl]

/-- The keys are the different ones, in the order in which they occur first. -/
theorem keys_insertAll (pairs : List (κ × α)) :
    keys (insertAll pairs []) = (keys pairs).eraseDups := by
  induction pairs using List.reverseRecOn with
  | nil => rfl
  | append_singleton pairs pair ih =>
    have hstep : insertAll (pairs ++ [pair]) [] = insert pair.1 pair.2 (insertAll pairs []) :=
      insertAll_append ..
    have hkeys : keys (pairs ++ [pair]) = keys pairs ++ [pair.1] := List.map_append
    rw [hstep, keys_insert, ih, hkeys, List.eraseDups_append]
    by_cases hmem : pair.1 ∈ keys pairs <;> simp [List.removeAll, List.eraseDups_cons, hmem]

theorem nodup_keys_insert (h : (keys map).Nodup) : (keys (insert key value map)).Nodup := by
  rw [keys_insert]
  split
  · exact h
  · next hnew =>
    refine List.nodup_append.2 ⟨h, by simp, fun k hk k' hk' heq => hnew ?_⟩
    rwa [← List.mem_singleton.1 hk', ← heq]

theorem nodup_keys_insertAll (h : (keys map).Nodup) : (keys (insertAll pairs map)).Nodup := by
  induction pairs generalizing map with
  | nil => exact h
  | cons pair pairs ih => exact ih (nodup_keys_insert h)

/-- Where no key is there twice, every entry is found under its key. -/
theorem find?_of_mem (h : (keys map).Nodup) (hmem : (key, value) ∈ map) :
    find? key map = some value := by
  induction map with
  | nil => simp at hmem
  | cons entry map ih =>
    obtain ⟨hnew, hrest⟩ := List.nodup_cons.1 h
    rcases List.mem_cons.1 hmem with rfl | hmem
    · simp [find?]
    · have hne : entry.1 ≠ key := fun heq => hnew (List.mem_map.2 ⟨_, hmem, heq.symm⟩)
      simp [find?, hne, ih hrest hmem]

/-- A key that occurs has a last occurrence. -/
theorem exists_last (h : key ∈ keys pairs) :
    ∃ before value after, pairs = before ++ (key, value) :: after ∧ key ∉ keys after := by
  induction pairs with
  | nil => simp [keys] at h
  | cons pair pairs ih =>
    by_cases hlater : key ∈ keys pairs
    · obtain ⟨before, value, after, rfl, hlast⟩ := ih hlater
      exact ⟨pair :: before, value, after, rfl, hlast⟩
    · obtain rfl : key = pair.1 := (List.mem_cons.1 h).resolve_right hlater
      exact ⟨[], pair.2, pairs, rfl, hlater⟩

/-- Every entry is the last of the pairs with its key. -/
theorem last_of_mem_insertAll {entry : κ × α} (h : entry ∈ insertAll pairs []) :
    ∃ before after, pairs = before ++ entry :: after ∧ entry.1 ∉ keys after := by
  have hkey : entry.1 ∈ keys pairs := by
    have hmem : entry.1 ∈ keys (insertAll pairs []) := List.mem_map_of_mem h
    rwa [keys_insertAll, List.mem_eraseDups] at hmem
  obtain ⟨before, value, after, rfl, hlast⟩ := exists_last hkey
  have hfound : find? entry.1 (insertAll (before ++ (entry.1, value) :: after) []) = some entry.2 :=
    find?_of_mem (nodup_keys_insertAll List.nodup_nil) h
  rw [find?_insertAll_of_last hlast] at hfound
  cases hfound
  exact ⟨before, after, rfl, hlast⟩

end Assoc

/-! ### Evaluation -/

/-- The pairs of a hash literal come to these keys and values, from left to right, a key before its
value.  Every key can be one, and no value is a failure. -/
inductive PairsTo (call : CallRule) (frame : FrameId) : List (Node × Node) → Store →
    List (HashKey × Value × Value) → Store → Prop
  | nil (store : Store) : PairsTo call frame [] store [] store
  | cons {keyNode valueNode : Node} {pairs : List (Node × Node)} {key value : Value}
      {hashKey : HashKey} {found : List (HashKey × Value × Value)} {store mid after last : Store}
      (hkey : (keyNode.eval call frame).exec store = (.ok key, mid))
      (hhash : key.key? = some hashKey)
      (hvalue : (valueNode.eval call frame).exec mid = (.ok value, after))
      (hsound : value.isError = false) (hpairs : PairsTo call frame pairs after found last) :
      PairsTo call frame ((keyNode, valueNode) :: pairs) store
        ((hashKey, key, value) :: found) last

variable {call : CallRule} {frame : FrameId} {pairs : List (Node × Node)} {store last : Store}
  {found : List (HashKey × Value × Value)}

theorem Value.isError_of_key? {value : Value} {key : HashKey} (h : value.key? = some key) :
    value.isError = false := by
  cases value <;> first | rfl | cases h

theorem PairsTo.evalPairs (h : PairsTo call frame pairs store found last)
    (entries : List (HashKey × Value × Value)) :
    (Node.evalPairs call frame entries pairs).exec store =
      (.ok (.hash last.nextId (Assoc.insertAll found entries)), last.allocate.2) := by
  induction h generalizing entries with
  | nil store => rfl
  | cons hkey hhash hvalue hsound _ ih =>
    have herror := Value.isError_of_key? hhash
    simp only [Node.evalPairs, EvalM.exec_bind, hkey, herror, hhash, hvalue, hsound,
      Bool.false_eq_true, if_false]
    exact ih _

theorem PairsTo.key? (h : PairsTo call frame pairs store found last) :
    ∀ pair ∈ found, pair.2.1.key? = some pair.1 := by
  induction h with
  | nil => nofun
  | cons _ hhash _ _ _ ih => exact List.forall_mem_cons.2 ⟨hhash, ih⟩

/-- The entries of the hash are the pairs of the literal, inserted one after the other. -/
theorem eval_hash (h : PairsTo call frame pairs store found last) (token : Token) :
    ((Node.hash token pairs).eval call frame).exec store =
      (.ok (.hash last.nextId (Assoc.insertAll found [])), last.allocate.2) := by
  rw [Node.eval]
  exact h.evalPairs []

/-! ### What a user sees -/

/-- Two values are the same key: they have the same kind, and the same contents. -/
inductive SameKey : Value → Value → Prop
  | integer (n : Int) : SameKey (.integer n) (.integer n)
  | boolean (b : Bool) : SameKey (.boolean b) (.boolean b)
  | string (i j : ObjectId) (text : String) : SameKey (.string i text) (.string j text)

theorem SameKey.kind?_eq {a b : Value} (h : SameKey a b) : a.kind? = b.kind? := by
  cases h <;> rfl

theorem SameKey.key?_eq {a b : Value} (h : SameKey a b) : a.key? = b.key? := by
  cases h <;> rfl

theorem sameKey_iff {a b : Value} {key : HashKey} (h : b.key? = some key) :
    SameKey a b ↔ a.key? = some key := by
  refine ⟨fun hsame => hsame.key?_eq.trans h, fun ha => ?_⟩
  cases b with
  | integer n =>
    cases h
    cases a <;> cases ha
    exact .integer n
  | boolean b =>
    cases h
    cases a <;> cases ha
    exact .boolean b
  | string j text =>
    cases h
    cases a <;> cases ha
    exact .string _ j text
  | _ => cases h

/-- The text of a hash, from those of its keys and values. -/
theorem display_hash (id : ObjectId) (entries : List (HashKey × Value × Value)) :
    (Value.hash id entries).display = "\x7b" ++ ", ".intercalate (entries.map fun entry =>
      entry.2.1.display ++ ": " ++ entry.2.2.display) ++ "\x7d" := by
  have hentries : Value.writeEntries entries = entries.map fun entry =>
      entry.2.1.write ++ [':', ' '] ++ entry.2.2.write := by
    induction entries with
    | nil => rfl
    | cons entry entries ih => rw [Value.writeEntries, ih, List.map_cons]
  have hwrite : (Value.hash id entries).write =
      Node.writeItems '\x7b' (Value.writeEntries entries) '\x7d' := rfl
  refine String.toList_inj.1 ?_
  simp only [Value.display, hwrite, hentries, Node.writeItems, String.toList_append,
    String.toList_ofList, String.toList_intercalate, List.map_map, Function.comp_def]
  rfl

/-- What the entries of a hash are, for the pairs that were found in a literal: what a key is looked
up to, and which entries there are. -/
structure LastWins (found entries : List (HashKey × Value × Value)) : Prop where
  lookup : ∀ {before after : List (HashKey × Value × Value)} {hashKey : HashKey}
    {key value position : Value}, found = before ++ (hashKey, key, value) :: after →
    SameKey key position → (∀ pair ∈ after, ¬SameKey pair.2.1 position) → ∀ id store,
      (Eval.index (.hash id entries) position).exec store = (.ok value, store)
  lookup_none : ∀ {position : Value}, position.key?.isSome →
    (∀ pair ∈ found, ¬SameKey pair.2.1 position) → ∀ id store,
      (Eval.index (.hash id entries) position).exec store = (.ok .null, store)
  kinds_apart : ∀ {position : Value}, position.key?.isSome →
    (∀ pair ∈ found, pair.2.1.kind? ≠ position.kind?) → ∀ id store,
      (Eval.index (.hash id entries) position).exec store = (.ok .null, store)
  own_key : ∀ entry ∈ entries, entry.2.1.key? = some entry.1
  distinct : (Assoc.keys entries).Nodup
  order : Assoc.keys entries = (Assoc.keys found).eraseDups
  last : ∀ entry ∈ entries, ∃ before after, found = before ++ entry :: after ∧
    ∀ pair ∈ after, ¬SameKey pair.2.1 entry.2.1

theorem exec_index {position : Value} {key : HashKey} (h : position.key? = some key)
    (id : ObjectId) (entries : List (HashKey × Value × Value)) (store : Store) :
    (Eval.index (.hash id entries) position).exec store =
      (.ok (Eval.valueAt entries key), store) := by
  simp [Eval.index, h]

theorem notMem_keys {position : Value} {key : HashKey}
    (h : ∀ pair ∈ found, pair.2.1.key? = some pair.1) (hkey : position.key? = some key)
    (hother : ∀ pair ∈ found, ¬SameKey pair.2.1 position) : key ∉ Assoc.keys found := by
  intro hmem
  obtain ⟨pair, hpair, rfl⟩ := List.mem_map.1 hmem
  exact hother pair hpair ((sameKey_iff hkey).2 (h pair hpair))

theorem lastWins_insertAll (h : ∀ pair ∈ found, pair.2.1.key? = some pair.1) :
    LastWins found (Assoc.insertAll found []) := by
  have hnone : ∀ {position : Value}, position.key?.isSome →
      (∀ pair ∈ found, ¬SameKey pair.2.1 position) → ∀ id store,
        (Eval.index (.hash id (Assoc.insertAll found [])) position).exec store =
          (.ok .null, store) := by
    intro position hposition hother id store
    obtain ⟨key, hkey⟩ := Option.isSome_iff_exists.1 hposition
    rw [exec_index hkey, Eval.valueAt,
      Assoc.find?_insertAll_of_notMem (notMem_keys h hkey hother)]
    rfl
  have hown : ∀ entry ∈ Assoc.insertAll found [], entry.2.1.key? = some entry.1 := by
    intro entry hentry
    obtain ⟨before, after, rfl, -⟩ := Assoc.last_of_mem_insertAll hentry
    exact h entry (by simp)
  refine ⟨?_, hnone, fun hposition hkinds => ?_, hown, ?_, Assoc.keys_insertAll found, ?_⟩
  · rintro before after hashKey key value position rfl hsame hother id store
    obtain ⟨hbefore, hafter⟩ := List.forall_mem_append.1 h
    obtain ⟨hkey, hafter⟩ := List.forall_mem_cons.1 hafter
    have hposition : position.key? = some hashKey := hsame.key?_eq.symm.trans hkey
    rw [exec_index hposition, Eval.valueAt,
      Assoc.find?_insertAll_of_last (notMem_keys hafter hposition hother)]
  · exact hnone hposition fun pair hpair hsame => hkinds pair hpair hsame.kind?_eq
  · exact Assoc.nodup_keys_insertAll List.nodup_nil
  · intro entry hentry
    obtain ⟨before, after, rfl, hlast⟩ := Assoc.last_of_mem_insertAll hentry
    refine ⟨before, after, rfl, fun pair hpair hsame => hlast ?_⟩
    have hkey := (sameKey_iff (hown entry hentry)).1 hsame
    have hpairKey := h pair (by simp [hpair])
    exact List.mem_map.2 ⟨pair, hpair, Option.some.inj (hpairKey.symm.trans hkey)⟩

/-- **The last pair with a key wins, in the place of the first.** -/
theorem hash_literal_last_wins (h : PairsTo call frame pairs store found last) (token : Token) :
    ∃ id entries,
      ((Node.hash token pairs).eval call frame).exec store =
        (.ok (.hash id entries), last.allocate.2) ∧
      LastWins found entries ∧
      (Value.hash id entries).display = "\x7b" ++ ", ".intercalate (entries.map fun entry =>
        entry.2.1.display ++ ": " ++ entry.2.2.display) ++ "\x7d" :=
  ⟨_, _, eval_hash h token, lastWins_insertAll h.key?, display_hash _ _⟩

/-- A literal in which a key is named twice, and keys of every kind. -/
theorem hash_literal_last_wins_repeated :
    let integer := fun n : Int => Node.integer ⟨.int, toString n⟩ n
    let pairs := [(Node.string ⟨.string, "a"⟩ "a", integer 1), (integer 1, integer 2),
      (Node.boolean ⟨.true, "true"⟩ true, integer 3),
      (Node.string ⟨.string, "a"⟩ "a", integer 4)]
    let found := [(.string "a", .string 0 "a", .integer 1), (.integer 1, .integer 1, .integer 2),
      (.boolean true, .boolean true, .integer 3), (.string "a", .string 1 "a", .integer 4)]
    let last := Store.initial.allocate.2.allocate.2
    PairsTo MonkeyLang.call Store.global pairs .initial found last ∧ ∃ id entries,
      ((Node.hash ⟨.lbrace, "\x7b"⟩ pairs).eval MonkeyLang.call Store.global).exec .initial =
        (.ok (.hash id entries), last.allocate.2) ∧
      LastWins found entries ∧
      (Value.hash id entries).display = "\x7b" ++ ", ".intercalate (entries.map fun entry =>
        entry.2.1.display ++ ": " ++ entry.2.2.display) ++ "\x7d" := by
  intro integer pairs found last
  have h : PairsTo MonkeyLang.call Store.global pairs .initial found last :=
    .cons rfl rfl rfl rfl <| .cons rfl rfl rfl rfl <| .cons rfl rfl rfl rfl <|
      .cons rfl rfl rfl rfl <| .nil _
  exact ⟨h, hash_literal_last_wins h _⟩

end MonkeyLang
