import MonkeyLang.Proofs.View

/-!
# Frames inside frames

The frames that are made one inside another form a tree with the global frame as its root.  Outwards
from a frame there are finitely many others, no two of them the same.  The order of making is what
carries this: a frame is newer than the frame around it (`Store.IsRooted`).

* `Store.Grown` collects the stores that a global frame grows into;
* `Store.Outwards` is the path from a frame to the root, told without the order of making.
  `Store.outwards_iff` says that `Store.chain` is this path, so that looking a name up and telling
  the depth of a frame both go all the way, and come to an end;
* `Store.nearest?` is the frame in which a name is found.  Binding a name in a frame changes what is
  found from exactly those frames from which that frame is the nearest (`Store.lookup_bind`);
* `scopes_form_tree` puts both together.
-/

namespace MonkeyLang

namespace Store

/-! ### Stores that grow -/

/-- The stores that a global frame grows into: frames are made inside of those that there are, and
names are bound in them. -/
inductive Grown : Store → Prop
  | initial : Grown .initial
  | enclose {store : Store} (h : store.Grown) {frame : FrameId}
      (hframe : frame < store.frames.size) : Grown (store.enclose frame).2
  | bind {store : Store} (h : store.Grown) {frame : FrameId} (hframe : frame < store.frames.size)
      (name : String) (value : Value) : Grown (store.bind frame name value)

/-- Each frame but the global one is inside an older one. -/
structure IsRooted (store : Store) : Prop where
  global_lt : global < store.frames.size
  outer?_global : store.outer? global = none
  exists_outer : ∀ frame < store.frames.size, frame ≠ global →
    ∃ outer < frame, store.outer? frame = some outer

theorem isRooted_initial : initial.IsRooted where
  global_lt := Nat.zero_lt_one
  outer?_global := rfl
  exists_outer _ hlt hne := absurd (Nat.lt_one_iff.1 hlt) hne

namespace IsRooted

variable {store : Store} {frame outer : FrameId}

theorem outer_lt (h : store.IsRooted) (houter : store.outer? frame = some outer) :
    outer < frame := by
  by_cases hlt : frame < store.frames.size
  · by_cases hglobal : frame = global
    · rw [hglobal, h.outer?_global] at houter
      cases houter
    · obtain ⟨older, hlt, holder⟩ := h.exists_outer frame hlt hglobal
      obtain rfl : older = outer := Option.some.inj (holder.symm.trans houter)
      exact hlt
  · rw [outer?_eq_none (Nat.le_of_not_lt hlt)] at houter
    cases houter

theorem enclose (h : store.IsRooted) (hframe : frame < store.frames.size) :
    (store.enclose frame).2.IsRooted where
  global_lt := by
    rw [size_enclose]
    exact Nat.lt_succ_of_lt h.global_lt
  outer?_global := by
    rw [outer?_enclose, if_neg (Nat.ne_of_lt h.global_lt), h.outer?_global]
  exists_outer f hlt hne := by
    rw [size_enclose] at hlt
    rw [outer?_enclose]
    split
    · next hnew => exact ⟨frame, hnew ▸ hframe, rfl⟩
    · next hold =>
      exact h.exists_outer f (Nat.lt_of_le_of_ne (Nat.le_of_lt_succ hlt) hold) hne

theorem bind (h : store.IsRooted) (frame : FrameId) (name : String) (value : Value) :
    (store.bind frame name value).IsRooted where
  global_lt := by
    rw [size_bind]
    exact h.global_lt
  outer?_global := by rw [outer?_bind, h.outer?_global]
  exists_outer f hlt hne := by
    rw [size_bind] at hlt
    rw [outer?_bind]
    exact h.exists_outer f hlt hne

end IsRooted

theorem Grown.isRooted {store : Store} (h : store.Grown) : store.IsRooted := by
  induction h with
  | initial => exact isRooted_initial
  | enclose _ hframe ih => exact ih.enclose hframe
  | bind _ _ name value ih => exact ih.bind _ name value

/-! ### Paths to the root -/

/-- The frames from a frame outwards, up to one that is in no other. -/
inductive Outwards (store : Store) : FrameId → List FrameId → Prop
  | outermost {frame : FrameId} (h : store.outer? frame = none) : Outwards store frame [frame]
  | inside {frame outer : FrameId} {frames : List FrameId} (h : store.outer? frame = some outer)
      (hframes : Outwards store outer frames) : Outwards store frame (frame :: frames)

section

variable {store : Store} {frame : FrameId} {frames : List FrameId}

theorem IsRooted.outwards_chain (h : store.IsRooted) (frame : FrameId) :
    store.Outwards frame (store.chain frame) := by
  induction frame using Nat.strongRecOn with
  | ind frame ih =>
    rw [chain]
    cases houter : store.outer? frame with
    | none => exact .outermost houter
    | some outer =>
      have hlt := h.outer_lt houter
      simp only [hlt, if_true]
      exact .inside houter (ih outer hlt)

theorem Outwards.chain_eq (h : store.IsRooted) (hframes : store.Outwards frame frames) :
    store.chain frame = frames := by
  induction hframes with
  | outermost hnone =>
    rw [chain, hnone]
  | inside houter _ ih =>
    rw [chain, houter]
    simp only [h.outer_lt houter, if_true, ih]

/-- There is one path outwards from each frame, and it is the chain. -/
theorem outwards_iff (h : store.IsRooted) :
    store.Outwards frame frames ↔ store.chain frame = frames :=
  ⟨fun hframes => hframes.chain_eq h, fun hchain => hchain ▸ h.outwards_chain frame⟩

theorem Outwards.le_of_mem (h : store.IsRooted) (hframes : store.Outwards frame frames)
    {f : FrameId} (hf : f ∈ frames) : f ≤ frame := by
  induction hframes with
  | outermost _ => exact Nat.le_of_eq (List.mem_singleton.1 hf)
  | inside houter _ ih =>
    rcases List.mem_cons.1 hf with rfl | hf
    · exact Nat.le_refl _
    · exact Nat.le_of_lt (Nat.lt_of_le_of_lt (ih hf) (h.outer_lt houter))

/-- Outwards the frames get older, so that none comes again. -/
theorem Outwards.pairwise (h : store.IsRooted) (hframes : store.Outwards frame frames) :
    frames.Pairwise fun inner outer => outer < inner := by
  induction hframes with
  | outermost _ => exact List.pairwise_singleton _ _
  | inside houter hframes ih =>
    refine .cons (fun f hf => ?_) ih
    exact Nat.lt_of_le_of_lt (hframes.le_of_mem h hf) (h.outer_lt houter)

/-- Every path leads to the root. -/
theorem Outwards.getLast?_eq (h : store.IsRooted) (hframes : store.Outwards frame frames)
    (hframe : frame < store.frames.size) : frames.getLast? = some global := by
  induction hframes with
  | @outermost frame hnone =>
    by_cases hglobal : frame = global
    · rw [hglobal, List.getLast?_singleton]
    · obtain ⟨outer, -, houter⟩ := h.exists_outer frame hframe hglobal
      rw [hnone] at houter
      cases houter
  | inside houter hframes ih =>
    have hlast := ih (Nat.lt_trans (h.outer_lt houter) hframe)
    rw [List.getLast?_cons, hlast, Option.getD_some]

/-- The summary of a frame tells how many frames are around it. -/
theorem Outwards.summary_eq (h : store.IsRooted)
    (hframes : store.Outwards frame (frame :: frames)) :
    ∃ names : List String, names.Perm (Assoc.keys (store.bindings frame)) ∧
      store.summary frame = "<Environment names=[" ++ ", ".intercalate (names.map Text.quoted) ++
        "] depth=" ++ toString frames.length ++ ">" := by
  have hlength : (store.chain frame).length - 1 = frames.length := by
    rw [hframes.chain_eq h, List.length_cons, Nat.add_sub_cancel]
  refine ⟨_, List.mergeSort_perm (Assoc.keys (store.bindings frame)) fun a b => !decide (b < a), ?_⟩
  rw [← hlength]
  rfl

end

/-! ### What is found from a frame -/

/-- The nearest frame outwards in which a name is bound. -/
def nearest? (store : Store) (frame : FrameId) (name : String) : Option FrameId :=
  (store.chain frame).find? fun f => (store.binding? f name).isSome

theorem chain_bind (store : Store) (frame : FrameId) (name : String) (value : Value)
    (f : FrameId) : (store.bind frame name value).chain f = store.chain f := by
  induction f using Nat.strongRecOn with
  | ind f ih =>
    rw [chain, chain, outer?_bind]
    cases store.outer? f with
    | none => rfl
    | some outer =>
      dsimp only
      split
      · next hlt => rw [ih outer hlt]
      · rfl

/-- What is found first on a path after a name was bound in a frame. -/
theorem findSome?_binding?_bind {store : Store} {frame : FrameId}
    (hframe : frame < store.frames.size) (name : String) (value : Value) (frames : List FrameId)
    (m : String) :
    let after := store.bind frame name value
    (frames.findSome? fun f => after.binding? f m) =
      if m = name ∧ (frames.find? fun f => (after.binding? f name).isSome) = some frame then
        some value
      else frames.findSome? fun f => store.binding? f m := by
  intro after
  have hbinding : ∀ f other, after.binding? f other =
      if frame = f ∧ name = other then some value else store.binding? f other :=
    binding?_bind store name hframe value
  by_cases hname : m = name
  · subst hname
    induction frames with
    | nil => simp
    | cons f frames ih =>
      rw [List.findSome?_cons, List.findSome?_cons, List.find?_cons, hbinding]
      by_cases hf : frame = f
      · simp [hf]
      · -- the binding in `f` is as it was, and if there is none, what is found is found further out
        simp only [hf, false_and, if_false]
        cases store.binding? f m with
        | none => simpa using ih
        | some old => simp [Ne.symm hf]
  · have hother : ∀ f, after.binding? f m = store.binding? f m := by
      intro f
      rw [hbinding, if_neg fun hboth => hname hboth.2.symm]
    simp only [hother, hname, false_and, if_false]

/-- **Binding a name** in a frame changes what the name is looked up to from exactly those frames
from which that frame is now the nearest to bind it, and nothing else. -/
theorem lookup_bind {store : Store} {frame : FrameId} (hframe : frame < store.frames.size)
    (name : String) (value : Value) (inner : FrameId) (m : String) :
    (store.bind frame name value).lookup inner m =
      if m = name ∧ (store.bind frame name value).nearest? inner name = some frame then some value
      else store.lookup inner m := by
  have hfound := findSome?_binding?_bind hframe name value (store.chain inner) m
  rw [lookup, nearest?, chain_bind]
  exact hfound

/-- What the frames of a store are like: a tree with the global frame as its root. -/
structure FormsTree (store : Store) : Prop where
  /-- The way outwards neither goes on for ever nor comes back to where it was. -/
  wellFounded : WellFounded fun outer frame => store.outer? frame = some outer
  outwards_iff : ∀ frame frames, store.Outwards frame frames ↔ store.chain frame = frames
  nodup : ∀ frame, (store.chain frame).Nodup
  getLast? : ∀ frame < store.frames.size, (store.chain frame).getLast? = some global
  summary_eq : ∀ frame outers, store.Outwards frame (frame :: outers) →
    ∃ names : List String, names.Perm (Assoc.keys (store.bindings frame)) ∧
      store.summary frame = "<Environment names=[" ++ ", ".intercalate (names.map Text.quoted) ++
        "] depth=" ++ toString outers.length ++ ">"

theorem IsRooted.formsTree {store : Store} (h : store.IsRooted) : store.FormsTree where
  wellFounded := Subrelation.wf h.outer_lt Nat.lt_wfRel.wf
  outwards_iff _ _ := Store.outwards_iff h
  nodup frame := ((h.outwards_chain frame).pairwise h).imp Nat.ne_of_gt
  getLast? frame hframe := (h.outwards_chain frame).getLast?_eq h hframe
  summary_eq _ _ houters := houters.summary_eq h

end Store

/-- **Scopes form a tree.**  However frames are made inside frames and names are bound in them,
outwards from every frame there is one path of finitely many different frames, to the global one.
Binding a name in a frame gives it that value from all frames for which that frame is then the
nearest to bind it; from all other frames, and for all other names, nothing changes. -/
theorem scopes_form_tree {store : Store} (h : store.Grown) :
    store.FormsTree ∧
      ∀ frame < store.frames.size, ∀ name value,
        let after := store.bind frame name value
        ∀ inner m, after.lookup inner m =
          if m = name ∧ after.nearest? inner name = some frame then some value
          else store.lookup inner m :=
  ⟨h.isRooted.formsTree, fun _ hframe name value => Store.lookup_bind hframe name value⟩

/-- A name that is bound in the global frame and in the innermost of two others is bound in the one
between them: that is seen from there, but neither from inside, where the name is hidden, nor from a
fourth frame beside them. -/
theorem scopes_form_tree_between :
    let nested := (((Store.initial.enclose 0).2.enclose 1).2.enclose 0).2
    let store := (nested.bind 0 "x" (.integer 0)).bind 2 "x" (.integer 2)
    let after := store.bind 1 "x" (.integer 1)
    store.Grown ∧ store.FormsTree ∧ store.Outwards 2 [2, 1, 0] ∧ 1 < store.frames.size ∧
      after.lookup 1 "x" = some (.integer 1) ∧ after.lookup 2 "x" = store.lookup 2 "x" ∧
      after.lookup 3 "x" = store.lookup 3 "x" ∧ after.lookup 1 "y" = store.lookup 1 "y" := by
  intro nested store after
  have hnested : nested.Grown :=
    ((Store.Grown.initial.enclose (by decide)).enclose (by decide)).enclose (by decide)
  have hgrown : store.Grown :=
    (hnested.bind (by decide) "x" (.integer 0)).bind (by decide) "x" (.integer 2)
  have hframe : 1 < store.frames.size := by decide
  obtain ⟨htree, hbind⟩ := scopes_form_tree hgrown
  have hlookup := hbind 1 hframe "x" (.integer 1)
  have hpath : store.Outwards 2 [2, 1, 0] := .inside rfl (.inside rfl (.outermost rfl))
  have hself : after.nearest? 1 "x" = some 1 := by decide +kernel
  have hinner : after.nearest? 2 "x" ≠ some 1 := by decide +kernel
  have hbeside : after.nearest? 3 "x" ≠ some 1 := by decide +kernel
  exact ⟨hgrown, htree, hpath, hframe, (hlookup 1 "x").trans (if_pos ⟨rfl, hself⟩),
    (hlookup 2 "x").trans (if_neg fun hboth => hinner hboth.2),
    (hlookup 3 "x").trans (if_neg fun hboth => hbeside hboth.2),
    (hlookup 1 "y").trans (if_neg fun hboth => absurd hboth.1 (by decide))⟩

end MonkeyLang
