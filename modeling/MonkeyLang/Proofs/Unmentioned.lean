import MonkeyLang.Proofs.Session
import MonkeyLang.Syntax.Equality

/-!
# Names that are not mentioned

A program can come upon the frames that are reachable from its own: those around it, and those in
which the functions were made that are bound in reachable frames (`Store.Reaches`).  If neither the
program nor one of these functions mentions a name, it does not matter whether the name is bound,
and to what.

The evaluations with and without the binding are in lockstep in the view `View.without`, in which
the reachable frames are seen and the name is hidden; no frame and no object gets another number.
`unmentioned_irrelevant` is the main statement.  It makes no difference whether the name is that of
a builtin function.
-/

namespace MonkeyLang

namespace Store

/-- No function that can be reached from a frame has the name as a parameter or in its body. -/
def Omits (store : Store) (frame : FrameId) (name : String) : Prop :=
  ∀ f, store.Reaches frame f → ∀ binding ∈ store.bindings f, ∀ id parameters body scope,
    (Value.function id parameters body scope).IsPart binding.2 →
      (∀ parameter ∈ parameters, parameter.name ≠ name) ∧ name ∉ body.names

/-- The stores have the same frames, with the same bindings of all names but one. -/
structure SameButFor (name : String) (s t : Store) : Prop where
  size_eq : t.frames.size = s.frames.size
  outer_eq : ∀ frame, t.outer? frame = s.outer? frame
  binding_eq : ∀ frame other, other ≠ name → t.binding? frame other = s.binding? frame other

end Store

/-- The view of what can be reached from a frame, in which one name is hidden. -/
def View.without (store : Store) (frame : FrameId) (name : String) : View where
  toRenaming := .identity
  seen f := store.Reaches frame f ∨ store.frames.size ≤ f
  hidden other := other == name
  frame_lt h := h
  object_injective _ _ h := h

section Without

variable {store : Store} {frame : FrameId} {name : String}

theorem Node.avoids_of_notMem {node : Node} (h : name ∉ node.names) :
    node.Avoids fun other => other == name := by
  intro other hother
  refine beq_eq_false_iff_ne.2 ?_
  rintro rfl
  exact h hother

namespace View

theorem without_map_move (value? : Option Value) :
    value?.map (without store frame name).move = value? := by
  cases value? with
  | none => rfl
  | some value => exact congrArg some (Value.rename_identity value)

/-- Whether the hidden name is bound in a frame cannot be seen. -/
theorem without_matches (h : store.IsSound) (hframe : frame < store.frames.size)
    (homits : store.Omits frame name) (value : Value) :
    (without store frame name).Matches store (store.bind frame name value) := by
  constructor
  · exact fun k => ⟨.inr (Nat.le_add_right _ k), by rw [Store.size_bind]; rfl⟩
  · exact fun k => rfl
  · intro f _
    rw [Store.outer?_bind]
    cases hf : store.outer? f <;> exact hf
  · intro f outer hf houter
    obtain ⟨-, hlt⟩ := h.closed.outward f outer trivial houter
    refine ⟨?_, hlt⟩
    rcases hf with hreached | hnew
    · exact .inl (hreached.outer houter)
    · rw [Store.outer?_eq_none hnew] at houter
      cases houter
  · intro f other _ hother
    have hne : name ≠ other := (beq_eq_false_iff_ne.1 hother).symm
    rw [without_map_move, Store.binding?_bind store name hframe, if_neg fun hboth => hne hboth.2]
    rfl
  · intro f other v hf _ hv
    rcases hf with hreached | hnew
    · have hbinding := Assoc.mem_of_find? hv
      have hclosed := h.closed.known f other v trivial rfl hv
      intro part hpart
      have hadmits := hclosed part hpart
      cases part with
      | function id parameters body scope =>
        obtain ⟨hparameters, hbody⟩ := homits f hreached _ hbinding id parameters body scope hpart
        refine ⟨⟨hadmits.1.lt, .inl (hreached.scope hbinding hpart)⟩, ?_, ?_⟩
        · exact fun parameter hmem => beq_eq_false_iff_ne.2 (hparameters parameter hmem)
        · exact Node.avoids_of_notMem hbody
      | _ => trivial
    · rw [Store.binding?_eq_none hnew] at hv
      cases hv

theorem Alike.eq {n : Nat} {end₁ end₂ : Except Fault Value}
    (h : Alike ((without store frame name).Same n) end₁ end₂) : end₂ = end₁ := by
  cases h with
  | fault fault => rfl
  | results hsame => exact congrArg Except.ok (hsame.eq.trans (Value.rename_identity _))

end View

end Without

/-- **Bindings that are not mentioned are irrelevant.**  Let neither a program nor a function that
can be reached from a frame of a session mention a name.  Then the evaluation of the program in the
frame comes to the same end, prints the same lines and leaves the same bindings of other names if
the name is bound to a value before. -/
theorem unmentioned_irrelevant (depth : Nat) {text : List Char} {name : String}
    (hprogram : name ∉ (parse text).program.names) {store : Store} (hstore : store.InSession)
    {frame : FrameId} (hframe : frame < store.frames.size) (homits : store.Omits frame name)
    (value : Value) :
    let run := ((parse text).program.eval (callWithin depth) frame).exec
    (run (store.bind frame name value)).1 = (run store).1 ∧
      (run (store.bind frame name value)).2.output = (run store).2.output ∧
      Store.SameButFor name (run store).2 (run (store.bind frame name value)).2 := by
  intro run
  have hwrites : ∀ s : Store, s.Extends {frame} (run s).2 :=
    Node.eval_writes (callWithin_writes depth) frame (parse text).program
  obtain ⟨-, -, hstores, ⟨lines, hlines, hlines'⟩, hresults⟩ :=
    Node.eval_lockstep (callWithin_lockstep (.without store frame name) depth)
      ⟨hframe, .inl .self⟩ (parse text).program (Node.avoids_of_notMem hprogram) store _ rfl
      (View.without_matches hstore.isSound hframe homits value)
  -- frames that cannot be reached are as they were, with and without the binding
  have hunseen : ∀ f, ¬ (View.without store frame name).seen f →
      (run (store.bind frame name value)).2.frames[f]? = (run store).2.frames[f]? := by
    intro f hf
    have hlt : f < store.frames.size := Nat.lt_of_not_le fun hle => hf (.inr hle)
    have hne : f ∉ ({frame} : Set FrameId) := by
      rintro rfl
      exact hf (.inl .self)
    rw [(hwrites _).frame_eq f (by rwa [Store.size_bind]) hne, (hwrites _).frame_eq f hlt hne,
      (store.extends_bind frame name value).frame_eq f hlt hne]
  refine ⟨hresults.eq, hlines'.trans hlines.symm, ?_⟩
  constructor
  · exact hstores.frame_size.symm
  · intro f
    by_cases hf : (View.without store frame name).seen f
    · have houter := hstores.outer f hf
      rwa [show (View.without store frame name).frame = id from rfl, Option.map_id] at houter
    · exact Store.outer?_congr (hunseen f hf)
  · intro f other hother
    by_cases hf : (View.without store frame name).seen f
    · have hbinding := hstores.binding f other hf (beq_eq_false_iff_ne.2 hother)
      rwa [View.without_map_move] at hbinding
    · exact Store.binding?_congr (hunseen f hf) other

/-- A function is bound, and the name of a builtin function that it does not mention. -/
theorem unmentioned_irrelevant_builtin :
    let store := (((parse "let f = fn(x) \x7b x \x7d".toList).program.eval
      (callWithin maxCallDepth) Store.global).exec .initial).2
    let run := ((parse "f(1)".toList).program.eval (callWithin maxCallDepth) Store.global).exec
    Builtin.ofName? "len" = some .len ∧ "len" ∉ (parse "f(1)".toList).program.names ∧
      store.InSession ∧ Store.global < store.frames.size ∧ store.Omits Store.global "len" ∧
      (run (store.bind Store.global "len" .null)).1 = (run store).1 ∧
      (run (store.bind Store.global "len" .null)).2.output = (run store).2.output ∧
      Store.SameButFor "len" (run store).2 (run (store.bind Store.global "len" .null)).2 := by
  intro store run
  let body : Node := .block (.sign .lbrace)
    [.expressionStatement ⟨.ident, "x"⟩ (.identifier (.ofName "x"))]
  have hparse : (parse "let f = fn(x) \x7b x \x7d".toList).program = .program
      [.letStatement (.sign .let) (.ofName "f")
        (.function (.sign .function) [.ofName "x"] body)] := by
    decide +kernel
  have hprogram : "len" ∉ (parse "f(1)".toList).program.names := by decide +kernel
  have hbindings : store.bindings Store.global =
      [("f", .function 0 [.ofName "x"] body Store.global)] := by
    simp only [store, hparse]
    rfl
  have houter : store.outer? Store.global = none := by
    simp only [store, hparse]
    rfl
  -- the only function was made in the only frame
  have hpart : ∀ binding ∈ store.bindings Store.global, ∀ id parameters node scope,
      (Value.function id parameters node scope).IsPart binding.2 →
        parameters = [.ofName "x"] ∧ node = body ∧ scope = Store.global := by
    intro binding hbinding id parameters node scope hpart
    rw [hbindings, List.mem_singleton] at hbinding
    subst hbinding
    cases hpart with
    | self => exact ⟨rfl, rfl, rfl⟩
    | inside hcomponent => cases hcomponent
  have hreaches : ∀ f, store.Reaches Store.global f → f = Store.global := by
    intro f hf
    induction hf with
    | self => rfl
    | outer _ h ih =>
      rw [ih, houter] at h
      cases h
    | scope _ hbinding h ih => exact (hpart _ (ih ▸ hbinding) _ _ _ _ h).2.2
  have homits : store.Omits Store.global "len" := by
    intro f hf binding hbinding id parameters node scope h
    obtain ⟨rfl, rfl, -⟩ := hpart binding (hreaches f hf ▸ hbinding) id parameters node scope h
    exact ⟨by decide, by decide⟩
  have hstore : store.InSession :=
    .evaluate .initial Store.InSession.initial.global_lt maxCallDepth _
  exact ⟨rfl, hprogram, hstore, hstore.global_lt, homits,
    unmentioned_irrelevant maxCallDepth hprogram hstore hstore.global_lt homits .null⟩

end MonkeyLang
