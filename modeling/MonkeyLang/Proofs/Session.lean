import MonkeyLang.Console.Loop
import MonkeyLang.Proofs.Heap
import MonkeyLang.Proofs.Safety
import MonkeyLang.Proofs.Tandem

/-!
# The stores of a session

In a session texts are evaluated one after another, each in a frame that there is by then, and what
was printed is forgotten in between.  `Store.InSession` collects the stores that this leads to,
whatever the texts are and however deep calls may be nested; those of a console are among them
(`Console.step_inSession`).

Three invariants hold of them (`Store.InSession.isSound`): the store is closed, it fits a heap, and
no value is missing in it.  A store is closed if it matches itself in the view that sees everything:
bound functions were made in frames that there are, and outer frames are older than inner ones.
-/

namespace MonkeyLang

/-- The view that sees everything and changes nothing. -/
def View.full : View where
  toRenaming := .identity
  seen _ := True
  hidden _ := false
  frame_lt h := h
  object_injective _ _ h := h

theorem Node.avoids_none (node : Node) : node.Avoids fun _ => false := fun _ _ => rfl

namespace Store

/-- The stores that the evaluation of texts leads to. -/
inductive InSession : Store → Prop
  | initial : InSession .initial
  | evaluate {store : Store} (h : store.InSession) {frame : FrameId}
      (hframe : frame < store.frames.size) (depth : Nat) (text : List Char) :
      InSession (((parse text).program.eval (callWithin depth) frame).exec store).2
  | forgetOutput {store : Store} (h : store.InSession) : InSession store.forgetOutput

/-- What holds of a store throughout a session. -/
structure IsSound (store : Store) : Prop where
  closed : View.full.Matches store store
  fits : ∃ heap, store.Fits heap
  holds : store.Holds (Value.All Value.IsThere)

theorem isSound_initial : initial.IsSound where
  closed := by
    have hnone : ∀ f, initial.outer? f = none := by
      intro f
      cases f <;> rfl
    have hunbound : ∀ f name, initial.binding? f name = none := by
      intro f name
      cases f <;> rfl
    constructor
    · exact fun k => ⟨trivial, rfl⟩
    · exact fun k => rfl
    · intro f _
      rw [hnone f]
      exact hnone f
    · intro f outer _ h
      rw [hnone f] at h
      cases h
    · intro f name _ _
      rw [hunbound f name]
      exact hunbound f name
    · intro f name value _ _ h
      rw [hunbound f name] at h
      cases h
  fits := ⟨_, initial_fits⟩
  holds := holds_initial _

theorem IsSound.evaluate {store : Store} (h : store.IsSound) {frame : FrameId}
    (hframe : frame < store.frames.size) (depth : Nat) (text : List Char) :
    (((parse text).program.eval (callWithin depth) frame).exec store).2.IsSound where
  closed :=
    (Node.eval_lockstep (callWithin_lockstep .full depth) ⟨hframe, trivial⟩ _
      (Node.avoids_none _) store store rfl h.closed).stores
  fits := by
    obtain ⟨heap, hfits⟩ := h.fits
    obtain ⟨heap', -, hfits', -⟩ :=
      Node.eval_keepsObjects (callWithin_keepsObjects depth) frame heap _ _ hfits
    exact ⟨heap', hfits'⟩
  holds := by
    have hmaintains := (Regime.presence_guards depth frame
      (Regime.presence_suits_parse text)).maintains
    exact Regime.presence_governs_iff.1
      (hmaintains _ (Regime.presence_governs_iff.2 h.holds)).1

/-- Nothing that is known of a store throughout a session depends on what it has printed. -/
theorem IsSound.forgetOutput {store : Store} (h : store.IsSound) : store.forgetOutput.IsSound where
  closed := ⟨h.closed.frames, h.closed.objects, h.closed.outer, h.closed.outward,
    h.closed.binding, h.closed.known⟩
  fits := by
    obtain ⟨heap, hfits⟩ := h.fits
    exact ⟨heap, hfits.holds, hfits.unused⟩
  holds := h.holds

namespace InSession

variable {store : Store}

theorem isSound (h : store.InSession) : store.IsSound := by
  induction h with
  | initial => exact isSound_initial
  | evaluate _ hframe depth text ih => exact ih.evaluate hframe depth text
  | forgetOutput _ ih => exact ih.forgetOutput

/-- The frame for the bindings of a program is there. -/
theorem global_lt (h : store.InSession) : global < store.frames.size := by
  induction h with
  | initial => exact Nat.zero_lt_one
  | evaluate _ _ depth text ih =>
    exact Nat.lt_of_lt_of_le ih (Node.eval_writes (callWithin_writes depth) _ _ _).size_le
  | forgetOutput _ ih => exact ih

end InSession

end Store

/-! ### Consoles -/

/-- A program that is evaluated was read from the text. -/
theorem eq_program_of_readProgram {source : String} {program : Node}
    (h : readProgram source = .ok program) : program = (parse source.toList).program := by
  unfold readProgram read at h
  dsimp only at h
  split at h
  · cases h
  · next parsed hparsed =>
    split at hparsed
    · cases hparsed
    · cases hparsed
      split at h
      · exact (Except.ok.inj h).symm
      · cases h

theorem interpret_inSession {frame : FrameId} {store : Store} (h : store.InSession)
    (hframe : frame < store.frames.size) (depth : Nat) (source : String) :
    (interpret depth frame source store).2.InSession := by
  unfold interpret
  split
  · exact h
  · exact h
  · next program hread =>
    obtain rfl := eq_program_of_readProgram hread
    have hafter : (((parse source.toList).program.eval (callWithin depth) frame).exec
        store).2.InSession := h.evaluate hframe depth source.toList
    split <;> next hend => rwa [hend] at hafter

theorem Host.interpret_inSession (host : Host) {frame : FrameId} {store : Store}
    (h : store.InSession) (hframe : frame < store.frames.size) (source : String) :
    (host.interpret frame source store).2.InSession := by
  unfold Host.interpret
  split
  · exact MonkeyLang.interpret_inSession h hframe _ source
  · exact h

namespace Console

variable {host : Host} {console : Console}

/-- Commands other than `/reset` leave the store alone. -/
theorem obey_store {command : Command} (h : command ≠ .reset) (argument : String) :
    (console.obey host command argument).2.store = console.store := by
  cases command with
  | traceback | tree =>
    rw [obey]
    split <;> rfl
  | clear => rfl
  | reset => exact absurd rfl h

theorem conclude_after (shown : String) (outcome : Outcome) :
    (console.conclude host shown outcome).after = console := by
  cases outcome with
  | refused refusal | malformed diagnostics => rfl
  | faulted fault =>
    rw [conclude]
    split <;> rfl
  | value value =>
    rw [conclude]
    split <;> rfl

/-- What an entry leaves if its tree can be shown. -/
theorem evaluate_store_of_tree {source tree : String}
    (htree : console.treeText host source = .ok tree) :
    (console.evaluate host source).after.store =
      (host.interpret Store.global source console.store.forgetOutput).2.forgetOutput := by
  simp only [evaluate, htree, conclude_after]

theorem evaluate_store (source : String) :
    (console.evaluate host source).after.store = console.store ∨
      (console.evaluate host source).after.store =
        (host.interpret Store.global source console.store.forgetOutput).2.forgetOutput := by
  cases htree : console.treeText host source with
  | error breakdown =>
    rw [evaluate, htree]
    exact .inl rfl
  | ok tree => exact .inr (evaluate_store_of_tree htree)

/-- All that can become of the store at the prompt: it stays, it is reset, or a text is interpreted
on it and what was printed is forgotten. -/
theorem step_store (host : Host) (console : Console) (event : Event) :
    (console.step host event).after.store = console.store ∨
      (console.step host event).after.store = .initial ∨
      ∃ source, (console.step host event).after.store =
        (host.interpret Store.global source console.store.forgetOutput).2.forgetOutput := by
  cases event with
  | interrupted => exact .inl rfl
  | submitted text =>
    rw [step, submit]
    dsimp only
    split
    · exact .inl rfl
    · split
      · rw [obeyWord]
        dsimp only
        split
        · next command _ =>
          rcases eq_or_ne command .reset with rfl | hother
          · exact .inr (.inl rfl)
          · exact .inl (obey_store hother _)
        · exact .inl rfl
      · exact (evaluate_store _).imp_right fun h => .inr ⟨_, h⟩

/-- Whatever happens at the prompt, the store remains one of a session. -/
theorem step_inSession (h : console.store.InSession) (event : Event) :
    (console.step host event).after.store.InSession := by
  rcases step_store host console event with hkept | hreset | ⟨source, heval⟩
  · rwa [hkept]
  · rw [hreset]
    exact .initial
  · rw [heval]
    exact (host.interpret_inSession h.forgetOutput h.forgetOutput.global_lt source).forgetOutput

end Console

end MonkeyLang
