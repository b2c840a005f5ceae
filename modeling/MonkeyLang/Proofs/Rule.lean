import Mathlib.Tactic.Common
import MonkeyLang.Grammar.Rule

/-!
# Reasoning about grammar rules

Four notions in which the behaviour of a rule is stated, each with one lemma for every way in which
rules are put together.

* `Reads rule ts a us`: from `ts` the rule reads `a` without a diagnostic and leaves `us`;
* `Gives rule ts post`: a result that the rule gives at `ts` satisfies `post`, whatever diagnostics
  were recorded;
* `Completes rule ts post`: unless the rule records a diagnostic at `ts`, it gives a result, and
  that satisfies `post`;
* `Leaves rule`: the tokens that the rule leaves, even when it is abandoned, are the end of those it
  was given.

The loops `many` and `iterate` are described by the relations `Collects` and `Iterates`, in which
every round uses up a token, so that the bound on the number of rounds does not matter.
-/

namespace MonkeyLang.Rule

variable {α β : Type} {rule : Rule α} {cont : α → Rule β} {ts us vs : List Token}

/-! ### Results without diagnostics -/

/-- The rule reads `a` from `ts` without a diagnostic and leaves `us`. -/
def Reads (rule : Rule α) (ts : List Token) (a : α) (us : List Token) : Prop :=
  rule ts = ⟨some a, [], us⟩

theorem Reads.rest_eq {a : α} (h : Reads rule ts a us) : (rule ts).rest = us := by
  rw [show rule ts = _ from h]

theorem bind_reads {b : β} :
    Reads (rule >>= cont) ts b us ↔ ∃ a vs, Reads rule ts a vs ∧ Reads (cont a) vs b us := by
  unfold Reads
  constructor
  · intro h
    cases hv : (rule ts).value with
    | none => simp [bind_apply_of_none hv] at h
    | some a =>
      rw [bind_apply_of_some hv] at h
      simp only [Reading.mk.injEq, List.append_eq_nil_iff] at h
      obtain ⟨hb, ⟨hd, hd'⟩, hus⟩ := h
      refine ⟨a, (rule ts).rest, ?_, ?_⟩
      · rw [← hv, ← hd]
      · rw [← hb, ← hd', ← hus]
  · rintro ⟨a, vs, h, h'⟩
    rw [bind_apply_of_some (by rw [h] : (rule ts).value = some a), h, h']
    rfl

/-- A rule goes on where the one before it stopped. -/
theorem Reads.bind {a : α} {b : β} (h : Reads rule ts a vs) (h' : Reads (cont a) vs b us) :
    Reads (rule >>= cont) ts b us :=
  bind_reads.2 ⟨a, vs, h, h'⟩

theorem pure_reads {a : α} : Reads (pure a) ts a ts := rfl

theorem current_reads : Reads current ts (currentOf ts) ts := rfl

theorem next_reads : Reads Rule.next ts (nextOf ts) ts := rfl

theorem advance_reads : Reads advance ts () ts.tail := rfl

theorem expect_reads {kind : TokenKind} (h : (nextOf ts).kind = kind) :
    Reads (expect kind) ts () ts.tail := by
  simp [Reads, expect, h, advance]

theorem skip_reads {kind : TokenKind} (h : (nextOf ts).kind = kind) :
    Reads (skip kind) ts () ts.tail := by
  simp [Reads, skip, h, advance]

theorem skip_reads_of_ne {kind : TokenKind} (h : (nextOf ts).kind ≠ kind) :
    Reads (skip kind) ts () ts := by
  simp [Reads, skip, h, Rule.pure]

theorem Reads.attempt {a : α} (h : Reads rule ts a us) :
    Reads (attempt rule) ts (some a) us := by
  simp [Reads, Rule.attempt, show rule ts = _ from h]

theorem ofOption_reads {a : α} : Reads (ofOption (some a)) ts a ts := rfl

/-! ### Results whatever the diagnostics -/

/-- A result that the rule gives at `ts` satisfies `post`, together with the tokens left. -/
def Gives (rule : Rule α) (ts : List Token) (post : α → List Token → Prop) : Prop :=
  ∀ a, (rule ts).value = some a → post a (rule ts).rest

variable {post post' : α → List Token → Prop} {post₂ : β → List Token → Prop}

theorem Gives.mono (h : Gives rule ts post) (hpost : ∀ a us, post a us → post' a us) :
    Gives rule ts post' :=
  fun a ha => hpost a _ (h a ha)

theorem gives_bind :
    Gives (rule >>= cont) ts post₂ ↔ Gives rule ts fun a us => Gives (cont a) us post₂ := by
  unfold Gives
  cases hv : (rule ts).value with
  | none => simp [bind_apply_of_none hv]
  | some a => simp [bind_apply_of_some hv]

theorem gives_pure {a : α} : Gives (pure a) ts post ↔ post a ts := by
  simp [Gives]

theorem gives_current {post : Token → List Token → Prop} :
    Gives current ts post ↔ post (currentOf ts) ts := by
  simp [Gives, current]

theorem gives_next {post : Token → List Token → Prop} :
    Gives Rule.next ts post ↔ post (nextOf ts) ts := by
  simp [Gives, Rule.next]

theorem gives_advance {post : Unit → List Token → Prop} :
    Gives advance ts post ↔ post () ts.tail :=
  ⟨fun h => h () rfl, fun h _ _ => h⟩

theorem gives_expect {kind : TokenKind} {post : Unit → List Token → Prop} :
    Gives (expect kind) ts post ↔ ((nextOf ts).kind = kind → post () ts.tail) := by
  unfold Gives expect
  split
  · next h => exact ⟨fun hpost _ => hpost () rfl, fun hpost _ _ => hpost h⟩
  · next h => simp [reject, h]

theorem gives_skip {kind : TokenKind} {post : Unit → List Token → Prop} :
    Gives (skip kind) ts post ↔
      ((nextOf ts).kind = kind → post () ts.tail) ∧ ((nextOf ts).kind ≠ kind → post () ts) := by
  unfold Gives skip
  split
  · next h => exact ⟨fun hpost => ⟨fun _ => hpost () rfl, (absurd h ·)⟩, fun hpost _ _ => hpost.1 h⟩
  · next h => exact ⟨fun hpost => ⟨(absurd · h), fun _ => hpost () rfl⟩, fun hpost _ _ => hpost.2 h⟩

theorem gives_attempt {post : Option α → List Token → Prop} :
    Gives (attempt rule) ts post ↔ post (rule ts).value (rule ts).rest := by
  simp [Gives, attempt]

theorem gives_ofOption {v : Option α} :
    Gives (ofOption v) ts post ↔ ∀ a, v = some a → post a ts := by
  cases v <;> simp [Gives, ofOption, fail]

theorem gives_reject {diagnostic : Diagnostic} : Gives (reject diagnostic) ts post := by
  simp [Gives, reject]

theorem gives_ite {c : Prop} [Decidable c] {rule' : Rule α} :
    Gives (if c then rule else rule') ts post ↔
      (c → Gives rule ts post) ∧ (¬ c → Gives rule' ts post) := by
  split <;> simp_all

/-! ### Results in the absence of diagnostics -/

/-- Unless the rule records a diagnostic at `ts`, it gives a result, and that satisfies `post`. -/
def Completes (rule : Rule α) (ts : List Token) (post : α → List Token → Prop) : Prop :=
  (rule ts).diagnostics = [] → ∃ a us, Reads rule ts a us ∧ post a us

theorem Completes.mono (h : Completes rule ts post) (hpost : ∀ a us, post a us → post' a us) :
    Completes rule ts post' := by
  intro hd
  obtain ⟨a, us, hr, ha⟩ := h hd
  exact ⟨a, us, hr, hpost a us ha⟩

/-- A rule that reads what it is to read completes. -/
theorem Reads.completes {a : α} (h : Reads rule ts a us) (hpost : post a us) :
    Completes rule ts post :=
  fun _ => ⟨a, us, h, hpost⟩

theorem Completes.bind (h : Completes rule ts fun a us => Completes (cont a) us post₂) :
    Completes (rule >>= cont) ts post₂ := by
  intro hd
  cases hv : (rule ts).value with
  | none =>
    -- a rule that was abandoned without a diagnostic would not have completed
    rw [bind_apply_of_none hv] at hd
    obtain ⟨a, us, hr, -⟩ := h hd
    simp [show rule ts = _ from hr] at hv
  | some a =>
    rw [bind_apply_of_some hv, List.append_eq_nil_iff] at hd
    obtain ⟨a', us, hr, hcont⟩ := h hd.1
    obtain rfl : a' = a := by simpa [show rule ts = _ from hr] using hv
    obtain ⟨b, vs, hb, hpost⟩ := hcont (hr.rest_eq ▸ hd.2)
    exact ⟨b, vs, hr.bind hb, hpost⟩

theorem completes_pure {a : α} (h : post a ts) : Completes (pure a) ts post :=
  pure_reads.completes h

theorem completes_expect {kind : TokenKind} {post : Unit → List Token → Prop}
    (h : (nextOf ts).kind = kind → post () ts.tail) : Completes (expect kind) ts post := by
  intro hd
  by_cases hk : (nextOf ts).kind = kind
  · exact ⟨(), ts.tail, expect_reads hk, h hk⟩
  · simp [expect, hk, reject] at hd

theorem completes_skip {kind : TokenKind} {post : Unit → List Token → Prop}
    (h : (nextOf ts).kind = kind → post () ts.tail)
    (h' : (nextOf ts).kind ≠ kind → post () ts) : Completes (skip kind) ts post := by
  by_cases hk : (nextOf ts).kind = kind
  · exact (skip_reads hk).completes (h hk)
  · exact (skip_reads_of_ne hk).completes (h' hk)

theorem Completes.attempt {post : Option α → List Token → Prop}
    (h : Completes rule ts fun a us => post (some a) us) : Completes (attempt rule) ts post := by
  intro hd
  obtain ⟨a, us, hr, ha⟩ := h hd
  exact ⟨some a, us, hr.attempt, ha⟩

theorem completes_reject {diagnostic : Diagnostic} : Completes (reject diagnostic) ts post := by
  intro hd
  simp [reject] at hd

/-! ### Tokens left -/

/-- Whatever becomes of the rule, the tokens it leaves are the end of those it was given. -/
def Leaves (rule : Rule α) : Prop :=
  ∀ ts, (rule ts).rest <:+ ts

theorem Reads.suffix {a : α} (h : Reads rule ts a us) (hrule : Leaves rule) : us <:+ ts := by
  have hsuffix := hrule ts
  rwa [h.rest_eq] at hsuffix

namespace Leaves

theorem bind (h : Leaves rule) (h' : ∀ a, Leaves (cont a)) : Leaves (rule >>= cont) := by
  intro ts
  cases hv : (rule ts).value with
  | none =>
    rw [bind_apply_of_none hv]
    exact h ts
  | some a =>
    rw [bind_apply_of_some hv]
    exact (h' a _).trans (h ts)

theorem pure (a : α) : Leaves (pure a) := fun _ => List.suffix_rfl

theorem current : Leaves current := fun _ => List.suffix_rfl

theorem next : Leaves Rule.next := fun _ => List.suffix_rfl

theorem advance : Leaves advance := fun ts => List.tail_suffix ts

theorem expect (kind : TokenKind) : Leaves (expect kind) := by
  intro ts
  unfold Rule.expect
  split
  · exact advance ts
  · exact List.suffix_rfl

theorem skip (kind : TokenKind) : Leaves (skip kind) := by
  intro ts
  unfold Rule.skip
  split
  · exact advance ts
  · exact List.suffix_rfl

theorem attempt (h : Leaves rule) : Leaves (attempt rule) := h

theorem ofOption (v : Option α) : Leaves (ofOption v) := by
  cases v <;> exact fun _ => List.suffix_rfl

theorem reject (diagnostic : Diagnostic) : Leaves (reject diagnostic : Rule α) :=
  fun _ => List.suffix_rfl

theorem ite {c : Prop} [Decidable c] {rule' : Rule α} (h : Leaves rule) (h' : Leaves rule') :
    Leaves (if c then rule else rule') := by
  split <;> assumption

theorem manyWithin (more : List Token → Bool) (h : Leaves rule) (rounds : Nat) :
    Leaves (manyWithin more rule rounds) := by
  induction rounds with
  | zero => exact pure []
  | succ rounds ih =>
    intro ts
    unfold Rule.manyWithin
    split
    · exact h.bind (fun _ => ih.bind fun _ => pure _) ts
    · exact List.suffix_rfl

theorem many (more : List Token → Bool) (h : Leaves rule) : Leaves (many more rule) :=
  fun ts => h.manyWithin more _ ts

theorem iterateWithin {step : α → Rule α} (more : List Token → Bool) (h : ∀ a, Leaves (step a))
    (rounds : Nat) (a : α) : Leaves (iterateWithin more step rounds a) := by
  induction rounds generalizing a with
  | zero => exact pure a
  | succ rounds ih =>
    intro ts
    unfold Rule.iterateWithin
    split
    · exact (h a).bind ih ts
    · exact List.suffix_rfl

theorem iterate {step : α → Rule α} (more : List Token → Bool) (h : ∀ a, Leaves (step a))
    (a : α) : Leaves (iterate more step a) :=
  fun ts => iterateWithin more h _ a ts

end Leaves

/-! ### What loops give

What every round gives, the loop gives for all rounds, at however many rounds it is cut off. -/

theorem Gives.manyWithin {more : List Token → Bool} {P : α → Prop} (hl : Leaves rule)
    (h : ∀ us, us <:+ ts → more us → Gives rule us fun a _ => P a) (rounds : Nat) :
    Gives (manyWithin more rule rounds) ts fun as _ => ∀ a ∈ as, P a := by
  induction rounds generalizing ts with
  | zero => simp [Rule.manyWithin, gives_pure]
  | succ rounds ih =>
    unfold Rule.manyWithin
    by_cases hmore : more ts
    · have hround : Gives (do
          let a ← rule
          let as ← Rule.manyWithin more rule rounds
          Pure.pure (a :: as) : Rule (List α)) ts fun as _ => ∀ a ∈ as, P a := by
        simp only [gives_bind, gives_pure]
        intro a ha as has
        have hrest := ih (fun us hus => h us (hus.trans (hl ts))) as has
        simpa using ⟨h ts List.suffix_rfl hmore a ha, hrest⟩
      simpa [Gives, hmore] using hround
    · simp [Gives, hmore, Rule.pure]

theorem Gives.many {more : List Token → Bool} {P : α → Prop} (hl : Leaves rule)
    (h : ∀ us, us <:+ ts → more us → Gives rule us fun a _ => P a) :
    Gives (many more rule) ts fun as _ => ∀ a ∈ as, P a :=
  fun as has => Gives.manyWithin hl h (ts.length + 1) as has

theorem Gives.iterateWithin {more : List Token → Bool} {step : α → Rule α} {P : α → Prop} {a : α}
    (ha : P a) (hl : ∀ a, Leaves (step a))
    (h : ∀ b us, P b → us <:+ ts → more us → Gives (step b) us fun c _ => P c) (rounds : Nat) :
    Gives (iterateWithin more step rounds a) ts fun b _ => P b := by
  induction rounds generalizing ts a with
  | zero => simpa [Rule.iterateWithin, gives_pure] using ha
  | succ rounds ih =>
    unfold Rule.iterateWithin
    by_cases hmore : more ts
    · have hround : Gives (step a >>= Rule.iterateWithin more step rounds) ts fun b _ => P b := by
        rw [gives_bind]
        intro b hb
        exact ih (h a ts ha List.suffix_rfl hmore b hb)
          (fun c us hc hus => h c us hc (hus.trans (hl a ts)))
      simpa [Gives, hmore] using hround
    · simpa [Gives, hmore, Rule.pure] using ha

theorem Gives.iterate {more : List Token → Bool} {step : α → Rule α} {P : α → Prop} {a : α}
    (ha : P a) (hl : ∀ a, Leaves (step a))
    (h : ∀ b us, P b → us <:+ ts → more us → Gives (step b) us fun c _ => P c) :
    Gives (iterate more step a) ts fun b _ => P b :=
  fun b hb => Gives.iterateWithin ha hl h (ts.length + 1) b hb

/-! ### What loops read -/

/-- The results of a rule while a test on the tokens holds, where every round uses up a token. -/
inductive Collects (more : List Token → Bool) (rule : Rule α) :
    List Token → List α → List Token → Prop
  | done {ts : List Token} (hmore : more ts = false) : Collects more rule ts [] ts
  | round {ts us vs : List Token} {a : α} {as : List α} (hmore : more ts = true)
      (hread : Reads rule ts a us) (hlt : us.length < ts.length)
      (hrest : Collects more rule us as vs) : Collects more rule ts (a :: as) vs

theorem Collects.reads {more : List Token → Bool} {as : List α} (h : Collects more rule ts as us) :
    Reads (many more rule) ts as us := by
  -- more rounds than tokens are enough, since every round uses one up
  suffices hrounds : ∀ rounds, ts.length < rounds →
      Reads (Rule.manyWithin more rule rounds) ts as us from hrounds _ (Nat.lt_succ_self _)
  induction h with
  | done hmore =>
    intro rounds hlt
    obtain ⟨rounds, rfl⟩ := Nat.exists_eq_succ_of_ne_zero (by omega : rounds ≠ 0)
    simp [Reads, Rule.manyWithin, hmore, Rule.pure]
  | round hmore hread hlt _ ih =>
    intro rounds hrounds
    obtain ⟨rounds, rfl⟩ := Nat.exists_eq_succ_of_ne_zero (by omega : rounds ≠ 0)
    unfold Reads Rule.manyWithin
    rw [if_pos hmore]
    exact hread.bind ((ih rounds (by omega)).bind pure_reads)

/-- A value after it was passed through a rule while a test on the tokens holds, where every round
uses up a token. -/
inductive Iterates (more : List Token → Bool) (step : α → Rule α) :
    α → List Token → α → List Token → Prop
  | done {a : α} {ts : List Token} (hmore : more ts = false) : Iterates more step a ts a ts
  | round {a b c : α} {ts us vs : List Token} (hmore : more ts = true)
      (hread : Reads (step a) ts b us) (hlt : us.length < ts.length)
      (hrest : Iterates more step b us c vs) : Iterates more step a ts c vs

theorem Iterates.reads {more : List Token → Bool} {step : α → Rule α} {a b : α}
    (h : Iterates more step a ts b us) : Reads (iterate more step a) ts b us := by
  suffices hrounds : ∀ rounds, ts.length < rounds →
      Reads (Rule.iterateWithin more step rounds a) ts b us from hrounds _ (Nat.lt_succ_self _)
  induction h with
  | done hmore =>
    intro rounds hlt
    obtain ⟨rounds, rfl⟩ := Nat.exists_eq_succ_of_ne_zero (by omega : rounds ≠ 0)
    simp [Reads, Rule.iterateWithin, hmore, Rule.pure]
  | round hmore hread hlt _ ih =>
    intro rounds hrounds
    obtain ⟨rounds, rfl⟩ := Nat.exists_eq_succ_of_ne_zero (by omega : rounds ≠ 0)
    unfold Reads Rule.iterateWithin
    rw [if_pos hmore]
    exact hread.bind (ih rounds (by omega))

/-! ### What loops complete -/

/-- An invariant that every round keeps holds in the end, and then the test fails. -/
theorem Completes.iterate {more : List Token → Bool} {step : α → Rule α}
    {P : α → List Token → Prop} {a : α}
    (hround : ∀ b us, P b us → more us →
      Completes (step b) us fun c vs => P c vs ∧ vs.length < us.length) (ha : P a ts) :
    Completes (iterate more step a) ts fun b us => P b us ∧ more us = false := by
  suffices hrounds : ∀ rounds, ts.length < rounds →
      Completes (Rule.iterateWithin more step rounds a) ts fun b us => P b us ∧ more us = false from
    hrounds _ (Nat.lt_succ_self _)
  intro rounds
  induction rounds generalizing ts a with
  | zero => omega
  | succ rounds ih =>
    intro hlt
    unfold Rule.iterateWithin
    by_cases hmore : more ts
    · have hall : Completes (step a >>= Rule.iterateWithin more step rounds) ts
          fun b us => P b us ∧ more us = false :=
        .bind ((hround a ts ha hmore).mono fun b us hb => ih hb.1 (by omega))
      simpa [Completes, Reads, hmore] using hall
    · simpa [Completes, Reads, hmore, Rule.pure] using ha

/-- What is known of the results of a loop is put together from its last round to its first. -/
theorem Completes.many {more : List Token → Bool} {I : List Token → Prop}
    {Q : List Token → List α → List Token → Prop}
    (hround : ∀ us, I us → more us → Completes rule us fun a vs =>
      I vs ∧ vs.length < us.length ∧ ∀ as ws, Q vs as ws → Q us (a :: as) ws)
    (hdone : ∀ us, I us → more us = false → Q us [] us) (hts : I ts) :
    Completes (many more rule) ts (Q ts) := by
  -- the test fails before the rounds run out, so that the loop is never cut off
  suffices hrounds : ∀ rounds, ts.length < rounds → Completes (Rule.manyWithin more rule rounds)
      ts (Q ts) from hrounds _ (Nat.lt_succ_self _)
  intro rounds
  induction rounds generalizing ts with
  | zero => omega
  | succ rounds ih =>
    intro hlt
    unfold Rule.manyWithin
    by_cases hmore : more ts
    · have hall : Completes (do
          let a ← rule
          let as ← Rule.manyWithin more rule rounds
          Pure.pure (a :: as) : Rule (List α)) ts (Q ts) := by
        refine .bind ((hround ts hts hmore).mono fun a us ⟨hus, hle, hQ⟩ => ?_)
        exact .bind ((ih hus (by omega)).mono fun as ws has => completes_pure (hQ as ws has))
      simpa [Completes, Reads, hmore] using hall
    · simpa [Completes, Reads, hmore, Rule.pure] using hdone ts hts (by simpa using hmore)

end MonkeyLang.Rule
