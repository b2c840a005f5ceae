import MonkeyLang.Proofs.Leaves
import MonkeyLang.Proofs.Lexeme

/-!
# Stopping at a semicolon

Where no opening brace stands before it, a semicolon is not gone beyond by the rule for
expressions, however malformed the tokens before it are, and the current token is never moved on to
it by a step that was successful (`expression_stops`): either some of the tokens before the
semicolon are left, or the expression is abandoned.

The reason is that a step moves on to a token of a kind that it asks for, or moves on to begin an
expression, and no expression begins with a semicolon.  But after an expression was abandoned at the
semicolon, the token behind it is looked at; so that must not be one that closes or continues what
stands before (`StartsAfresh`).

`Stops` is the form in which this is stated of every rule.  It compares what a rule does for several
continuations of its tokens, which makes it more useful than a statement about one of them.
-/

namespace MonkeyLang

namespace Rule

variable {α β : Type} {S : List Token → Prop} {rule : Rule α} {cont : α → Rule β}
  {xs ys : List Token} {post post' : α → List Token → Prop} {post₂ : β → List Token → Prop}

/-- What is behind a semicolon neither goes on with nor closes what stands before it. -/
def StartsAfresh (vs : List Token) : Prop :=
  (currentOf vs).kind ∉ [.semicolon, .comma, .rparen, .rbracket]

theorem StartsAfresh.ne {vs : List Token} (h : StartsAfresh vs) {kind : TokenKind}
    (hkind : kind ∈ [.semicolon, .comma, .rparen, .rbracket]) : (currentOf vs).kind ≠ kind :=
  fun heq => h (heq ▸ hkind)

/-- Where tokens stand before the semicolon, the next token is one of them or the semicolon. -/
theorem nextOf_append_semicolon (h : xs ≠ []) (vs : List Token) :
    nextOf (xs ++ .sign .semicolon :: vs) = nextOf (xs ++ [.sign .semicolon]) := by
  obtain ⟨x, xs, rfl⟩ := List.exists_cons_of_ne_nil h
  cases xs <;> rfl

theorem tail_append_semicolon (h : xs ≠ []) (vs : List Token) :
    (xs ++ .sign .semicolon :: vs).tail = xs.tail ++ .sign .semicolon :: vs := by
  obtain ⟨x, xs, rfl⟩ := List.exists_cons_of_ne_nil h
  rfl

/-- If it is not the semicolon that comes next, it is one of the tokens. -/
theorem tail_ne_nil_of_next (h : xs ≠ [])
    (hnext : (nextOf (xs ++ [.sign .semicolon])).kind ≠ .semicolon) :
    xs.tail ≠ [] ∧ currentOf xs.tail = nextOf (xs ++ [.sign .semicolon]) := by
  obtain ⟨x, xs, rfl⟩ := List.exists_cons_of_ne_nil h
  cases xs with
  | nil => exact absurd rfl hnext
  | cons x' xs => exact ⟨List.cons_ne_nil x' xs, rfl⟩

/-- Whichever of the lists in `S` stands behind the tokens `xs` and a semicolon, the rule does the
same: it leaves some of the tokens, the semicolon and what is behind.  If it gives a result, that
satisfies `post` together with those of the tokens that are left. -/
def Stops (S : List Token → Prop) (rule : Rule α) (xs : List Token)
    (post : α → List Token → Prop) : Prop :=
  ∃ v zs, zs <:+ xs ∧ (∀ a, v = some a → post a zs) ∧ ∀ vs, S vs →
    (rule (xs ++ .sign .semicolon :: vs)).value = v ∧
      (rule (xs ++ .sign .semicolon :: vs)).rest = zs ++ .sign .semicolon :: vs

namespace Stops

theorem mono (h : Stops S rule xs post) (hpost : ∀ a zs, zs <:+ xs → post a zs → post' a zs) :
    Stops S rule xs post' := by
  obtain ⟨v, zs, hzs, ha, hrule⟩ := h
  exact ⟨v, zs, hzs, fun a hv => hpost a zs hzs (ha a hv), hrule⟩

theorem bind (h : Stops S rule xs post)
    (hcont : ∀ a zs, zs <:+ xs → post a zs → Stops S (cont a) zs post₂) :
    Stops S (rule >>= cont) xs post₂ := by
  obtain ⟨v, zs, hzs, ha, hrule⟩ := h
  cases v with
  | none =>
    refine ⟨none, zs, hzs, nofun, fun vs hvs => ?_⟩
    obtain ⟨hvalue, hrest⟩ := hrule vs hvs
    rw [bind_apply_of_none hvalue]
    exact ⟨rfl, hrest⟩
  | some a =>
    obtain ⟨w, ws, hws, hb, hafter⟩ := hcont a zs hzs (ha a rfl)
    refine ⟨w, ws, hws.trans hzs, hb, fun vs hvs => ?_⟩
    obtain ⟨hvalue, hrest⟩ := hrule vs hvs
    rw [bind_apply_of_some hvalue, hrest]
    exact hafter vs hvs

theorem of_reads {a : α} {zs : List Token} (hzs : zs <:+ xs) (ha : post a zs)
    (h : ∀ vs, S vs → Reads rule (xs ++ .sign .semicolon :: vs) a (zs ++ .sign .semicolon :: vs)) :
    Stops S rule xs post := by
  refine ⟨some a, zs, hzs, fun _ hv => Option.some.inj hv ▸ ha, fun vs hvs => ?_⟩
  rw [show rule _ = _ from h vs hvs]
  exact ⟨rfl, rfl⟩

theorem pure {a : α} (h : post a xs) : Stops S (pure a) xs post :=
  of_reads List.suffix_rfl h fun _ _ => pure_reads

theorem reject (diagnostic : Diagnostic) : Stops S (reject diagnostic) xs post :=
  ⟨none, xs, List.suffix_rfl, nofun, fun _ _ => ⟨rfl, rfl⟩⟩

theorem ofOption {v : Option α} (h : ∀ a, v = some a → post a xs) :
    Stops S (ofOption v) xs post := by
  cases v with
  | none => exact ⟨none, xs, List.suffix_rfl, nofun, fun _ _ => ⟨rfl, rfl⟩⟩
  | some a => exact pure (h a rfl)

theorem attempt (h : Stops S rule xs post) :
    Stops S (attempt rule) xs fun v zs => ∀ a, v = some a → post a zs := by
  obtain ⟨v, zs, hzs, ha, hrule⟩ := h
  refine ⟨some v, zs, hzs, fun _ hv => Option.some.inj hv ▸ ha, fun vs hvs => ?_⟩
  obtain ⟨hvalue, hrest⟩ := hrule vs hvs
  exact ⟨congrArg some hvalue, hrest⟩

theorem ite {c : Prop} [Decidable c] {other : Rule α} (h : c → Stops S rule xs post)
    (hother : ¬ c → Stops S other xs post) : Stops S (if c then rule else other) xs post := by
  split
  · next hc => exact h hc
  · next hc => exact hother hc

/-! ### Tokens -/

/-- The current token is one of those before the semicolon, or the semicolon. -/
theorem current : Stops S current xs fun t zs =>
    zs = xs ∧ t = currentOf (xs ++ [.sign .semicolon]) :=
  of_reads List.suffix_rfl ⟨rfl, rfl⟩ fun _ _ => by cases xs <;> rfl

theorem next (h : xs ≠ []) : Stops S next xs fun t zs =>
    zs = xs ∧ t = nextOf (xs ++ [.sign .semicolon]) :=
  of_reads List.suffix_rfl ⟨rfl, rfl⟩ fun vs _ => nextOf_append_semicolon h vs ▸ next_reads

theorem advance (h : xs ≠ []) : Stops S advance xs fun _ zs => zs = xs.tail :=
  of_reads (List.tail_suffix xs) rfl fun vs _ => tail_append_semicolon h vs ▸ advance_reads

/-- A token that is asked for stands before the semicolon, unless it may start afresh. -/
theorem expect {kind : TokenKind} (hkind : kind ≠ .semicolon)
    (hnil : xs = [] → ∀ vs, S vs → (currentOf vs).kind ≠ kind) :
    Stops S (expect kind) xs fun _ zs => zs ≠ [] ∧ zs = xs.tail ∧ (currentOf zs).kind = kind := by
  by_cases hnext : xs ≠ [] ∧ (nextOf (xs ++ [.sign .semicolon])).kind = kind
  · obtain ⟨hxs, hnext⟩ := hnext
    obtain ⟨htail, hcurrent⟩ := tail_ne_nil_of_next hxs (by rw [hnext]; exact hkind)
    refine of_reads (a := ()) (List.tail_suffix xs) ⟨htail, rfl, hcurrent ▸ hnext⟩ fun vs _ => ?_
    rw [← tail_append_semicolon hxs]
    exact expect_reads (by rw [nextOf_append_semicolon hxs, hnext])
  · have hne : ∀ vs, S vs → (nextOf (xs ++ .sign .semicolon :: vs)).kind ≠ kind := by
      intro vs hvs
      by_cases hxs : xs = []
      · subst hxs
        exact hnil rfl vs hvs
      · rw [nextOf_append_semicolon hxs]
        exact fun heq => hnext ⟨hxs, heq⟩
    refine ⟨none, xs, List.suffix_rfl, nofun, fun vs hvs => ?_⟩
    simp [Rule.expect, hne vs hvs, Rule.reject]

theorem skip (h : ∀ vs, S vs → StartsAfresh vs) :
    Stops S (skip .semicolon) xs fun _ _ => True := by
  by_cases hnext : xs ≠ [] ∧ (nextOf (xs ++ [.sign .semicolon])).kind = .semicolon
  · obtain ⟨hxs, hnext⟩ := hnext
    refine of_reads (a := ()) (List.tail_suffix xs) trivial fun vs _ => ?_
    rw [← tail_append_semicolon hxs]
    exact skip_reads (by rw [nextOf_append_semicolon hxs, hnext])
  · refine of_reads (a := ()) List.suffix_rfl trivial fun vs hvs => skip_reads_of_ne ?_
    by_cases hxs : xs = []
    · subst hxs
      exact (h vs hvs).ne (by decide)
    · rw [nextOf_append_semicolon hxs]
      exact fun heq => hnext ⟨hxs, heq⟩

/-! ### Repetition

The number of rounds that are allowed depends on all the tokens, so here one list stands behind the
semicolon. -/

theorem many {vs : List Token} {more : List Token → Bool}
    (h : ∀ zs, zs <:+ xs → more (zs ++ .sign .semicolon :: vs) →
      Stops (· = vs) rule zs fun _ _ => True) :
    Stops (· = vs) (many more rule) xs fun _ _ => True := by
  suffices hrounds : ∀ rounds, Stops (· = vs) (manyWithin more rule rounds) xs fun _ _ => True by
    obtain ⟨v, zs, hzs, hpost, hrule⟩ := hrounds ((xs ++ .sign .semicolon :: vs).length + 1)
    refine ⟨v, zs, hzs, hpost, ?_⟩
    rintro _ rfl
    exact hrule _ rfl
  intro rounds
  induction rounds generalizing xs with
  | zero => exact pure trivial
  | succ rounds ih =>
    by_cases hmore : more (xs ++ .sign .semicolon :: vs)
    · have hround : Stops (· = vs) (rule >>= fun a => manyWithin more rule rounds >>= fun as =>
          Pure.pure (a :: as)) xs fun _ _ => True :=
        (h xs List.suffix_rfl hmore).bind fun a zs hzs _ =>
          (ih fun us hus => h us (hus.trans hzs)).bind fun as ws _ _ => pure trivial
      obtain ⟨v, zs, hzs, hpost, hrule⟩ := hround
      refine ⟨v, zs, hzs, hpost, ?_⟩
      rintro _ rfl
      simpa [manyWithin, hmore] using hrule _ rfl
    · refine ⟨some [], xs, List.suffix_rfl, fun _ _ => trivial, ?_⟩
      rintro _ rfl
      simp [manyWithin, hmore, Rule.pure]

theorem iterate {vs : List Token} {more : List Token → Bool} {step : α → Rule α}
    {P : List Token → Prop}
    (h : ∀ a zs, P zs → zs <:+ xs → more (zs ++ .sign .semicolon :: vs) →
      Stops (· = vs) (step a) zs fun _ => P) (a : α) (hxs : P xs) :
    Stops (· = vs) (iterate more step a) xs fun _ => P := by
  suffices hrounds : ∀ rounds, Stops (· = vs) (iterateWithin more step rounds a) xs fun _ => P by
    obtain ⟨v, zs, hzs, hpost, hrule⟩ := hrounds ((xs ++ .sign .semicolon :: vs).length + 1)
    refine ⟨v, zs, hzs, hpost, ?_⟩
    rintro _ rfl
    exact hrule _ rfl
  intro rounds
  induction rounds generalizing a xs with
  | zero => exact pure hxs
  | succ rounds ih =>
    by_cases hmore : more (xs ++ .sign .semicolon :: vs)
    · have hround : Stops (· = vs) (step a >>= iterateWithin more step rounds) xs fun _ => P :=
        (h a xs hxs List.suffix_rfl hmore).bind fun b zs hzs hP =>
          ih (fun c us hus hsuffix => h c us hus (hsuffix.trans hzs)) b hP
      obtain ⟨v, zs, hzs, hpost, hrule⟩ := hround
      refine ⟨v, zs, hzs, hpost, ?_⟩
      rintro _ rfl
      simpa [iterateWithin, hmore] using hrule _ rfl
    · refine ⟨some a, xs, List.suffix_rfl, fun _ _ => hxs, ?_⟩
      rintro _ rfl
      simp [iterateWithin, hmore, Rule.pure]

end Stops
end Rule

namespace Grammar

open Rule

/-- Tokens without an opening brace. -/
def Braceless (xs : List Token) : Prop :=
  ∀ t ∈ xs, t.kind ≠ .lbrace

theorem Braceless.suffix {xs zs : List Token} (h : Braceless xs) (hzs : zs <:+ xs) :
    Braceless zs :=
  fun t ht => h t (hzs.subset ht)

/-- Behind tokens without an opening brace, the semicolon is not gone beyond by the rule for
expressions, and where it is reached the expression is abandoned. -/
def Heeds (vs : List Token) (expr : ExpressionRule) : Prop :=
  ∀ p xs, Braceless xs → Stops (· = vs) (expr p) xs fun _ zs => zs ≠ []

section Rules

variable {vs xs : List Token} {expr : ExpressionRule} {post : Node → List Token → Prop}

/-- A closing token, which may be looked for behind an expression that was abandoned. -/
theorem closing_stops {closing : TokenKind} (hvs : StartsAfresh vs)
    (hclosing : closing = .rparen ∨ closing = .rbracket) :
    Stops (· = vs) (expect closing) xs fun _ zs => zs ≠ [] := by
  refine (Stops.expect ?_ ?_).mono fun _ _ _ h => h.1
  · rcases hclosing with rfl | rfl <;> decide
  · rintro - _ rfl
    rcases hclosing with rfl | rfl
    · exact hvs.ne (by decide)
    · exact hvs.ne (by decide)

/-- No brace is opened. -/
theorem lbrace_stops {α : Type} {cont : Unit → Rule α} {post : α → List Token → Prop}
    (hxs : Braceless xs) (hne : xs ≠ []) :
    Stops (· = vs) (expect .lbrace >>= cont) xs post := by
  refine (Stops.expect (by decide) fun h => absurd h hne).bind fun _ zs hzs h => ?_
  obtain ⟨hzs', -, hkind⟩ := h
  obtain ⟨t, zs, rfl⟩ := List.exists_cons_of_ne_nil hzs'
  exact absurd hkind (hxs t (hzs.subset List.mem_cons_self))

theorem name_stops (hne : xs ≠ []) : Stops (· = vs) name xs fun _ zs => zs ≠ [] :=
  Stops.current.bind fun _ _ _ h => .pure (h.1 ▸ hne)

theorem integer_stops (hne : xs ≠ []) : Stops (· = vs) integer xs fun _ zs => zs ≠ [] := by
  refine Stops.current.bind fun t zs _ h => ?_
  split
  · exact .reject _
  · exact .ite (fun _ => .reject _) fun _ => .pure (h.1 ▸ hne)

theorem unary_stops (h : Heeds vs expr) (hxs : Braceless xs) (hne : xs ≠ []) :
    Stops (· = vs) (unary expr) xs fun _ zs => zs ≠ [] := by
  refine Stops.current.bind fun t zs _ ht => ?_
  obtain ⟨rfl, -⟩ := ht
  refine (Stops.advance hne).bind fun _ ys hys _ => ?_
  exact (h _ ys (hxs.suffix hys)).bind fun _ _ _ hzs => .pure hzs

theorem grouped_stops (hvs : StartsAfresh vs) (h : Heeds vs expr) (hxs : Braceless xs)
    (hne : xs ≠ []) : Stops (· = vs) (grouped expr) xs fun _ zs => zs ≠ [] := by
  refine (Stops.advance hne).bind fun _ ys hys _ => ?_
  refine (h _ ys (hxs.suffix hys)).attempt.bind fun _ zs _ _ => ?_
  exact (closing_stops hvs (.inl rfl)).bind fun _ _ _ hws => .ofOption fun _ _ => hws

theorem conditional_stops (hvs : StartsAfresh vs) (h : Heeds vs expr) (hxs : Braceless xs)
    (hne : xs ≠ []) : Stops (· = vs) (conditional expr) xs fun _ zs => zs ≠ [] := by
  refine Stops.current.bind fun t zs _ ht => ?_
  obtain ⟨rfl, -⟩ := ht
  refine (Stops.expect (by decide) fun hnil => absurd hnil hne).bind fun _ ys hys hopen => ?_
  refine (Stops.advance hopen.1).bind fun _ zs hzs _ => ?_
  refine (h _ zs (hxs.suffix (hzs.trans hys))).attempt.bind fun _ us hus _ => ?_
  refine (closing_stops hvs (.inl rfl)).bind fun _ ws hws hne' => ?_
  exact lbrace_stops (hxs.suffix (((hws.trans hus).trans hzs).trans hys)) hne'

/-- Moves on to the next token, which has been looked at. -/
theorem advance_stops_of_next (hne : xs ≠ [])
    (hnext : (nextOf (xs ++ [.sign .semicolon])).kind ≠ .semicolon) :
    Stops (· = vs) advance xs fun _ zs => zs ≠ [] :=
  (Stops.advance hne).mono fun _ _ _ hzs => hzs ▸ (tail_ne_nil_of_next hne hnext).1

/-- A comma is never the semicolon, nor what is behind it. -/
theorem comma_ahead (hvs : StartsAfresh vs)
    (hcomma : (nextOf (xs ++ .sign .semicolon :: vs)).kind = .comma) :
    xs ≠ [] ∧ (nextOf (xs ++ [.sign .semicolon])).kind ≠ .semicolon := by
  have hne : xs ≠ [] := by
    rintro rfl
    exact hvs.ne (by decide) hcomma
  rw [nextOf_append_semicolon hne] at hcomma
  exact ⟨hne, by rw [hcomma]; decide⟩

theorem parameters_stops (hvs : StartsAfresh vs) (hne : xs ≠ []) :
    Stops (· = vs) parameters xs fun _ zs => zs ≠ [] := by
  refine (Stops.next hne).bind fun t zs _ ht => ?_
  obtain ⟨rfl, rfl⟩ := ht
  refine .ite (fun hkind => ?_) fun _ => ?_
  · exact (advance_stops_of_next hne (by rw [hkind]; decide)).bind fun _ _ _ hus => .pure hus
  · refine (Stops.expect (by decide) fun hnil => absurd hnil hne).bind fun _ ys _ hys => ?_
    refine (name_stops hys.1).bind fun _ us _ _ => ?_
    have hrounds : Stops (· = vs) (many (fun ts => (nextOf ts).kind = .comma) do
        advance; expect .ident; name) us fun _ _ => True := by
      refine .many fun ws _ hcomma => ?_
      obtain ⟨hws, hnext⟩ := comma_ahead hvs (of_decide_eq_true hcomma)
      refine (advance_stops_of_next hws hnext).bind fun _ as _ has => ?_
      refine (Stops.expect (by decide) fun hnil => absurd hnil has).bind fun _ bs _ hbs => ?_
      exact (name_stops hbs.1).mono fun _ _ _ _ => trivial
    refine hrounds.bind fun _ ws _ _ => ?_
    exact (closing_stops hvs (.inl rfl)).bind fun _ _ _ has => .pure has

theorem function_stops (hvs : StartsAfresh vs) (hxs : Braceless xs) (hne : xs ≠ []) :
    Stops (· = vs) (function expr) xs fun _ zs => zs ≠ [] := by
  refine Stops.current.bind fun t zs _ ht => ?_
  obtain ⟨rfl, -⟩ := ht
  refine (Stops.expect (by decide) fun hnil => absurd hnil hne).bind fun _ ys hys hopen => ?_
  refine (parameters_stops hvs hopen.1).bind fun _ us hus hne' => ?_
  exact lbrace_stops (hxs.suffix (hus.trans hys)) hne'

theorem items_stops (hvs : StartsAfresh vs) (h : Heeds vs expr) (hxs : Braceless xs)
    (hne : xs ≠ []) {closing : TokenKind} (hclosing : closing = .rparen ∨ closing = .rbracket) :
    Stops (· = vs) (items expr closing) xs fun _ zs => zs ≠ [] := by
  refine (Stops.next hne).bind fun t zs _ ht => ?_
  obtain ⟨rfl, rfl⟩ := ht
  refine .ite (fun hkind => ?_) fun _ => ?_
  · have hnext : closing ≠ .semicolon := by rcases hclosing with rfl | rfl <;> decide
    exact (advance_stops_of_next hne (hkind ▸ hnext)).bind fun _ _ _ hus => .pure hus
  · refine (Stops.advance hne).bind fun _ ys hys _ => ?_
    refine (h _ ys (hxs.suffix hys)).attempt.bind fun _ us hus _ => ?_
    have hrounds : Stops (· = vs) (many (fun ts => (nextOf ts).kind = .comma) do
        advance; advance; attempt (expr .lowest)) us fun _ _ => True := by
      refine .many fun ws hws hcomma => ?_
      obtain ⟨hne', hnext⟩ := comma_ahead hvs (of_decide_eq_true hcomma)
      refine (advance_stops_of_next hne' hnext).bind fun _ as has hne'' => ?_
      refine (Stops.advance hne'').bind fun _ bs hbs _ => ?_
      have hsuffix : bs <:+ zs := (((hbs.trans has).trans hws).trans hus).trans hys
      exact (h _ bs (hxs.suffix hsuffix)).attempt.mono fun _ _ _ _ => trivial
    refine hrounds.bind fun _ ws _ _ => ?_
    exact (closing_stops hvs hclosing).bind fun _ _ _ has => .ofOption fun _ _ => has

theorem array_stops (hvs : StartsAfresh vs) (h : Heeds vs expr) (hxs : Braceless xs)
    (hne : xs ≠ []) : Stops (· = vs) (array expr) xs fun _ zs => zs ≠ [] := by
  refine Stops.current.bind fun t zs _ ht => ?_
  obtain ⟨rfl, -⟩ := ht
  exact (items_stops hvs h hxs hne (.inr rfl)).bind fun _ _ _ hus => .pure hus

/-- A semicolon is no operand, and the forms with an opening brace do not come about. -/
theorem operand_stops (hvs : StartsAfresh vs) (h : Heeds vs expr) (hxs : Braceless xs) :
    Stops (· = vs) (operand expr) xs fun _ zs => zs ≠ [] := by
  refine Stops.current.bind fun t zs _ ht => ?_
  obtain ⟨rfl, rfl⟩ := ht
  cases zs with
  | nil => exact .reject _
  | cons x zs =>
    have hne : x :: zs ≠ [] := List.cons_ne_nil x zs
    have hx : x.kind ≠ .lbrace := hxs x List.mem_cons_self
    split
    · exact (name_stops hne).bind fun _ _ _ hus => .pure hus
    · exact integer_stops hne
    · exact Stops.current.bind fun _ _ _ hus => .pure (hus.1 ▸ hne)
    · exact function_stops hvs hxs hne
    · exact unary_stops h hxs hne
    · exact unary_stops h hxs hne
    · exact grouped_stops hvs h hxs hne
    · exact conditional_stops hvs h hxs hne
    · exact Stops.current.bind fun _ _ _ hus => .pure (hus.1 ▸ hne)
    · exact Stops.current.bind fun _ _ _ hus => .pure (hus.1 ▸ hne)
    · exact array_stops hvs h hxs hne
    · next hbrace => exact absurd hbrace hx
    · exact .reject _

theorem binary_stops (h : Heeds vs expr) (hxs : Braceless xs) (hne : xs ≠ []) (left : Node) :
    Stops (· = vs) (binary expr left) xs fun _ zs => zs ≠ [] := by
  refine Stops.current.bind fun t zs _ ht => ?_
  obtain ⟨rfl, -⟩ := ht
  refine (Stops.advance hne).bind fun _ ys hys _ => ?_
  exact (h _ ys (hxs.suffix hys)).bind fun _ _ _ hus => .pure hus

theorem call_stops (hvs : StartsAfresh vs) (h : Heeds vs expr) (hxs : Braceless xs)
    (hne : xs ≠ []) (callee : Node) :
    Stops (· = vs) (call expr callee) xs fun _ zs => zs ≠ [] := by
  refine Stops.current.bind fun t zs _ ht => ?_
  obtain ⟨rfl, -⟩ := ht
  exact (items_stops hvs h hxs hne (.inl rfl)).bind fun _ _ _ hus => .pure hus

theorem index_stops (hvs : StartsAfresh vs) (h : Heeds vs expr) (hxs : Braceless xs)
    (hne : xs ≠ []) (target : Node) :
    Stops (· = vs) (index expr target) xs fun _ zs => zs ≠ [] := by
  refine Stops.current.bind fun t zs _ ht => ?_
  obtain ⟨rfl, -⟩ := ht
  refine (Stops.advance hne).bind fun _ ys hys _ => ?_
  refine (h _ ys (hxs.suffix hys)).attempt.bind fun _ us _ _ => ?_
  refine (closing_stops hvs (.inr rfl)).bind fun _ ws _ hws => ?_
  refine .bind (.ofOption fun _ _ => hws) fun _ _ _ has => .pure has

theorem continuation_stops (hvs : StartsAfresh vs) (h : Heeds vs expr) (hxs : Braceless xs)
    (hne : xs ≠ []) (hnext : (nextOf (xs ++ [.sign .semicolon])).kind ≠ .semicolon)
    (left : Node) : Stops (· = vs) (continuation expr left) xs fun _ zs => zs ≠ [] := by
  refine (advance_stops_of_next hne hnext).bind fun _ ys hys hne' => ?_
  refine Stops.current.bind fun t zs _ ht => ?_
  obtain ⟨rfl, -⟩ := ht
  split
  · exact call_stops hvs h (hxs.suffix hys) hne' left
  · exact index_stops hvs h (hxs.suffix hys) hne' left
  · exact binary_stops h (hxs.suffix hys) hne' left

/-- A semicolon binds no more strongly than anything. -/
theorem climb_stops (hvs : StartsAfresh vs) (h : Heeds vs expr) (hxs : Braceless xs)
    (hne : xs ≠ []) (p : Precedence) (left : Node) :
    Stops (· = vs) (climb expr p left) xs fun _ zs => zs ≠ [] := by
  refine .iterate (P := (· ≠ [])) (fun left zs hne hzs hmore => ?_) left hne
  have hlt : p < .ofKind (nextOf (zs ++ [.sign .semicolon])).kind := by
    rw [← nextOf_append_semicolon hne vs]
    exact of_decide_eq_true hmore
  refine continuation_stops hvs h (hxs.suffix hzs) hne (fun heq => ?_) left
  rw [heq] at hlt
  exact absurd hlt (by cases p <;> decide)

end Rules

theorem expressionWithin_heeds {vs : List Token} (hvs : StartsAfresh vs) (depth : Nat) :
    Heeds vs (expressionWithin depth) := by
  induction depth with
  | zero => exact fun _ _ _ => Stops.current.bind fun _ _ _ _ => .reject _
  | succ depth ih =>
    intro p xs hxs
    refine (operand_stops hvs ih hxs).bind fun left zs hzs hne => ?_
    exact climb_stops hvs ih (hxs.suffix hzs) hne p left

theorem expression_heeds {vs : List Token} (hvs : StartsAfresh vs) : Heeds vs expression := by
  intro p xs hxs
  obtain ⟨v, zs, hzs, hpost, hrule⟩ := expressionWithin_heeds hvs
    ((xs ++ .sign .semicolon :: vs).length + 1) p xs hxs
  refine ⟨v, zs, hzs, hpost, ?_⟩
  rintro _ rfl
  exact hrule _ rfl

end Grammar

end MonkeyLang
