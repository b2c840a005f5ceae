import MonkeyLang.Grammar.Diagnostic

/-!
# Grammar rules

A `Rule` reads tokens from the front of a list, of which the first is the current one and the
second the next.  It records diagnostics, leaves the tokens it did not use, and either gives a
result or is abandoned.  Behind the last token stands `Token.eof`, as often as it is asked for.

* `Rule` is a monad: a rule goes on with the tokens that the rule before it has left, and is
  abandoned as soon as one of its steps is;
* `attempt` turns being abandoned into a result, so that the rule around it can go on;
* `expect` is the one step that insists on what comes next;
* `many` and `iterate` repeat a rule while a test on the tokens ahead holds, and at most one time
  more often than there are tokens.  No rule of the grammar comes to that bound, because each
  round uses up a token.
-/

namespace MonkeyLang

/-- The outcome of a rule: its result unless it was abandoned, the diagnostics it recorded, and the
tokens it left. -/
structure Reading (α : Type) where
  value : Option α
  diagnostics : List Diagnostic
  rest : List Token

/-- A way to read something from the front of a list of tokens. -/
def Rule (α : Type) : Type := List Token → Reading α

namespace Rule

variable {α β : Type}

/-! ### Composition -/

/-- Reads nothing and gives a result. -/
protected def pure (a : α) : Rule α := fun ts => ⟨some a, [], ts⟩

/-- Goes on with the result of a rule, unless that was abandoned. -/
protected def bind (rule : Rule α) (next : α → Rule β) : Rule β := fun ts =>
  match (rule ts).value with
  | some a =>
    let after := next a (rule ts).rest
    ⟨after.value, (rule ts).diagnostics ++ after.diagnostics, after.rest⟩
  | none => ⟨none, (rule ts).diagnostics, (rule ts).rest⟩

instance : Monad Rule where
  pure := Rule.pure
  bind := Rule.bind

@[simp] theorem pure_apply (a : α) (ts : List Token) :
    (pure a : Rule α) ts = ⟨some a, [], ts⟩ := rfl

/-- A rule goes on from where the rule before it stopped, with its diagnostics behind the others. -/
theorem bind_apply_of_some {rule : Rule α} {ts : List Token} {a : α}
    (h : (rule ts).value = some a) (next : α → Rule β) :
    (rule >>= next) ts =
      ⟨(next a (rule ts).rest).value,
        (rule ts).diagnostics ++ (next a (rule ts).rest).diagnostics,
        (next a (rule ts).rest).rest⟩ := by
  change Rule.bind rule next ts = _
  unfold Rule.bind
  rw [h]

/-- Nothing follows a rule that was abandoned. -/
theorem bind_apply_of_none {rule : Rule α} {ts : List Token}
    (h : (rule ts).value = none) (next : α → Rule β) :
    (rule >>= next) ts = ⟨none, (rule ts).diagnostics, (rule ts).rest⟩ := by
  change Rule.bind rule next ts = _
  unfold Rule.bind
  rw [h]

instance : LawfulMonad Rule :=
  LawfulMonad.mk' Rule
    (by
      intro α rule
      funext ts
      change Rule.bind rule (fun a => pure a) ts = rule ts
      unfold Rule.bind
      rcases hr : rule ts with ⟨_ | a, ds, rest⟩ <;> simp)
    (by
      intro α β a next
      funext ts
      change Rule.bind (Rule.pure a) next ts = next a ts
      simp [Rule.bind, Rule.pure])
    (by
      intro α β γ rule next last
      funext ts
      change Rule.bind (Rule.bind rule next) last ts =
        Rule.bind rule (fun a => Rule.bind (next a) last) ts
      unfold Rule.bind
      rcases hr : rule ts with ⟨_ | a, ds, rest⟩
      · rfl
      · rcases hn : next a rest with ⟨_ | b, es, rest'⟩ <;> simp [hn])

/-- Abandons the rule. -/
def fail : Rule α := fun ts => ⟨none, [], ts⟩

/-- Records a diagnostic and abandons the rule. -/
def reject (diagnostic : Diagnostic) : Rule α := fun ts => ⟨none, [diagnostic], ts⟩

/-- Gives the value there is, or abandons the rule. -/
def ofOption : Option α → Rule α
  | some a => pure a
  | none => fail

/-- Gives the result of a rule, or `none` if it was abandoned. -/
def attempt (rule : Rule α) : Rule (Option α) := fun ts =>
  ⟨some (rule ts).value, (rule ts).diagnostics, (rule ts).rest⟩

/-! ### Tokens -/

/-- The current token of a list. -/
def currentOf (ts : List Token) : Token := ts.headD Token.eof

/-- The token behind the current one. -/
def nextOf (ts : List Token) : Token := currentOf ts.tail

/-- The current token. -/
def current : Rule Token := fun ts => ⟨some (currentOf ts), [], ts⟩

/-- The next token. -/
def next : Rule Token := fun ts => ⟨some (nextOf ts), [], ts⟩

/-- Moves on by one token. -/
def advance : Rule Unit := fun ts => ⟨some (), [], ts.tail⟩

/-- Moves on to the next token, which must be of the given kind. -/
def expect (want : TokenKind) : Rule Unit := fun ts =>
  if (nextOf ts).kind = want then advance ts
  else reject (.expected want (nextOf ts).kind) ts

/-- Moves on to the next token if it is of the given kind. -/
def skip (kind : TokenKind) : Rule Unit := fun ts =>
  if (nextOf ts).kind = kind then advance ts else Rule.pure () ts

/-! ### Repetition -/

/-- Collects the results of a rule while a test on the tokens holds, at most `rounds` times. -/
def manyWithin (more : List Token → Bool) (rule : Rule α) : Nat → Rule (List α)
  | 0 => pure []
  | rounds + 1 => fun ts =>
    if more ts then
      (do
        let a ← rule
        let as ← manyWithin more rule rounds
        pure (a :: as) : Rule (List α)) ts
    else Rule.pure [] ts

/-- Collects the results of a rule while a test on the tokens holds. -/
def many (more : List Token → Bool) (rule : Rule α) : Rule (List α) := fun ts =>
  manyWithin more rule (ts.length + 1) ts

/-- Passes a value through a rule while a test on the tokens holds, at most `rounds` times. -/
def iterateWithin (more : List Token → Bool) (rule : α → Rule α) : Nat → α → Rule α
  | 0, a => pure a
  | rounds + 1, a => fun ts =>
    if more ts then (rule a >>= iterateWithin more rule rounds) ts else Rule.pure a ts

/-- Passes a value through a rule while a test on the tokens holds. -/
def iterate (more : List Token → Bool) (rule : α → Rule α) (a : α) : Rule α := fun ts =>
  iterateWithin more rule (ts.length + 1) a ts

end Rule

end MonkeyLang
