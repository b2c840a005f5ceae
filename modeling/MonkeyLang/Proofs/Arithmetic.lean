import MonkeyLang.Proofs.Range

/-!
# Integer arithmetic

What the operators of arithmetic make of two integers, or of one.

* Addition, subtraction, multiplication and negation respect residues; so it makes no difference
  whether each of them wraps its result or only the last one does.  `ExactValue` is the value that a
  tree of such operations has without any wrapping, and `arithmetic_wraps_once` says what evaluation
  makes of it.
* Division does not respect residues.  `IsDivision` states the laws of the quotient that is rounded
  towards zero and of its remainder, and `division_truncates` that they hold of `/`.
-/

namespace MonkeyLang

/-! ### Rounding towards zero -/

namespace Signed64

/-- `q` is the quotient of `a` by `b`, rounded towards zero, and `r` is what remains of `a`. -/
structure IsDivision (a b q r : Int) : Prop where
  eq : a = q * b + r
  remainder_lt : |r| < |b|
  remainder_sign : r = 0 ∨ r.sign = a.sign

theorem isDivision_tdiv {a b : Int} (hb : b ≠ 0) : IsDivision a b (a.tdiv b) (a.tmod b) := by
  refine ⟨(Int.tdiv_mul_add_tmod a b).symm, ?_, ?_⟩
  · rw [Int.abs_eq_natAbs, Int.abs_eq_natAbs, Int.natAbs_tmod, Int.ofNat_lt]
    exact Nat.mod_lt _ (Int.natAbs_pos.2 hb)
  · rw [Int.sign_tmod]
    by_cases hdvd : b ∣ a
    · exact .inl (Int.tmod_eq_zero_of_dvd hdvd)
    · exact .inr (if_neg hdvd)

namespace IsDivision

variable {a b q r : Int}

theorem divisor_ne_zero (h : IsDivision a b q r) : b ≠ 0 := by
  rintro rfl
  exact absurd h.remainder_lt (by simp)

/-- The laws of division determine the quotient. -/
theorem tdiv_eq (h : IsDivision a b q r) : a.tdiv b = q := by
  have hwhole : r + b * q = a := by rw [h.eq, mul_comm b q, add_comm]
  have hlt := h.remainder_lt
  rw [Int.abs_eq_natAbs b, abs_lt] at hlt
  -- the remainder is on the same side of zero as the dividend
  rcases le_total 0 a with ha | ha
  · have hr : 0 ≤ r := by
      rcases h.remainder_sign with rfl | hsign
      · exact le_rfl
      · exact Int.sign_nonneg_iff.1 (hsign ▸ Int.sign_nonneg_iff.2 ha)
    exact ((Int.tdiv_tmod_unique ha h.divisor_ne_zero).2 ⟨hwhole, hr, hlt.2⟩).1
  · have hr : r ≤ 0 := by
      rcases h.remainder_sign with rfl | hsign
      · exact le_rfl
      · exact Int.sign_nonpos_iff.1 (hsign ▸ Int.sign_nonpos_iff.2 ha)
    exact ((Int.tdiv_tmod_unique' ha h.divisor_ne_zero).2 ⟨hwhole, hlt.1, hr⟩).1

end IsDivision

theorem quotient?_eq_some {a b q : Int} : quotient? a b = some q ↔ b ≠ 0 ∧ a.tdiv b = q := by
  by_cases hb : b = 0
  · simp [quotient?, hb]
  · simp [quotient?_eq_tdiv hb, hb]

/-- The quotient is the only integer that satisfies the laws of division. -/
theorem quotient?_eq_some_iff {a b q : Int} :
    quotient? a b = some q ↔ ∃ r, IsDivision a b q r := by
  rw [quotient?_eq_some]
  constructor
  · rintro ⟨hb, rfl⟩
    exact ⟨a.tmod b, isDivision_tdiv hb⟩
  · rintro ⟨r, h⟩
    exact ⟨h.divisor_ne_zero, h.tdiv_eq⟩

/-- The quotient of two integers of 64 bits has 64 bits, except that of the least one by `-1`. -/
theorem inRange_tdiv {a b : Int} (ha : InRange a) (hover : ¬ (a = -2 ^ 63 ∧ b = -1)) :
    InRange (a.tdiv b) := by
  have hnatAbs : (a.tdiv b).natAbs = a.natAbs / b.natAbs := Int.natAbs_tdiv a b
  have hle : (a.tdiv b).natAbs ≤ a.natAbs := Int.natAbs_tdiv_le_natAbs a b
  unfold InRange bound at ha ⊢
  suffices hne : a.tdiv b ≠ 9223372036854775808 by omega
  intro heq
  -- only the least integer is as large, and only a divisor of absolute value 1 leaves it so
  have hleast : a = -9223372036854775808 := by omega
  have hsame : a.natAbs / b.natAbs = a.natAbs := by omega
  have hone : b.natAbs = 1 := (Nat.div_eq_self.1 hsame).resolve_left (by omega)
  rcases Int.natAbs_eq b with hpos | hneg
  · rw [hpos, hone, hleast] at heq
    exact absurd heq (by decide)
  · rw [hone] at hneg
    exact hover ⟨hleast, hneg⟩

end Signed64

/-! ### Operators and operands -/

section

variable {call : CallRule} {frame : FrameId} {left right : Node} {a b : Int}
  {store mid last : Store}

/-- Operands that come to integers are evaluated from left to right, and then the operation. -/
theorem exec_binary_integers (hleft : (left.eval call frame).exec store = (.ok (.integer a), mid))
    (hright : (right.eval call frame).exec mid = (.ok (.integer b), last)) (token : Token)
    (operator : String) :
    ((Node.binary token left operator right).eval call frame).exec store =
      (Eval.integerBinary operator a b).exec last := by
  simp only [Node.eval, EvalM.exec_bind, hleft, hright, Value.isError, Bool.false_eq_true, if_false]
  rfl

theorem exec_negation_integer (hright : (right.eval call frame).exec store = (.ok (.integer b), last))
    (token : Token) :
    ((Node.unary token "-" right).eval call frame).exec store =
      (.ok (.integer (Signed64.wrap (-b))), last) := by
  simp only [Node.eval, EvalM.exec_bind, hright, Value.isError, Bool.false_eq_true, if_false]
  rfl

/-- A name that stands for an integer hides the builtin function that it may be the name of. -/
theorem exec_identifier_integer {ident : Identifier}
    (h : store.lookup frame ident.name = some (.integer a)) (call : CallRule) :
    ((Node.identifier ident).eval call frame).exec store = (.ok (.integer a), store) := by
  simp only [Node.eval, evalName, EvalM.exec_bind, EvalM.exec_lookup, h]
  rfl

end

/-! ### Sums, differences, products -/

open Signed64 (InRange IsDivision wrap quotient?)

/-- The value, without any wrapping, of a tree of sums, differences, products and negations.  Its
leaves are integer literals and names that stand for integers, all of them of 64 bits. -/
inductive Store.ExactValue (store : Store) (frame : FrameId) : Node → Int → Prop
  | literal {token : Token} {n : Int} (hrange : InRange n) :
      ExactValue store frame (.integer token n) n
  | name {ident : Identifier} {n : Int}
      (hlookup : store.lookup frame ident.name = some (.integer n)) (hrange : InRange n) :
      ExactValue store frame (.identifier ident) n
  | negation {token : Token} {right : Node} {b : Int} (hright : ExactValue store frame right b) :
      ExactValue store frame (.unary token "-" right) (-b)
  | sum {token : Token} {left right : Node} {a b : Int} (hleft : ExactValue store frame left a)
      (hright : ExactValue store frame right b) :
      ExactValue store frame (.binary token left "+" right) (a + b)
  | difference {token : Token} {left right : Node} {a b : Int}
      (hleft : ExactValue store frame left a) (hright : ExactValue store frame right b) :
      ExactValue store frame (.binary token left "-" right) (a - b)
  | product {token : Token} {left right : Node} {a b : Int}
      (hleft : ExactValue store frame left a) (hright : ExactValue store frame right b) :
      ExactValue store frame (.binary token left "*" right) (a * b)

/-- **Arithmetic is exact modulo `2 ^ 64`.**  A tree of sums, differences, products and negations
comes to the integer of 64 bits that is congruent to its exact value: it is as if only the last
operation wrapped its result. -/
theorem arithmetic_wraps_once {store : Store} {frame : FrameId} {e : Node} {n : Int}
    (h : store.ExactValue frame e n) (call : CallRule) :
    (e.eval call frame).exec store = (.ok (.integer (wrap n)), store) ∧
      -2 ^ 63 ≤ wrap n ∧ wrap n < 2 ^ 63 ∧ wrap n ≡ n [ZMOD 2 ^ 64] := by
  refine ⟨?_, (Signed64.wrap_mem n).1, (Signed64.wrap_mem n).2, Signed64.wrap_modEq n⟩
  induction h with
  | @literal token n hrange =>
    rw [Signed64.wrap_of_mem hrange]
    rfl
  | name hlookup hrange =>
    rw [Signed64.wrap_of_mem hrange]
    exact exec_identifier_integer hlookup call
  | negation _ ih => rw [exec_negation_integer ih, Signed64.wrap_neg_wrap]
  | sum _ _ ihleft ihright =>
    rw [exec_binary_integers ihleft ihright, ← Signed64.wrap_add_wrap]
    rfl
  | difference _ _ ihleft ihright =>
    rw [exec_binary_integers ihleft ihright, ← Signed64.wrap_sub_wrap]
    rfl
  | product _ _ ihleft ihright =>
    rw [exec_binary_integers ihleft ihright, ← Signed64.wrap_mul_wrap]
    rfl

/-- The negated largest integer, less three times the largest: the product wraps, the difference wraps
once more, and `4` is left of the exact value. -/
theorem arithmetic_wraps_once_largest :
    let store := Store.initial.bind Store.global "most" (.integer (2 ^ 63 - 1))
    let most := Node.identifier ⟨⟨.ident, "most"⟩, "most"⟩
    let triple := Node.binary ⟨.asterisk, "*"⟩ most "*" (.integer ⟨.int, "3"⟩ 3)
    let e := Node.binary ⟨.minus, "-"⟩ (.unary ⟨.minus, "-"⟩ "-" most) "-" triple
    let n := -(2 ^ 63 - 1) - (2 ^ 63 - 1) * 3
    store.ExactValue Store.global e n ∧
      (e.eval MonkeyLang.call Store.global).exec store = (.ok (.integer 4), store) ∧
      -2 ^ 63 ≤ (4 : Int) ∧ (4 : Int) < 2 ^ 63 ∧ 4 ≡ n [ZMOD 2 ^ 64] := by
  intro store most triple e n
  have hlookup : store.lookup Store.global "most" = some (.integer (2 ^ 63 - 1)) := by
    rw [Store.lookup, Store.chain]
    rfl
  have hmost : store.ExactValue Store.global most (2 ^ 63 - 1) := .name hlookup (by decide)
  have h : store.ExactValue Store.global e n :=
    .difference (.negation hmost) (.product hmost (.literal (by decide)))
  have hwrap : wrap n = 4 := by decide
  have hexact := arithmetic_wraps_once h MonkeyLang.call
  rw [hwrap] at hexact
  exact ⟨h, hexact⟩

/-! ### Quotients -/

/-- **Division rounds towards zero.**  For every divisor but zero there is a quotient, and with it a
remainder that is smaller than the divisor and has the sign of the dividend.  Evaluation comes to
this quotient, except that the quotient of the least integer by `-1`, which does not have 64 bits,
wraps to the least integer again.  Division by zero is an error of the language. -/
theorem division_truncates (a b : Int) :
    (∀ q, quotient? a b = some q ↔ ∃ r, IsDivision a b q r) ∧ (b ≠ 0 → (quotient? a b).isSome) ∧
      ∀ {call : CallRule} {frame : FrameId} {left right : Node} {store mid last : Store},
        (left.eval call frame).exec store = (.ok (.integer a), mid) →
        (right.eval call frame).exec mid = (.ok (.integer b), last) → ∀ token : Token,
          (InRange a → ∀ q, quotient? a b = some q →
            ((Node.binary token left "/" right).eval call frame).exec store =
              (.ok (.integer (if a = -2 ^ 63 ∧ b = -1 then -2 ^ 63 else q)), last)) ∧
          (b = 0 → ((Node.binary token left "/" right).eval call frame).exec store =
            (.ok (.error last.nextId .divisionByZero), last.allocate.2)) ∧
          Failure.divisionByZero.message = "division by zero" := by
  refine ⟨fun q => Signed64.quotient?_eq_some_iff, fun hb => ?_, ?_⟩
  · rw [Signed64.quotient?_eq_tdiv hb]
    rfl
  intro call frame left right store mid last hleft hright token
  rw [exec_binary_integers hleft hright, Guard.integerBinary_div]
  refine ⟨fun ha q hq => ?_, fun hb => ?_, rfl⟩
  · obtain ⟨-, rfl⟩ := Signed64.quotient?_eq_some.1 hq
    simp only [hq]
    split_ifs with hover
    · rw [hover.1, hover.2]
      rfl
    · have hrange : InRange (a.tdiv b) := Signed64.inRange_tdiv ha hover
      rw [Signed64.wrap_of_mem hrange]
      rfl
  · subst hb
    rfl

/-- The quotient of `-7` by `2` is `-3`, and `-1` remains. -/
theorem division_truncates_negative :
    let seven := Node.unary ⟨.minus, "-"⟩ "-" (.integer ⟨.int, "7"⟩ 7)
    let two := Node.integer ⟨.int, "2"⟩ 2
    (seven.eval MonkeyLang.call Store.global).exec .initial = (.ok (.integer (-7)), .initial) ∧
      (two.eval MonkeyLang.call Store.global).exec .initial = (.ok (.integer 2), .initial) ∧
      (∃ r, IsDivision (-7) 2 (-3) r) ∧
      ((Node.binary ⟨.slash, "/"⟩ seven "/" two).eval MonkeyLang.call Store.global).exec .initial =
        (.ok (.integer (-3)), .initial) := by
  intro seven two
  obtain ⟨hlaws, -, heval⟩ := division_truncates (-7) 2
  have hquotient : quotient? (-7) 2 = some (-3) := by decide
  have hseven : (seven.eval MonkeyLang.call Store.global).exec .initial =
      (.ok (.integer (-7)), .initial) := rfl
  have htwo : (two.eval MonkeyLang.call Store.global).exec .initial =
      (.ok (.integer 2), .initial) := rfl
  refine ⟨hseven, htwo, (hlaws (-3)).1 hquotient, ?_⟩
  exact (heval hseven htwo ⟨.slash, "/"⟩).1 (by decide) (-3) hquotient

end MonkeyLang
