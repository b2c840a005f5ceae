/-!
# Arithmetic in 64 bits

Integers of the language are signed and have 64 bits.  They are kept as integers from `-bound` up to
but not including `bound`, which is two to the power of 63; the results of operations are brought
back into this range by `wrap`.

* `wrap` keeps the last 64 bits of an integer, and takes the first of them for its sign;
* `quotient?` is division rounded towards zero, `none` for a zero divisor.

`quotient?_eq_tdiv` names the quotient.
-/

namespace MonkeyLang.Signed64

/-- Two to the power of 63, the first integer above the range. -/
def bound : Int := 9223372036854775808

/-- Two to the power of 64, the number of integers in the range. -/
def modulus : Int := 18446744073709551616

/-- The integer with the last 64 bits and no others. -/
def mask : Int := modulus - 1

/-- The bits that two integers have in common.  A negative integer has all bits but those of its
complement, infinitely many. -/
def bitAnd : Int → Int → Int
  | .ofNat m, .ofNat n => .ofNat (m &&& n)
  | .ofNat m, .negSucc n => .ofNat (m ^^^ (m &&& n))
  | .negSucc m, .ofNat n => .ofNat (n ^^^ (n &&& m))
  | .negSucc m, .negSucc n => .negSucc (m ||| n)

/-- The integer of the range with the same last 64 bits. -/
def wrap (n : Int) : Int :=
  let bits := bitAnd n mask
  if bitAnd bits bound ≠ 0 then bits - modulus else bits

/-- The quotient without its fractional part; there is none for a zero divisor. -/
def quotient? (a b : Int) : Option Int :=
  if b = 0 then none
  else
    let magnitude : Int := (a.natAbs / b.natAbs : Nat)
    some (if a < 0 ↔ b < 0 then magnitude else -magnitude)

/-- The quotient is the one that truncates. -/
theorem quotient?_eq_tdiv {a b : Int} (h : b ≠ 0) : quotient? a b = some (a.tdiv b) := by
  unfold quotient?
  rw [if_neg h]
  refine congrArg some ?_
  rcases Int.natAbs_eq a with ha | ha <;> rcases Int.natAbs_eq b with hb | hb
  all_goals
    generalize a.natAbs = m at ha
    generalize b.natAbs = n at hb
    subst ha hb
    have hq : ((m / n : Nat) : Int) = (m : Int).tdiv n := Int.ofNat_tdiv m n
    simp only [Int.neg_tdiv, Int.tdiv_neg, ← hq]
    rcases Nat.eq_zero_or_pos m with rfl | hm
    · simp
    · generalize m / n = q
      split <;> omega

end MonkeyLang.Signed64
