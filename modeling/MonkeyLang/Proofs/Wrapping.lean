import Mathlib.Data.Int.Bitwise
import Mathlib.Data.Int.ModEq
import MonkeyLang.Signed64

/-!
# Wrapping

`Signed64.wrap` looks at bits: it keeps the last 64 of them and takes the first of these for the
sign.  `wrap_eq` says what this is in terms of residues: the integer of the range that is congruent
modulo `2 ^ 64`.

* `bitAnd_mask` is the step from the mask to the residue, `bitAnd_bound` the one from the bit of the
  sign to a comparison;
* `wrap_mem`, `wrap_of_mem` and `wrap_modEq` characterise wrapping;
* `wrap_congr` says that it depends on the residue alone, so that it may be done late.
-/

namespace MonkeyLang.Signed64

/-! ### Bits -/

/-- The bits that two integers have in common are those of the library. -/
theorem bitAnd_eq_land (a b : Int) : bitAnd a b = a.land b := by
  have hlacks (m n : Nat) : m ^^^ (m &&& n) = m.ldiff n := by
    refine Nat.eq_of_testBit_eq fun i => ?_
    rw [Nat.testBit_xor, Nat.testBit_and, Nat.testBit_ldiff]
    cases m.testBit i <;> cases n.testBit i <;> rfl
  cases a <;> cases b <;> simp only [bitAnd, Int.land, hlacks, Int.ofNat_eq_natCast]

/-- All of the last 64 bits but those of a number. -/
theorem xor_eq_sub {x : Nat} (h : x < 2 ^ 64) : (2 ^ 64 - 1) ^^^ x = 2 ^ 64 - (x + 1) := by
  refine Nat.eq_of_testBit_eq fun i => ?_
  rw [Nat.testBit_xor, Nat.testBit_two_pow_sub_one, Nat.testBit_two_pow_sub_succ h]
  by_cases hi : i < 64
  · simp [hi]
  · have hle : 2 ^ 64 ≤ 2 ^ i := Nat.pow_le_pow_right (by decide) (Nat.not_lt.1 hi)
    simp [hi, Nat.testBit_lt_two_pow (Nat.lt_of_lt_of_le h hle)]

/-- The mask leaves the residue, for negative integers as well. -/
theorem bitAnd_mask (n : Int) : bitAnd n mask = n % modulus := by
  have hmask : mask = .ofNat (2 ^ 64 - 1) := rfl
  have hmodulus : modulus = ((2 ^ 64 : Nat) : Int) := rfl
  rw [hmask, hmodulus]
  cases n with
  | ofNat m =>
    rw [bitAnd, Nat.and_two_pow_sub_one_eq_mod]
    rfl
  | negSucc m =>
    have hlt : m % 2 ^ 64 < 2 ^ 64 := Nat.mod_lt m (by decide)
    rw [bitAnd, Nat.and_comm, Nat.and_two_pow_sub_one_eq_mod, xor_eq_sub hlt, Int.ofNat_eq_natCast]
    omega

/-- Below two to the power of 64 the bit of the sign tells which half an integer is in. -/
theorem bitAnd_bound {n : Nat} (h : n < 2 ^ 64) : bitAnd n bound = 0 ↔ (n : Int) < bound := by
  have hbit : bitAnd n bound = ((n &&& 2 ^ 63 : Nat) : Int) := rfl
  have hbound : bound = ((2 ^ 63 : Nat) : Int) := rfl
  rw [hbit, hbound, Nat.and_two_pow, Nat.testBit_eq_decide_div_mod_eq]
  by_cases hsign : n / 2 ^ 63 % 2 = 1
  · simp only [hsign, decide_true, Bool.toNat_true]
    omega
  · simp only [hsign, decide_false, Bool.toNat_false]
    omega

/-! ### Residues -/

/-- **Wrapping is taking the residue** that is nearest to zero: from the mask and the bit of the
sign follows the integer of the range that is congruent modulo `modulus`. -/
theorem wrap_eq (n : Int) :
    wrap n = if n % modulus < bound then n % modulus else n % modulus - modulus := by
  have hmodulus : modulus = ((2 ^ 64 : Nat) : Int) := rfl
  obtain ⟨bits, hbits⟩ : ∃ bits : Nat, n % modulus = bits :=
    Int.eq_ofNat_of_zero_le (Int.emod_nonneg n (by decide))
  have hlt : bits < 2 ^ 64 := by
    have := Int.emod_lt_of_pos n (show 0 < modulus by decide)
    omega
  simp only [wrap, bitAnd_mask, hbits, ne_eq, bitAnd_bound hlt, ite_not]

/-- Wrapping ends in the range. -/
theorem wrap_mem (n : Int) : -bound ≤ wrap n ∧ wrap n < bound := by
  rw [wrap_eq]
  unfold modulus bound
  split <;> omega

/-- Wrapping changes nothing in the range. -/
theorem wrap_of_mem {n : Int} (h : -bound ≤ n ∧ n < bound) : wrap n = n := by
  rw [wrap_eq]
  unfold bound at h
  unfold modulus bound
  split <;> omega

/-- Wrapping keeps the residue. -/
theorem wrap_modEq (n : Int) : wrap n ≡ n [ZMOD modulus] := by
  rw [Int.ModEq, wrap_eq]
  unfold modulus bound
  split <;> omega

/-- Integers that differ by a multiple of `2 ^ 64` are wrapped to the same one. -/
theorem wrap_congr {m n : Int} (h : m ≡ n [ZMOD modulus]) : wrap m = wrap n := by
  have hresidue : m % modulus = n % modulus := h
  rw [wrap_eq, wrap_eq, hresidue]

theorem wrap_neg_wrap (a : Int) : wrap (-wrap a) = wrap (-a) :=
  wrap_congr (wrap_modEq a).neg

theorem wrap_add_wrap (a b : Int) : wrap (wrap a + wrap b) = wrap (a + b) :=
  wrap_congr ((wrap_modEq a).add (wrap_modEq b))

theorem wrap_sub_wrap (a b : Int) : wrap (wrap a - wrap b) = wrap (a - b) :=
  wrap_congr ((wrap_modEq a).sub (wrap_modEq b))

theorem wrap_mul_wrap (a b : Int) : wrap (wrap a * wrap b) = wrap (a * b) :=
  wrap_congr ((wrap_modEq a).mul (wrap_modEq b))

end MonkeyLang.Signed64
