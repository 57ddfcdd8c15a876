import Mathlib.Data.Nat.Bitwise

/-!
# SilanKernel.Data.Mask

Words that are masked with a block of low bits, or with its complement: **how the mask of a
power of two reads as arithmetic**.

A mask is any word whose value is one less than a power of two. The lemmas say that
`x & mask` is a remainder, that `x & ~mask` rounds down, and that `x | base` is a sum when
`base` is a multiple of the power and `x` is below it.
-/

namespace SilanKernel.Mask

open BitVec Nat

variable {k : Nat} {m x b : BitVec w}

/-- `x & mask` -/
theorem toNat_and_mask (hm : m.toNat = 2 ^ k - 1) : (x &&& m).toNat = x.toNat % 2 ^ k := by
  rw [toNat_and, hm, and_two_pow_sub_one_eq_mod]

/-- A mask and its complement take a word apart. -/
theorem and_mask_add_and_not (x m : BitVec w) : (x &&& m).toNat + (x &&& ~~~m).toNat = x.toNat := by
  have hdisjoint : (x &&& m) &&& (x &&& ~~~m) = 0#w := by
    ext i
    simp only [getElem_and, getElem_not, getElem_zero]
    cases x[i] <;> cases m[i] <;> rfl
  have hjoin : (x &&& m) ||| (x &&& ~~~m) = x := by
    ext i
    simp only [getElem_or, getElem_and, getElem_not]
    cases x[i] <;> cases m[i] <;> rfl
  rw [← toNat_add_of_and_eq_zero hdisjoint, add_eq_or_of_and_eq_zero _ _ hdisjoint, hjoin]

/-- `x & ~mask` -/
theorem toNat_and_not_mask (hm : m.toNat = 2 ^ k - 1) :
    (x &&& ~~~m).toNat = x.toNat / 2 ^ k * 2 ^ k := by
  have hparts := and_mask_add_and_not x m
  have hdiv := mod_add_div x.toNat (2 ^ k)
  rw [toNat_and_mask hm] at hparts
  rw [mul_comm]
  omega

/-- `x | base` -/
theorem toNat_or_base (hb : 2 ^ k ∣ b.toNat) (hx : x.toNat < 2 ^ k) :
    (x ||| b).toNat = b.toNat + x.toNat := by
  obtain ⟨c, hc⟩ := hb
  rw [toNat_or, lor_comm, hc, ← two_pow_add_eq_or_of_lt hx c]

/-- A remainder that is rounded down keeps only the bits between the two powers. -/
theorem mod_div_mul_of_le (h : i ≤ k) (n : Nat) :
    n / 2 ^ i * 2 ^ i % 2 ^ k = n % 2 ^ k / 2 ^ i * 2 ^ i := by
  obtain ⟨j, rfl⟩ := Nat.exists_eq_add_of_le h
  rw [Nat.pow_add, Nat.mul_comm (n / 2 ^ i), Nat.mul_mod_mul_left, Nat.mod_mul_right_div_self,
    Nat.mul_comm]

end SilanKernel.Mask
