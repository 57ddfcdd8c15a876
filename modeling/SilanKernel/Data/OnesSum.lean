import Mathlib.Data.Nat.ModEq

/-!
# SilanKernel.Data.OnesSum

**Ones' complement sums.**

Adding words with the carry brought around to the lowest bit computes modulo one less than a power
of two. There are two numbers for the residue zero; the sum never becomes the smaller one unless all
that was added is zero. `StandsFor m x S` states both.
-/

namespace SilanKernel

open Nat

/-- `x` is a ones' complement form of the sum `S`. -/
structure StandsFor (m x S : Nat) : Prop where
  modEq : x ≡ S [MOD m]
  zero : x = 0 ↔ S = 0

namespace StandsFor

theorem refl (m S : Nat) : StandsFor m S S := ⟨Nat.ModEq.refl S, Iff.rfl⟩

theorem trans (h : StandsFor m x y) (h' : StandsFor m y S) : StandsFor m x S :=
  ⟨h.modEq.trans h'.modEq, h.zero.trans h'.zero⟩

theorem symm (h : StandsFor m x S) : StandsFor m S x := ⟨h.modEq.symm, h.zero.symm⟩

theorem add (h : StandsFor m x S) (h' : StandsFor m y T) : StandsFor m (x + y) (S + T) := by
  refine ⟨h.modEq.add h'.modEq, ?_⟩
  rw [Nat.add_eq_zero_iff, Nat.add_eq_zero_iff, h.zero, h'.zero]

theorem add_right (h : StandsFor m x S) (y : Nat) : StandsFor m (x + y) (S + y) := h.add (refl m y)

theorem mul_left (c : Nat) (h : StandsFor m x S) : StandsFor m (c * x) (c * S) := by
  refine ⟨h.modEq.mul_left c, ?_⟩
  rw [mul_eq_zero, mul_eq_zero, h.zero]

theorem of_dvd (hn : n ∣ m) (h : StandsFor m x S) : StandsFor n x S := ⟨h.modEq.of_dvd hn, h.zero⟩

theorem two_pow_modEq (k : Nat) : 2 ^ k ≡ 1 [MOD 2 ^ k - 1] :=
  Nat.modEq_sub (Nat.two_pow_pos k)

/-- The upper part brought around to the lower one. -/
theorem fold (k x : Nat) : StandsFor (2 ^ k - 1) (x % 2 ^ k + x / 2 ^ k) x := by
  have hdiv : x % 2 ^ k + 2 ^ k * (x / 2 ^ k) = x := Nat.mod_add_div x (2 ^ k)
  constructor
  · have hmul : 2 ^ k * (x / 2 ^ k) ≡ x / 2 ^ k [MOD 2 ^ k - 1] := by
      have := (two_pow_modEq k).mul_right (x / 2 ^ k)
      rwa [Nat.one_mul] at this
    have hsum := (Nat.ModEq.refl (x % 2 ^ k)).add hmul
    rw [hdiv] at hsum
    exact hsum.symm
  · constructor
    · intro h
      obtain ⟨hmod, hquot⟩ := Nat.add_eq_zero_iff.mp h
      rw [hmod, hquot] at hdiv
      exact hdiv.symm
    · intro h
      rw [h, Nat.zero_mod, Nat.zero_div]

/-- Up to `m` there is one form of a sum. -/
theorem unique (hx : x ≤ m) (hy : y ≤ m) (h : StandsFor m x S) (h' : StandsFor m y S) : x = y := by
  have hzero : x = 0 ↔ y = 0 := h.zero.trans h'.zero.symm
  have hmod : x % m = y % m := h.modEq.trans h'.modEq.symm
  rcases lt_or_eq_of_le hx with hlt | rfl
  · rcases lt_or_eq_of_le hy with hlt' | rfl
    · rwa [mod_eq_of_lt hlt, mod_eq_of_lt hlt'] at hmod
    · rw [mod_eq_of_lt hlt, mod_self] at hmod
      rw [hmod, hzero.mp hmod]
  · rcases lt_or_eq_of_le hy with hlt' | heq
    · rw [mod_self, mod_eq_of_lt hlt'] at hmod
      rw [← hmod, hzero.mpr hmod.symm]
    · exact heq.symm

end StandsFor

end SilanKernel
