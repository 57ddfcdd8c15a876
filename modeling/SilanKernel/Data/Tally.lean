import Mathlib.Algebra.Order.BigOperators.Group.Finset

/-!
# SilanKernel.Data.Tally

**Counting** the positions below a bound that have a property, for arrays that carry the number of
their entries in use.
-/

namespace SilanKernel

open Finset

/-- The number of positions below `n` with a property. -/
def tally (n : Nat) (f : Nat → Bool) : Nat := ∑ i ∈ Finset.range n, (f i).toNat

theorem tally_congr (h : ∀ i < n, f i = g i) : tally n f = tally n g :=
  sum_congr rfl fun i hi => by rw [h i (mem_range.mp hi)]

theorem tally_eq_zero : tally n f = 0 ↔ ∀ i < n, f i = false := by
  simp [tally]

/-- One position is changed. -/
theorem tally_change (hm : m < n) (h : ∀ i < n, i ≠ m → f i = g i) :
    tally n f + (g m).toNat = tally n g + (f m).toNat := by
  have hrest : ∑ i ∈ (range n).erase m, (f i).toNat = ∑ i ∈ (range n).erase m, (g i).toNat := by
    apply sum_congr rfl
    intro i hi
    rw [h i (mem_range.mp (mem_of_mem_erase hi)) (ne_of_mem_erase hi)]
  rw [tally, tally, ← add_sum_erase _ _ (mem_range.mpr hm),
    ← add_sum_erase _ (fun i => (g i).toNat) (mem_range.mpr hm), hrest]
  omega

/-- All positions have it. -/
theorem tally_eq_bound : tally n f = n ↔ ∀ i < n, f i = true := by
  induction n with
  | zero => simp [tally]
  | succ n ih =>
    have hle : tally n f ≤ n := by
      have := sum_le_card_nsmul (range n) (fun i => (f i).toNat) 1 fun i _ => Bool.toNat_le (f i)
      simpa [tally] using this
    have hsucc : tally (n + 1) f = tally n f + (f n).toNat := sum_range_succ ..
    rw [hsucc]
    constructor
    · intro h i hi
      have hlast := Bool.toNat_le (f n)
      rcases Nat.lt_succ_iff_lt_or_eq.mp hi with hlt | rfl
      · exact ih.mp (by omega) i hlt
      cases hf : f i with
      | true => rfl
      | false =>
        rw [hf, Bool.toNat_false] at h
        omega
    · intro h
      rw [ih.mpr fun i hi => h i (Nat.lt_succ_of_lt hi), h n (Nat.lt_succ_self n), Bool.toNat_true]

end SilanKernel
