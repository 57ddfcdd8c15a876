import Mathlib.Data.List.Basic

/-!
# SilanKernel.Data.Sweep

**Post-tested loops with a stride**, `do { … cursor += stride } while (cursor < stop)`.

`turns stride start stop` is how often such a loop runs its body, at least once. The lemmas
say at which cursors it runs and that every block of `stride` bytes between the ends of the
sweep meets one of them. A sweep over a cyclic buffer sees the ends of its range modulo the
size; the last lemma says which remainders the range then has.
-/

namespace SilanKernel.Sweep

open Nat

/-- The number of turns of a post-tested loop. -/
def turns (stride start stop : Nat) : Nat := (stop - start - 1) / stride + 1

theorem turns_pos (stride start stop : Nat) : 0 < turns stride start stop := succ_pos _

theorem turns_of_le (hpos : 0 < stride) (h : stop ≤ start + stride) :
    turns stride start stop = 1 := by
  rw [turns, div_eq_of_lt (by omega)]

theorem turns_of_lt (hpos : 0 < stride) (h : start + stride < stop) :
    turns stride start stop = turns stride (start + stride) stop + 1 := by
  have hrest : stop - start - 1 = stop - (start + stride) - 1 + stride := by omega
  rw [turns, turns, hrest, add_div_right _ hpos]

theorem turns_add_left (c : Nat) : turns stride (c + start) (c + stop) =
    turns stride start stop := by
  rw [turns, turns, Nat.add_sub_add_left]

/-- Another cursor that moves with the first makes as many turns. -/
theorem turns_shift (d : Nat) : turns stride d (d + (stop - start)) = turns stride start stop := by
  rw [turns, turns, Nat.add_sub_cancel_left]

/-- The body runs at the first cursor, and at every later one that is below `stop`. -/
theorem lt_turns_iff (hpos : 0 < stride) : j < turns stride start stop ↔ j = 0 ∨
    start + j * stride < stop := by
  rw [turns, Nat.lt_succ_iff, Nat.le_div_iff_mul_le hpos]
  have hzero : j = 0 ↔ j * stride = 0 := by
    rw [Nat.mul_eq_zero]
    omega
  omega

/-- A sweep meets the block it starts in, and a later one if it does not stop before its own
place in that block. -/
theorem exists_turn_in_block (hpos : 0 < stride) (hstart : start / stride ≤ a / stride)
    (hstop : a / stride = start / stride ∨ a / stride * stride + start % stride < stop) :
    ∃ j < turns stride start stop, (start + j * stride) / stride = a / stride := by
  refine ⟨a / stride - start / stride, ?_, ?_⟩
  · rw [lt_turns_iff hpos]
    have hdiv := div_add_mod' start stride
    have hmul := Nat.mul_le_mul_right stride hstart
    rw [Nat.sub_mul]
    omega
  · rw [add_mul_div_right _ _ hpos]
    omega

theorem add_mod_of_lt {w x v : Nat} (hv : v < w) :
    (x + v) % w = if w ≤ x % w + v then x % w + v - w else x % w + v := by
  rw [add_mod_eq_ite, mod_eq_of_lt hv]

theorem add_div_eq_iff (hw : 0 < w) : (x + v) / w = x / w ↔ x % w + v < w := by
  have hdiv : (x + v) / w = x / w + (x % w + v) / w := by
    conv_lhs => rw [← div_add_mod x w, Nat.add_assoc, mul_add_div hw]
  rw [hdiv, Nat.add_eq_left, Nat.div_eq_zero_iff]
  omega

theorem add_mod_of_lt_two_mul (hv : v < 2 * w) : (x + v) % w =
      if x % w + v < w then x % w + v else if x % w + v < 2 * w then x % w + v - w else
      x % w + v - 2 * w := by
  have hx := mod_lt x (show 0 < w by omega)
  rw [← mod_add_mod]
  generalize x % w = s at hx ⊢
  split
  · exact mod_eq_of_lt ‹_›
  · split
    · rw [mod_eq_sub_mod (by omega), mod_eq_of_lt (by omega)]
    · rw [mod_eq_sub_mod (by omega), mod_eq_sub_mod (by omega), mod_eq_of_lt (by omega)]
      omega

/-- The numbers of a range that is shorter than `w`, modulo `w`: between the ends, or outside
them when the range passes a multiple of `w`. -/
theorem mod_of_mem_range {w x y z : Nat} (hle : x ≤ z) (hlt : z < y) (hlen : y - x < w) :
    x % w ≤ z % w ∧ z % w < y % w ∨ y % w < x % w ∧ (x % w ≤ z % w ∨ z % w < y % w) := by
  obtain ⟨t, rfl⟩ := Nat.exists_eq_add_of_le hle
  obtain ⟨u, rfl⟩ := Nat.exists_eq_add_of_le (Nat.le_of_lt (Nat.lt_of_le_of_lt hle hlt))
  rw [add_mod_of_lt (show t < w by omega), add_mod_of_lt (show u < w by omega)]
  split <;> split <;> omega

/-- A range that passes a multiple of `w` has all remainders outside its ends. -/
theorem exists_mem_range_mod {w x y r : Nat} (hle : x ≤ y) (hlen : y - x < w)
    (hwrap : y % w < x % w) (hr : x % w ≤ r ∧ r < w ∨ r < y % w) : ∃ z, x ≤ z ∧ z < y ∧
    z % w = r := by
  obtain ⟨u, rfl⟩ := Nat.exists_eq_add_of_le hle
  have hx := mod_lt x (show 0 < w by omega)
  rw [add_mod_of_lt (show u < w by omega)] at hwrap hr
  have hu : w ≤ x % w + u := by
    by_contra hu
    rw [if_neg hu] at hwrap
    omega
  rw [if_pos hu] at hwrap hr
  rcases hr with ⟨hge, hlt⟩ | hlt
  · refine ⟨x + (r - x % w), by omega, by omega, ?_⟩
    rw [add_mod_of_lt (by omega), if_neg (by omega)]
    omega
  · refine ⟨x + (w + r - x % w), by omega, by omega, ?_⟩
    rw [add_mod_of_lt (by omega), if_pos (by omega)]
    omega

end SilanKernel.Sweep
