import Mathlib.Algebra.Order.Ring.Nat

/-!
# SilanKernel.Data.Digits

**Numbers as digits** of `k` bits, for trees that branch on one digit per level.

`digit k h x` is the digit at position `h`, `low k h x` the number its `h` lowest
digits form and `above k h x` the number the others form. A level of a tree splits
its numbers by one digit; the lemmas say what is left below and above it.
-/

namespace SilanKernel

open Nat

def digit (k h x : Nat) : Nat := x / 2 ^ (h * k) % 2 ^ k

def low (k h x : Nat) : Nat := x % 2 ^ (h * k)

def above (k h x : Nat) : Nat := x / 2 ^ (h * k)

theorem digit_lt (k h x : Nat) : digit k h x < 2 ^ k := mod_lt _ (Nat.two_pow_pos k)

theorem low_lt (k h x : Nat) : low k h x < 2 ^ (h * k) := mod_lt _ (Nat.two_pow_pos _)

@[simp] theorem low_zero (k x : Nat) : low k 0 x = 0 := by
  rw [low, zero_mul, pow_zero, mod_one]

theorem pow_succ_mul (k h : Nat) : 2 ^ ((h + 1) * k) = 2 ^ (h * k) * 2 ^ k := by
  rw [succ_mul, pow_add]

theorem low_succ (k h x : Nat) : low k (h + 1) x = low k h x + 2 ^ (h * k) * digit k h x := by
  unfold low digit
  rw [pow_succ_mul, mod_mul]

/-- Two numbers agree on one digit more if they agree on that digit. -/
theorem low_succ_eq_iff :
    low k (h + 1) x = low k (h + 1) y ↔ digit k h x = digit k h y ∧ low k h x = low k h y := by
  rw [low_succ, low_succ]
  constructor
  · intro heq
    have hx := low_lt k h x
    have hy := low_lt k h y
    have hlow : low k h x = low k h y := by
      have := congrArg (· % 2 ^ (h * k)) heq
      simpa [mod_eq_of_lt hx, mod_eq_of_lt hy] using this
    rw [hlow, add_left_cancel_iff] at heq
    exact ⟨Nat.eq_of_mul_eq_mul_left (Nat.two_pow_pos _) heq, hlow⟩
  · rintro ⟨hd, hl⟩
    rw [hd, hl]

theorem low_of_lt (hx : x < 2 ^ (h * k)) : low k h x = x := mod_eq_of_lt hx

theorem digit_of_lt (hx : x < 2 ^ (h * k)) : digit k h x = 0 := by
  rw [digit, div_eq_of_lt hx, zero_mod]

theorem lt_of_digit_eq_zero (hx : x < 2 ^ ((h + 1) * k)) (hd : digit k h x = 0) :
    x < 2 ^ (h * k) := by
  have := low_succ k h x
  rw [low_of_lt hx, hd, mul_zero, add_zero] at this
  rw [this]
  exact low_lt k h x

theorem lt_succ_of_lt (hx : x < 2 ^ (h * k)) : x < 2 ^ ((h + 1) * k) :=
  Nat.lt_of_lt_of_le hx (Nat.pow_le_pow_right Nat.two_pos (Nat.mul_le_mul_right k (le_succ h)))

/-- A level of a tree of digits whose first slot alone is in use: the indices that fit below it go
there. -/
theorem if_level {α : Type} {a b c : α} (hfirst : digit k h x = 0 → a = b)
    (hother : digit k h x ≠ 0 → a = c) :
    (if x < 2 ^ ((h + 1) * k) then a else c) = if x < 2 ^ (h * k) then b else c := by
  by_cases hx : x < 2 ^ (h * k)
  · rw [if_pos hx, if_pos (lt_succ_of_lt hx), hfirst (digit_of_lt hx)]
  · rw [if_neg hx]
    by_cases hx' : x < 2 ^ ((h + 1) * k)
    · rw [if_pos hx', hother fun hd => hx (lt_of_digit_eq_zero hx' hd)]
    · rw [if_neg hx']

/-- The digits above a position, one more of them counted. -/
theorem above_eq (k h x : Nat) : above k h x = above k (h + 1) x * 2 ^ k + digit k h x := by
  unfold above digit
  rw [pow_succ_mul, ← Nat.div_div_eq_div_mul, div_add_mod']

theorem above_succ_of_above (hi : i < 2 ^ k) (h' : above k h x = a * 2 ^ k + i) :
    above k (h + 1) x = a ∧ digit k h x = i := by
  have hd : digit k h x = i := by
    have : digit k h x = above k h x % 2 ^ k := rfl
    rw [this, h', mul_comm, mul_add_mod, mod_eq_of_lt hi]
  rw [above_eq, hd, add_right_cancel_iff] at h'
  exact ⟨eq_of_mul_eq_mul_right (Nat.two_pow_pos k) h', hd⟩

/-- A number with given digits above a position and given ones below it. -/
theorem exists_above_low (k h a x : Nat) : ∃ y, above k h y = a ∧ low k h y = low k h x := by
  refine ⟨2 ^ (h * k) * a + low k h x, ?_, ?_⟩
  · rw [above, mul_add_div (Nat.two_pow_pos _), div_eq_of_lt (low_lt k h x), Nat.add_zero]
  · rw [low, mul_add_mod, mod_eq_of_lt (low_lt k h x)]

/-! ### Another digit -/

/-- `x` with the digit `d` at position `h` and zeros below it. For `d = 2 ^ k` it is the first
number that differs from `x` above the position. -/
def withDigit (k h x d : Nat) : Nat := (above k (h + 1) x * 2 ^ k + d) * 2 ^ (h * k)

theorem above_withDigit (k h x d : Nat) : above k h (withDigit k h x d) = above k
    (h + 1) x * 2 ^ k + d :=
  Nat.mul_div_cancel _ (Nat.two_pow_pos _)

theorem withDigit_digits (hd : d < 2 ^ k) :
    above k (h + 1) (withDigit k h x d) = above k (h + 1) x ∧ digit k h (withDigit k h x d) = d :=
  above_succ_of_above hd (above_withDigit k h x d)

theorem lt_withDigit (hd : digit k h x < d) : x < withDigit k h x d := by
  have hx : x < (above k h x + 1) * 2 ^ (h * k) := by
    rw [mul_comm]
    exact lt_mul_div_succ x (Nat.two_pow_pos _)
  have hle : above k h x + 1 ≤ above k (h + 1) x * 2 ^ k + d := by
    rw [above_eq k h x]
    omega
  exact lt_of_lt_of_le hx (mul_le_mul_right _ hle)

/-- The numbers from `x` up to there agree with `x` above the position. -/
theorem below_withDigit (hxy : x ≤ y) (hy : y < withDigit k h x d) (hd : d ≤ 2 ^ k) :
    above k (h + 1) y = above k (h + 1) x ∧ digit k h x ≤ digit k h y ∧ digit k h y < d := by
  have hle : above k h x ≤ above k h y := Nat.div_le_div_right hxy
  have hlt : above k h y < above k (h + 1) x * 2 ^ k + d :=
    Nat.div_lt_of_lt_mul (by rwa [Nat.mul_comm])
  have hle' : above k (h + 1) x ≤ above k (h + 1) y := Nat.div_le_div_right hxy
  rw [above_eq k h x, above_eq k h y] at hle
  rw [above_eq k h y] at hlt
  have heq : above k (h + 1) y = above k (h + 1) x := by
    by_contra hne
    have hmul : (above k (h + 1) x + 1) * 2 ^ k ≤ above k (h + 1) y * 2 ^ k :=
      mul_le_mul_right _ (by omega)
    rw [add_mul] at hmul
    omega
  rw [heq] at hle hlt
  exact ⟨heq, by omega, by omega⟩

theorem above_lt (hx : x < 2 ^ (H * k)) (hh : h ≤ H) : above k h x < 2 ^ ((H - h) * k) := by
  apply Nat.div_lt_of_lt_mul
  rwa [← Nat.pow_add, ← Nat.add_mul, Nat.add_sub_cancel' hh]

theorem withDigit_le (hx : x < 2 ^ (H * k)) (hh : h < H) (hd : d ≤ 2 ^ k) :
    withDigit k h x d ≤ 2 ^ (H * k) := by
  have habove := above_lt hx (succ_le_of_lt hh)
  calc withDigit k h x d ≤ ((above k (h + 1) x + 1) * 2 ^ k) * 2 ^ (h * k) := by
        apply Nat.mul_le_mul_right
        rw [add_mul]
        omega
    _ ≤ (2 ^ ((H - (h + 1)) * k) * 2 ^ k) * 2 ^ (h * k) :=
        mul_le_mul_right _ (mul_le_mul_right _ habove)
    _ = 2 ^ (H * k) := by
        rw [mul_assoc, mul_comm (2 ^ k), ← pow_succ_mul, ← pow_add, ← add_mul,
          Nat.sub_add_cancel (succ_le_of_lt hh)]

theorem withDigit_lt (hx : x < 2 ^ (H * k)) (hh : h < H) (hd : d < 2 ^ k) :
    withDigit k h x d < 2 ^ (H * k) := by
  have hstep : withDigit k h x d < withDigit k h x (d + 1) :=
    Nat.mul_lt_mul_of_pos_right (lt_succ_self _) (Nat.two_pow_pos _)
  exact lt_of_lt_of_le hstep (withDigit_le hx hh hd)

/-- The next number above all digits. -/
theorem withDigit_top (hx : x < 2 ^ ((h + 1) * k)) : withDigit k h x (2 ^ k) =
    2 ^ ((h + 1) * k) := by
  rw [withDigit, above, div_eq_of_lt hx, zero_mul, zero_add, pow_succ_mul, mul_comm]

end SilanKernel
