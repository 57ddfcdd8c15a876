import Mathlib.Data.BitVec
import Mathlib.Tactic.Ring
import SilanKernel.Data.Mask

/-!
# SilanKernel.Kernel.Timer

Times of `kernel/timer.c` that are moved so that timers fire together: `round_jiffies_common` moves
one to a full second and `apply_slack` to a round binary number. **Times are ordered by their
distance on the circle of the 32-bit counter**, as `time_after` has it; `round_jiffies_common`
compares two of them as numbers.

`jiffies` is read once, `HZ` is a parameter. `long` and `int` have 32 bits.
-/

namespace SilanKernel.Timer

open BitVec Nat

/-- `time_after` -/
def timeAfter (a b : BitVec 32) : Bool := (b - a).toInt < 0

theorem timeAfter_iff {a b : BitVec 32} : timeAfter a b = true ↔ 2 ^ 31 ≤ (b - a).toNat := by
  rw [timeAfter, decide_eq_true_iff, toInt_eq_toNat_cond]
  omega

/-! ### Full seconds -/

/-- `round_jiffies_common` -/
def roundJiffiesCommon (hz : Nat) (jiffies j : BitVec 32) (cpu : Nat)
    (forceUp : Bool) : BitVec 32 :=
  let original := j
  let j := j + BitVec.ofNat 32 (cpu * 3)
  let rem := j.toNat % hz
  let j :=
    if rem < hz / 4 ∧ forceUp = false then j - BitVec.ofNat 32 rem
    else j - BitVec.ofNat 32 rem + BitVec.ofNat 32 hz
  let j := j - BitVec.ofNat 32 (cpu * 3)
  -- Rounding ate our timeout entirely.
  if j ≤ jiffies then original else j

variable {jiffies j d : BitVec 32}

theorem roundDown_future_iff (hd : d.toNat < 2 ^ 30) (hj : timeAfter j jiffies = true) :
    timeAfter (if j - d ≤ jiffies then j else j - d) jiffies = true ↔
      ¬(jiffies < j ∧ j.toNat < d.toNat) := by
  rw [timeAfter_iff] at *
  split_ifs <;> bv_omega

theorem roundUp_future (hd : (j - jiffies).toNat + d.toNat < 2 ^ 31)
    (hj : timeAfter j jiffies = true) :
    let r := if j + d ≤ jiffies then j else j + d
    timeAfter r jiffies = true ∧ timeAfter j r = false := by
  simp only [← Bool.not_eq_true, timeAfter_iff] at *
  split_ifs <;> bv_omega

/-- A time in the future stays there, and is not moved back by force, except when it is rounded down
past the zero that the counter has already passed. -/
theorem roundJiffiesCommon_future_iff (hz : Nat) (jiffies j : BitVec 32) (cpu : Nat)
    (forceUp : Bool) (hhz : 0 < hz) (hj : timeAfter j jiffies = true)
    (hroom : (j - jiffies).toNat + hz + 3 * cpu < 2 ^ 31) :
    timeAfter (roundJiffiesCommon hz jiffies j cpu forceUp) jiffies = true ∧
      (forceUp = true → timeAfter j (roundJiffiesCommon hz jiffies j cpu forceUp) = false) ↔
    ¬(forceUp = false ∧ jiffies < j ∧
      ∃ rem, rem = (j + BitVec.ofNat 32 (cpu * 3)).toNat % hz ∧ rem < hz / 4 ∧ j.toNat < rem) := by
  have hrem := mod_lt (j + BitVec.ofNat 32 (cpu * 3)).toNat hhz
  simp only [roundJiffiesCommon, exists_eq_left]
  generalize (j + BitVec.ofNat 32 (cpu * 3)).toNat % hz = rem at *
  generalize BitVec.ofNat 32 (cpu * 3) = skew
  have htoNat : (BitVec.ofNat 32 rem).toNat = rem := mod_eq_of_lt (by omega)
  by_cases hdown : rem < hz / 4 ∧ forceUp = false
  · have hsub : j + skew - BitVec.ofNat 32 rem - skew = j - BitVec.ofNat 32 rem := by ring
    rw [if_pos hdown, hsub, roundDown_future_iff (by omega) hj, htoNat]
    simp [hdown]
  have hadd : j + skew - BitVec.ofNat 32 rem + BitVec.ofNat 32 hz - skew =
      j + (BitVec.ofNat 32 hz - BitVec.ofNat 32 rem) := by ring
  have hup := roundUp_future (d := BitVec.ofNat 32 hz - BitVec.ofNat 32 rem)
    (by clear hdown; bv_omega) hj
  rw [if_neg hdown, hadd]
  exact iff_of_true ⟨hup.1, fun _ => hup.2⟩ fun h => hdown ⟨h.2.2.1, h.1⟩

/-- Across the zero of the counter, from half a second before it. -/
theorem roundJiffiesCommon_future_iff_wrap :
    timeAfter (roundJiffiesCommon 100 0xffffffce 3 2 false) 0xffffffce = true :=
  ((roundJiffiesCommon_future_iff 100 0xffffffce 3 2 false (by decide) (by decide) (by decide)).mpr
    fun h => absurd h.2.1 (by decide)).1

/-- Three ticks after zero, a time five ticks ahead is rounded to one of before zero. -/
theorem roundJiffiesCommon_past : timeAfter 8 3 = true ∧
    roundJiffiesCommon 100 3 8 35 false = 0xfffffffb ∧ timeAfter 0xfffffffb 3 = false := by
  decide

/-! ### Slack -/

/-- `find_last_bit` of one word that is not zero. -/
def findLastBit (word : BitVec 32) : Nat := word.toNat.log2

/-- `apply_slack` from the computation of `mask` on. -/
def slackMask (expires expiresLimit : BitVec 32) : BitVec 32 :=
  let mask := expires ^^^ expiresLimit
  if mask = 0 then expires
  else
    let bit := findLastBit mask
    let mask := (1#32 <<< bit) - 1
    expiresLimit &&& ~~~mask

/-- `apply_slack` -/
def applySlack (jiffies expires slack : BitVec 32) : BitVec 32 :=
  if slack.toInt ≥ 0 then slackMask expires (expires + slack)
  else
    let delta := (expires - jiffies).toInt
    if delta < 256 then expires
    else slackMask expires (expires + BitVec.ofInt 32 (delta / 256))

variable {e l s : BitVec 32}

/-- The bits from the highest one in which the two times differ are those of the limit. -/
theorem toNat_slackMask (h : e ^^^ l ≠ 0) : (slackMask e l).toNat =
    l.toNat / 2 ^ findLastBit (e ^^^ l) * 2 ^ findLastBit (e ^^^ l) := by
  have hne : (e ^^^ l).toNat ≠ 0 := fun h0 => h (eq_of_toNat_eq h0)
  have hpow : 2 ^ findLastBit (e ^^^ l) < 2 ^ 32 :=
    Nat.pow_lt_pow_right (by decide) ((log2_lt hne).mpr (e ^^^ l).isLt)
  have hshift : (1#32 <<< findLastBit (e ^^^ l)).toNat = 2 ^ findLastBit (e ^^^ l) := by
    rw [toNat_shiftLeft, Nat.shiftLeft_eq, show (1#32).toNat = 1 from rfl, Nat.one_mul,
      mod_eq_of_lt hpow]
  rw [slackMask, if_neg h]
  refine Mask.toNat_and_not_mask ?_
  have hpos := Nat.two_pow_pos (findLastBit (e ^^^ l))
  rw [toNat_sub_of_le (by rw [le_def, hshift]; exact hpos), hshift]
  rfl

theorem slackMask_le (hs : s.toNat < 2 ^ 31) : (slackMask e (e + s) - e).toNat ≤ s.toNat := by
  by_cases h : e ^^^ (e + s) = 0
  · simp [slackMask, h]
  have hne : (e ^^^ (e + s)).toNat ≠ 0 := fun h0 => h (eq_of_toNat_eq h0)
  have hr := toNat_slackMask h
  generalize hk : findLastBit (e ^^^ (e + s)) = k at hr
  rw [findLastBit] at hk
  by_cases hwrap : e.toNat + s.toNat < 2 ^ 32
  · -- Above the bit the limit is the larger one.
    have hl : (e + s).toNat = e.toNat + s.toNat := by rw [toNat_add, mod_eq_of_lt hwrap]
    have hdiff : e.toNat / 2 ^ k ≠ (e + s).toNat / 2 ^ k := by
      intro heq
      have hzero : (e ^^^ (e + s)).toNat / 2 ^ k = 0 := by
        rw [toNat_xor, xor_div_two_pow, heq, Nat.xor_self]
      exact absurd (log2_self_le hne) (hk ▸ Nat.not_le.mpr (lt_of_div_eq_zero
        (Nat.two_pow_pos k) hzero))
    have hlt : e.toNat / 2 ^ k < (e + s).toNat / 2 ^ k :=
      Nat.lt_of_le_of_ne (Nat.div_le_div_right (by omega)) hdiff
    have hlo : e.toNat < (slackMask e (e + s)).toNat := by
      rw [hr]
      exact (Nat.div_lt_iff_lt_mul (Nat.two_pow_pos k)).mp hlt
    have hhi : (slackMask e (e + s)).toNat ≤ (e + s).toNat := hr ▸ div_mul_le_self _ _
    bv_omega
  · -- The counter wraps in between: the bit is the sign, and the result is zero.
    have hl : (e + s).toNat = e.toNat + s.toNat - 2 ^ 32 := by bv_omega
    have hbit : 31 ≤ k := by
      have hsign : (e ^^^ (e + s)).toNat / 2 ^ 31 = 1 := by
        rw [toNat_xor, xor_div_two_pow, show e.toNat / 2 ^ 31 = 1 by omega,
          show (e + s).toNat / 2 ^ 31 = 0 by omega]
        rfl
      rw [← hk, le_log2 hne]
      omega
    have hzero : (slackMask e (e + s)).toNat = 0 := by
      rw [hr, div_eq_of_lt, Nat.zero_mul]
      exact Nat.lt_of_lt_of_le (by omega) (Nat.pow_le_pow_right (by decide) hbit)
    bv_omega

theorem slackMask_low (hne : slackMask e l ≠ e) (hi : i < findLastBit (e ^^^ l)) :
    (slackMask e l).getLsbD i = false := by
  have h : e ^^^ l ≠ 0 := fun h0 => hne (if_pos h0)
  rw [getLsbD, toNat_slackMask h, testBit_mul_two_pow, decide_eq_false (by omega), Bool.false_and]

/-- The timer is not brought forward, put off by the slack at most, and to a time whose low bits
are zero. -/
theorem applySlack_spec (jiffies expires slack : BitVec 32) :
    (slack.toInt ≥ 0 → (applySlack jiffies expires slack - expires).toNat ≤ slack.toInt) ∧
      (slack.toInt < 0 → if (expires - jiffies).toInt ≥ 256
        then (applySlack jiffies expires slack - expires).toNat ≤ (expires - jiffies).toInt / 256
        else applySlack jiffies expires slack = expires) ∧
      (applySlack jiffies expires slack ≠ expires → ∀ i, i < findLastBit (expires ^^^ (expires +
        if slack.toInt ≥ 0 then slack else BitVec.ofInt 32 ((expires - jiffies).toInt / 256))) →
          (applySlack jiffies expires slack).getLsbD i = false) := by
  by_cases hslack : slack.toInt ≥ 0
  · have hs : (slack.toNat : Int) = slack.toInt ∧ slack.toNat < 2 ^ 31 := by
      rw [toInt_eq_toNat_cond] at *
      omega
    have hle := @slackMask_le expires _ hs.2
    rw [applySlack, if_pos hslack, if_pos hslack]
    exact ⟨by omega, by omega, fun hne i hi => slackMask_low hne hi⟩
  rw [applySlack, if_neg hslack, if_neg hslack]
  dsimp only
  by_cases hdelta : (expires - jiffies).toInt < 256
  · rw [if_pos hdelta, if_neg (by omega)]
    exact ⟨by omega, fun _ => rfl, absurd rfl⟩
  have hup := @toInt_lt _ (expires - jiffies)
  have hd : ((BitVec.ofInt 32 ((expires - jiffies).toInt / 256)).toNat : Int) =
      (expires - jiffies).toInt / 256 := by
    rw [toNat_ofInt]
    omega
  have hle :=
    @slackMask_le expires (BitVec.ofInt 32 ((expires - jiffies).toInt / 256)) (by omega)
  rw [if_neg hdelta, if_pos (by omega)]
  exact ⟨by omega, by omega, fun hne i hi => slackMask_low hne hi⟩

end SilanKernel.Timer
