import SilanKernel.Csky.Alignment
import Mathlib.Data.List.Basic
import Mathlib.Tactic.IntervalCases

/-!
# SilanKernel.Csky.AlignmentBytes

The byte-wise accesses of the alignment trap: a load assembles the word the memory
holds in the machine's byte order (`wordAt`, `halfAt`), a store writes it (`stored`),
and a load that meets an unreadable byte anywhere fails.
-/

namespace SilanKernel.Csky

open BitVec

variable {a : Addr} {env : TrapEnv} {n j : Nat}

/-! ### Memory in the machine's byte order -/

/-- The halfword at `a`, extended with zeros. -/
def halfAt (be : Bool) (mem : Addr → BitVec 8) (a : Addr) : BitVec 32 :=
  ((if be then mem a ++ mem (a + 1) else mem (a + 1) ++ mem a) : BitVec 16).setWidth 32

/-- The word at `a`. -/
def wordAt (be : Bool) (mem : Addr → BitVec 8) (a : Addr) : BitVec 32 :=
  if be then mem a ++ mem (a + 1) ++ mem (a + 2) ++ mem (a + 3)
  else mem (a + 3) ++ mem (a + 2) ++ mem (a + 1) ++ mem a

/-- The byte at offset `j` of a unit of `n` bytes with the value `v`. -/
def byteOf (be : Bool) (n : Nat) (v : BitVec 32) (j : Nat) : BitVec 8 :=
  v.extractLsb' (8 * (if be then n - 1 - j else j)) 8

/-- The memory after the low `n` bytes of `v` have been stored at `a`. -/
def stored (be : Bool) (n : Nat) (v : BitVec 32) (a : Addr) (mem : Addr → BitVec 8) :
    Addr → BitVec 8 :=
  fun b => if (b - a).toNat < n then byteOf be n v (b - a).toNat else mem b

namespace TrapEnv

/-- The `n` bytes at `a` can be read. -/
def Reads (env : TrapEnv) (a : Addr) (n : Nat) : Prop :=
  ∀ j, j < n → env.readable (a + BitVec.ofNat 32 j) = true

/-- The `n` bytes at `a` can be written. -/
def Writes (env : TrapEnv) (a : Addr) (n : Nat) : Prop :=
  ∀ j, j < n → env.writable (a + BitVec.ofNat 32 j) = true

instance (env : TrapEnv) (a : Addr) (n : Nat) : Decidable (env.Reads a n) :=
  inferInstanceAs (Decidable (∀ j, j < n → _))

/-- Access to `n + 1` bytes is access to the first and to the `n` after it. -/
theorem forall_lt_succ_iff {f : Addr → Bool} :
    (∀ j, j < n + 1 → f (a + BitVec.ofNat 32 j) = true) ↔
      f a = true ∧ ∀ j, j < n → f (a + 1 + BitVec.ofNat 32 j) = true := by
  constructor
  · intro h
    constructor
    · have h0 := h 0 (Nat.succ_pos n)
      rwa [show a + 0#32 = a from BitVec.add_zero a] at h0
    · intro j hj
      rw [addr_succ]
      exact h (j + 1) (Nat.succ_lt_succ hj)
  · rintro ⟨h0, hs⟩ j hj
    cases j with
    | zero => rwa [show a + 0#32 = a from BitVec.add_zero a]
    | succ j =>
      rw [← addr_succ]
      exact hs j (Nat.lt_of_succ_lt_succ hj)

theorem reads_succ : env.Reads a (n + 1) ↔ env.readable a = true ∧ env.Reads (a + 1) n :=
  forall_lt_succ_iff

theorem writes_succ : env.Writes a (n + 1) ↔ env.writable a = true ∧ env.Writes (a + 1) n :=
  forall_lt_succ_iff

/-! ### Loads -/

/-- The bytes from `a` on, each at its shift. -/
def gather (mem : Addr → BitVec 8) : List Nat → Addr → BitVec 32 → BitVec 32
  | [], _, val => val
  | shift :: shifts, a, val => gather mem shifts (a + 1) (val ||| (mem a).setWidth 32 <<< shift)

/-- Once the error flag is set it stays set. -/
theorem getBytes_err (env : TrapEnv) (mem : Addr → BitVec 8) (shifts : List Nat) (a : Addr)
    (val : BitVec 32) :
    env.getBytes mem shifts a true val = none := by
  induction shifts generalizing a val with
  | nil => rfl
  | cons shift shifts ih =>
    simp only [getBytes, get8]
    split
    · exact ih _ _
    · exact ih _ _

theorem getBytes_eq (env : TrapEnv) (mem : Addr → BitVec 8) (shifts : List Nat) (a : Addr)
    (val : BitVec 32) :
    env.getBytes mem shifts a false val =
      if env.Reads a shifts.length then some (gather mem shifts a val) else none := by
  induction shifts generalizing a val with
  | nil =>
    have h : env.Reads a 0 := fun j hj => absurd hj (Nat.not_lt_zero j)
    exact (if_pos h).symm
  | cons shift shifts ih =>
    simp only [getBytes, get8, List.length_cons, reads_succ]
    cases hr : env.readable a with
    | true =>
      simp only [if_true, ih, true_and]
      rfl
    | false =>
      simp only [Bool.false_eq_true, if_false, false_and]
      exact getBytes_err env mem shifts a _

theorem getUnaligned_eq (env : TrapEnv) (shifts : List Nat) (a : Addr) (t : Trapped) :
    env.getUnaligned shifts a t =
      if env.Reads a shifts.length then .ok (gather t.mem shifts a 0) t else .error () t := by
  simp only [getUnaligned, getBytes_eq]
  by_cases h : env.Reads a shifts.length
  · simp only [if_pos h]
  · simp only [if_neg h]

theorem append_eq_or (b c : BitVec 8) :
    (b ++ c : BitVec 16).setWidth 32 = b.setWidth 32 <<< 8 ||| c.setWidth 32 := by
  apply eq_of_getLsbD_eq
  intro k hk
  have h : (b ++ c).getLsbD k = _ := getLsbD_append
  simp only [getLsbD_or, getLsbD_shiftLeft, getLsbD_setWidth, hk, decide_true, Bool.true_and]
  apply h.trans
  grind

theorem append_eq_or_or (b c d e : BitVec 8) :
    (b ++ c ++ d ++ e : BitVec 32) =
      b.setWidth 32 <<< 24 ||| c.setWidth 32 <<< 16 ||| d.setWidth 32 <<< 8 ||| e.setWidth 32 := by
  apply eq_of_getLsbD_eq
  intro k hk
  have h : (b ++ c ++ d ++ e).getLsbD k = _ := getLsbD_append
  apply h.trans
  simp only [getLsbD_append, getLsbD_or, getLsbD_shiftLeft, getLsbD_setWidth, hk,
    decide_true, Bool.true_and]
  grind

theorem or_reverse (x y z w : BitVec 32) : x ||| y ||| z ||| w = w ||| z ||| y ||| x := by
  ac_rfl

theorem gather_half (be : Bool) (mem : Addr → BitVec 8) (a : Addr) :
    gather mem (if be then [8, 0] else [0, 8]) a 0 = halfAt be mem a := by
  cases be with
  | true => simp [gather, halfAt, append_eq_or]
  | false => simp [gather, halfAt, append_eq_or, BitVec.or_comm]

theorem gather_word (be : Bool) (mem : Addr → BitVec 8) (a : Addr) :
    gather mem (if be then [24, 16, 8, 0] else [0, 8, 16, 24]) a 0 = wordAt be mem a := by
  have h2 : a + 1 + 1 = a + 2 := addr_add a 1 1
  have h3 : a + 2 + 1 = a + 3 := addr_add a 2 1
  have h0 : ∀ x : BitVec 32, 0 ||| x = x := fun _ => zero_or
  cases be with
  | true =>
    rw [if_pos rfl, wordAt, if_pos rfl, append_eq_or_or]
    simp only [gather, h2, h3, h0, shiftLeft_zero]
  | false =>
    rw [if_neg Bool.false_ne_true, wordAt, if_neg Bool.false_ne_true, append_eq_or_or]
    simp only [gather, h2, h3, h0, shiftLeft_zero]
    exact or_reverse _ _ _ _

theorem get16_eq (env : TrapEnv) (a : Addr) (t : Trapped) :
    env.get16 a t = if env.Reads a 2 then .ok (halfAt env.be t.mem a) t else .error () t := by
  rw [get16, getUnaligned_eq, gather_half]
  cases env.be <;> rfl

theorem get32_eq (env : TrapEnv) (a : Addr) (t : Trapped) :
    env.get32 a t = if env.Reads a 4 then .ok (wordAt env.be t.mem a) t else .error () t := by
  rw [get32, getUnaligned_eq, gather_word]
  cases env.be <;> rfl

/-! ### Stores -/

/-- A store that goes through puts the bytes in the order `nextByte` brings them. -/
theorem putBytes_eq (hn : n ≤ 2 ^ 32) (h : env.Writes a n) (mem : Addr → BitVec 8) (v : BitVec 32) :
    env.putBytes n mem v a =
      (fun b => if (b - a).toNat < n then (env.nextByte^[(b - a).toNat] v).setWidth 8 else
      mem b, true) := by
  induction n generalizing a mem v with
  | zero => rfl
  | succ n ih =>
    obtain ⟨hw, hws⟩ := writes_succ.mp h
    rw [putBytes, if_pos hw, ih (by omega) hws]
    congr 1
    funext b
    by_cases hb : b = a
    · subst hb
      have h1 : (b - (b + 1)).toNat = 2 ^ 32 - 1 := by bv_omega
      have h0 : (b - b).toNat = 0 := by bv_omega
      rw [if_neg (by omega), if_pos (by omega), Function.update_self, h0]
      rfl
    · have hs : (b - a).toNat = (b - (a + 1)).toNat + 1 := by bv_omega
      rw [Function.update_of_ne hb, hs, Function.iterate_succ_apply]
      simp

theorem byteOf_eq (env : TrapEnv) (v : BitVec 32) (hn : n = 2 ∨ n = 4) (hj : j < n) :
    (env.nextByte^[j] (if env.be then v.rotateRight (8 * (n - 1)) else v)).setWidth 8 =
      byteOf env.be n v j := by
  apply eq_of_getLsbD_eq
  intro k hk
  have h : (n = 2 ∨ n = 4) ∧ (j = 0 ∨ j = 1) ∨ n = 4 ∧ (j = 2 ∨ j = 3) := by omega
  cases hbe : env.be <;> obtain ⟨rfl | rfl, rfl | rfl⟩ | ⟨rfl, rfl | rfl⟩ := h <;>
    simp [nextByte, byteOf, getLsbD_rotateRight] <;> grind

/-- `put16` and `put32` -/
theorem put_eq (hn : n = 2 ∨ n = 4) (h : env.Writes a n) (v : BitVec 32) (t : Trapped) :
    env.putUnaligned n (if env.be then v.rotateRight (8 * (n - 1)) else v) a t =
      .ok () { t with mem := stored env.be n v a t.mem } := by
  simp only [putUnaligned, putBytes_eq (show n ≤ 2 ^ 32 by omega) h]
  congr 2
  funext b
  exact ite_congr rfl (byteOf_eq env v hn) fun _ => rfl

end TrapEnv

/-! ### A word and its bytes -/

theorem byteOf_wordAt (be : Bool) (mem : Addr → BitVec 8) (a : Addr) (hj : j < 4) :
    byteOf be 4 (wordAt be mem a) j = mem (a + BitVec.ofNat 32 j) := by
  apply eq_of_getLsbD_eq
  intro k hk
  have h : j = 0 ∨ j = 1 ∨ j = 2 ∨ j = 3 := by omega
  cases be <;> obtain rfl | rfl | rfl | rfl := h <;>
    simp [byteOf, wordAt, TrapEnv.append_eq_or_or] <;> grind

theorem eq_of_byteOf_eq (h : ∀ j, j < 4 → byteOf be 4 v j = byteOf be 4 w j) : v = w := by
  apply eq_of_getLsbD_eq
  intro k hk
  have hj := h (if be then 3 - k / 8 else k / 8) (by split_ifs <;> omega)
  have hbit := congrArg (·.getLsbD (k % 8)) hj
  have hidx : 8 * (if be then 4 - 1 - (if be then 3 - k / 8 else k / 8) else
      (if be then 3 - k / 8 else k / 8)) + k % 8 = k := by
    split_ifs <;> omega
  simp only [byteOf, getLsbD_extractLsb', hidx, Nat.mod_lt k (show 8 > 0 by decide), decide_true,
    Bool.true_and] at hbit
  exact hbit

theorem wordAt_eq_iff :
    wordAt be mem a = w ↔ ∀ j, j < 4 → mem (a + BitVec.ofNat 32 j) = byteOf be 4 w j := by
  constructor
  · intro h j hj
    rw [← h, byteOf_wordAt be mem a hj]
  · intro h
    apply eq_of_byteOf_eq
    intro j hj
    rw [byteOf_wordAt be mem a hj, h j hj]

end SilanKernel.Csky
