import SilanKernel.Csky.Checksum
import SilanKernel.Data.Mask

/-!
# SilanKernel.Csky.ChecksumSound

What the checksum functions compute.

`do_csum` may start at any address and brings its carries around late; its result is nevertheless
**the 16-bit ones' complement sum of the words of the buffer**, with bytes exchanged twice where the
buffer starts at an odd address. The two versions of `csum_ipv6_magic` agree on few inputs, and a
condition on the plain sum of the arguments says on which.
-/

namespace SilanKernel.Csky

open List BitVec Nat StandsFor

variable {mem : Addr → BitVec 8} {buff : Addr} {sum : BitVec 32}

/-! ### Words as numbers -/

theorem toNat_load8 (a : Addr) : (load8 mem a).toNat = (mem a).toNat := by
  rw [load8, toNat_setWidth, mod_eq_of_lt]
  omega

theorem toNat_load16 (a : Addr) :
    (load16 mem a).toNat = (mem a).toNat + 256 * (mem (a + 1)).toNat := by
  rw [load16, toNat_setWidth, toNat_append_add]
  omega

theorem toNat_load32 (a : Addr) : (load32 mem a).toNat =
    (mem a).toNat + 256 * (mem (a + 1)).toNat + 65536 *
    ((mem (a + 2)).toNat + 256 * (mem (a + 3)).toNat) := by
  rw [load32, toNat_append_add, toNat_append_add, toNat_append_add]
  omega

theorem toNat_and_ffff (x : BitVec 32) : (x &&& 0xffff#32).toNat = x.toNat % 2 ^ 16 :=
  Mask.toNat_and_mask rfl

theorem toNat_addHalves (x : BitVec 32) :
    (addHalves x).toNat = x.toNat % 2 ^ 16 + x.toNat / 2 ^ 16 := by
  rw [addHalves, toNat_add, toNat_and_ffff, toNat_ushiftRight, shiftRight_eq_div_pow]
  omega

theorem from32to16_spec (x : BitVec 32) : StandsFor 0xffff (from32to16 x).toNat x.toNat := by
  have hle : (addHalves (addHalves x)).toNat < 2 ^ 16 := by
    rw [toNat_addHalves, toNat_addHalves]
    omega
  rw [from32to16, toNat_setWidth, mod_eq_of_lt hle, toNat_addHalves]
  apply (StandsFor.fold 16 _).trans
  rw [toNat_addHalves]
  exact StandsFor.fold 16 x.toNat

theorem toNat_swapBytes (hx : x.toNat < 2 ^ 16) :
    (swapBytes x).toNat = x.toNat / 256 + 256 * (x.toNat % 256) := by
  have hlow : ((x &&& 0xff#32) <<< 8).toNat = (x.toNat % 256) <<< 8 := by
    rw [toNat_shiftLeft, Mask.toNat_and_mask (k := 8) rfl, Nat.shiftLeft_eq]
    omega
  have hhigh : ((x >>> 8) &&& 0xff#32).toNat = x.toNat / 256 := by
    rw [Mask.toNat_and_mask (k := 8) rfl, toNat_ushiftRight, shiftRight_eq_div_pow]
    omega
  rw [swapBytes, toNat_or, hlow, hhigh, Nat.or_comm, ← shiftLeft_add_eq_or_of_lt (by omega),
    Nat.shiftLeft_eq]
  omega

theorem swapBytes_spec (hx : x.toNat < 2 ^ 16) : StandsFor 0xffff (swapBytes x).toNat
    (256 * x.toNat) := by
  rw [toNat_swapBytes hx]
  have hfold := StandsFor.fold 16 (256 * x.toNat)
  rwa [show 256 * x.toNat % 2 ^ 16 + 256 * x.toNat / 2 ^ 16 =
    x.toNat / 256 + 256 * (x.toNat % 256) by omega] at hfold

/-- The carry out of the highest bit. -/
theorem toNat_carry (x y : BitVec 32) :
    (if x + y < y then 1 else 0 : BitVec 32).toNat = (x.toNat + y.toNat) / 2 ^ 32 := by
  have hadd : (x + y).toNat = (x.toNat + y.toNat) % 2 ^ 32 := toNat_add x y
  by_cases hc : x + y < y
  · have hlt : (x + y).toNat < y.toNat := hc
    rw [if_pos hc, show (1 : BitVec 32).toNat = 1 from rfl]
    omega
  · have hge : y.toNat ≤ (x + y).toNat := not_lt.mp hc
    rw [if_neg hc, show (0 : BitVec 32).toNat = 0 from rfl]
    omega

/-- A sum of two words and the carry out of it. -/
theorem carried_spec (x y : BitVec 32) :
    StandsFor 0xffff ((x + y).toNat + (if x + y < y then 1 else 0 : BitVec 32).toNat)
      (x.toNat + y.toNat) ∧
    (x + y).toNat + (if x + y < y then 1 else 0 : BitVec 32).toNat < 2 ^ 32 := by
  rw [toNat_carry, toNat_add]
  constructor
  · exact (StandsFor.fold 32 _).of_dvd ⟨65537, rfl⟩
  · omega

/-- A carry out of the highest bit is brought around. -/
theorem addCarry_spec (x y : BitVec 32) : StandsFor 0xffff (addCarry x y).toNat
    (x.toNat + y.toNat) := by
  obtain ⟨hstands, hlt⟩ := carried_spec x y
  rw [addCarry, toNat_add, mod_eq_of_lt hlt]
  exact hstands

/-! ### The sum of the words of a buffer -/

/-- The sum of the little-endian 16-bit words of `n` bytes, the last one padded with zero. -/
def leSum (mem : Addr → BitVec 8) : Addr → Nat → Nat
  | _, 0 => 0
  | a, 1 => (mem a).toNat
  | a, n + 2 => (mem a).toNat + 256 * (mem (a + 1)).toNat + leSum mem (a + 2) n

theorem eq_zero_iff (x : BitVec w) : x = 0 ↔ x.toNat = 0 :=
  ⟨fun h => by rw [h]; rfl, fun h => eq_of_toNat_eq h⟩

/-- A buffer of zeros, byte by byte. -/
theorem zeros_succ (a : Addr) (n : Nat) : (∀ i, i < n + 1 → mem (a + BitVec.ofNat 32 i) = 0) ↔
      mem a = 0 ∧ ∀ i, i < n → mem (a + 1 + BitVec.ofNat 32 i) = 0 := by
  have hstep : ∀ i, a + 1 + BitVec.ofNat 32 i = a + BitVec.ofNat 32 (i + 1) := by
    intro i
    rw [add_comm i]
    exact addr_add a 1 i
  constructor
  · intro h
    refine ⟨by simpa using h 0 (by omega), fun i hi => ?_⟩
    rw [hstep]
    exact h (i + 1) (by omega)
  · intro ⟨hzero, hrest⟩ i hi
    cases i with
    | zero => rwa [BitVec.add_zero]
    | succ i =>
      rw [← hstep]
      exact hrest i (by omega)

theorem leSum_zero_iff (a : Addr) (n : Nat) :
    leSum mem a n = 0 ↔ ∀ i, i < n → mem (a + BitVec.ofNat 32 i) = 0 := by
  induction n using Nat.twoStepInduction generalizing a with
  | zero => exact ⟨fun _ i hi => absurd hi (not_lt_zero i), fun _ => rfl⟩
  | one => exact ⟨fun h => (zeros_succ a 0).mpr ⟨eq_of_toNat_eq h, nofun⟩,
      fun h => (eq_zero_iff _).mp ((zeros_succ a 0).mp h).1⟩
  | more n ih _ =>
    refine Iff.trans ?_ ((zeros_succ a (n + 1)).trans
      (and_congr_right' (zeros_succ (a + 1) n))).symm
    rw [show a + 1 + 1 = a + 2 from addr_add a 1 1, ← ih, leSum, eq_zero_iff, eq_zero_iff]
    omega

/-- The words of the bytes from the second one on, which are all one byte off. -/
theorem leSum_succ (mem : Addr → BitVec 8) (a : Addr) (n : Nat) :
    StandsFor 0xffff ((mem a).toNat + 256 * leSum mem (a + 1) n) (leSum mem a (n + 1)) := by
  constructor
  · induction n generalizing a with
    | zero => rfl
    | succ n ih =>
      have hnext := ih (a + 1)
      rw [show a + 1 + 1 = a + 2 from addr_add a 1 1] at hnext
      have hmul := ((hnext.symm.mul_left 256).add_left (mem a).toNat)
      apply hmul.trans
      rw [leSum]
      have hround : 65536 * leSum mem (a + 2) n ≡ leSum mem (a + 2) n [MOD 0xffff] := by
        have := (two_pow_modEq 16).mul_right (leSum mem (a + 2) n)
        rwa [one_mul] at this
      have hsum := hround.add_left ((mem a).toNat + 256 * (mem (a + 1)).toNat)
      rwa [show (mem a).toNat + 256 * (mem (a + 1)).toNat + 65536 * leSum mem (a + 2) n =
        (mem a).toNat + 256 * ((mem (a + 1)).toNat + 256 * leSum mem (a + 2) n) by omega] at hsum
  · rw [Nat.add_eq_zero_iff, Nat.mul_eq_zero, or_iff_right (by decide), leSum_zero_iff,
      leSum_zero_iff]
    exact (and_congr_left' (eq_zero_iff _).symm).trans (zeros_succ a n).symm

/-- A buffer in two parts. -/
theorem leSum_add (mem : Addr → BitVec 8) (a : Addr) (k n : Nat) :
    leSum mem a (2 * k + n) = leSum mem a (2 * k) + leSum mem (a + BitVec.ofNat 32 (2 * k)) n := by
  induction k generalizing a with
  | zero =>
    show leSum mem a (0 + n) = 0 + leSum mem (a + 0#32) n
    rw [zero_add, zero_add, BitVec.add_zero]
  | succ k ih =>
    have haddr : a + 2 + BitVec.ofNat 32 (2 * k) = a + BitVec.ofNat 32 (2 + 2 * k) :=
      addr_add a 2 (2 * k)
    rw [show 2 * (k + 1) + n = (2 * k + n) + 2 by omega, show 2 * (k + 1) = 2 * k + 2 by omega,
      leSum, leSum, ih, haddr, add_comm 2]
    omega

/-! ### `do_csum` -/

theorem leSum_four (a : Addr) (n : Nat) :
    StandsFor 0xffff ((load32 mem a).toNat + leSum mem (a + 4) n) (leSum mem a (n + 4)) := by
  rw [show n + 4 = (n + 2) + 2 from rfl, leSum, leSum, show a + 2 + 2 = a + 4 from addr_add a 2 2,
    show a + 2 + 1 = a + 3 from addr_add a 2 1, ← add_assoc]
  apply StandsFor.add_right
  rw [toNat_load32]
  have hx : (mem a).toNat + 256 * (mem (a + 1)).toNat < 2 ^ 16 := by omega
  generalize (mem a).toNat + 256 * (mem (a + 1)).toNat = x at hx ⊢
  generalize (mem (a + 2)).toNat + 256 * (mem (a + 3)).toNat = y
  have hfold := StandsFor.fold 16 (x + 65536 * y)
  rw [show (x + 65536 * y) % 2 ^ 16 = x by omega, show (x + 65536 * y) / 2 ^ 16 = y by omega]
    at hfold
  exact hfold.symm

/-- The carry of one turn is added in the next; the two together are less than a word. -/
theorem csumWords_spec (mem : Addr → BitVec 8) (buff : Addr) (result carry : BitVec 32)
    (count : Nat) (h : result.toNat + carry.toNat < 2 ^ 32) :
    StandsFor 0xffff ((csumWords mem count buff result carry).1.toNat +
        (csumWords mem count buff result carry).2.toNat)
      (result.toNat + carry.toNat + leSum mem buff (4 * count)) ∧
    (csumWords mem count buff result carry).1.toNat +
      (csumWords mem count buff result carry).2.toNat < 2 ^ 32 := by
  induction count generalizing buff result carry with
  | zero => exact ⟨refl _ _, h⟩
  | succ count ih =>
    have hadd : (result + carry).toNat = result.toNat + carry.toNat := by
      rw [toNat_add, mod_eq_of_lt h]
    obtain ⟨hstands, hlt⟩ := carried_spec (result + carry) (load32 mem buff)
    obtain ⟨hrest, hlt'⟩ := ih (buff + 4) _ _ hlt
    refine ⟨hrest.trans ((hstands.add_right _).trans ?_), hlt'⟩
    rw [hadd, add_assoc]
    exact (refl _ _).add (leSum_four buff (4 * count))

theorem toNat_addHalves_le (x : BitVec 32) : (addHalves x).toNat ≤ 0x1fffe := by
  rw [toNat_addHalves]
  omega

theorem csumAligned_spec (mem : Addr → BitVec 8) (buff : Addr) (result : BitVec 32) (count : Nat)
    (h : result.toNat ≤ 0x1fffe) :
    StandsFor 0xffff (csumAligned mem buff count result).toNat
      (result.toNat + leSum mem buff (4 * count)) ∧
    (csumAligned mem buff count result).toNat ≤ 0x1fffe := by
  rw [csumAligned]
  by_cases hc : count = 0
  · subst hc
    exact ⟨refl _ _, h⟩
  rw [if_neg hc]
  obtain ⟨hstands, hlt⟩ := csumWords_spec mem buff result 0 count result.isLt
  refine ⟨?_, toNat_addHalves_le _⟩
  rw [toNat_addHalves, toNat_add, mod_eq_of_lt hlt]
  exact (StandsFor.fold 16 _).trans hstands

/-- A halfword added to a sum that is still small. -/
theorem add_load16 (mem : Addr → BitVec 8) (a : Addr) (h : result.toNat ≤ 0x1fffe) :
    (result + load16 mem a).toNat = result.toNat + leSum mem a 2 ∧ leSum mem a 2 ≤ 0xffff := by
  have hsum : leSum mem a 2 = (mem a).toNat + 256 * (mem (a + 1)).toNat := rfl
  rw [toNat_add, toNat_load16, hsum]
  omega

/-- What is left after the halfwords of `n` bytes: a sum for `S` and these, and the address after
them. -/
def Summed (mem : Addr → BitVec 8) (buff : Addr) (n S : Nat) (r : BitVec 32 × Addr) : Prop :=
  StandsFor 0xffff r.1.toNat (S + leSum mem buff n) ∧ r.1.toNat ≤ 0x2fffd ∧
    r.2 = buff + BitVec.ofNat 32 n

section

variable (mem buff)

theorem csumHalfwords_spec (result : BitVec 32) (len : Nat) (h : result.toNat ≤ 0x1fffe) :
    Summed mem buff (2 * (len / 2)) result.toNat (csumHalfwords mem buff (len / 2) len result) := by
  obtain ⟨hstands, hle⟩ := csumAligned_spec mem buff result (len / 2 / 2) h
  rw [csumHalfwords]
  by_cases hlast : len / 2 % 2 = 1
  · rw [if_pos hlast]
    obtain ⟨hadd, hle'⟩ := add_load16 mem (buff + BitVec.ofNat 32 (4 * (len / 2 / 2))) hle
    rw [show 2 * (len / 2) = 2 * (2 * (len / 2 / 2)) + 2 by omega, Summed, leSum_add]
    rw [hadd, show 2 * (2 * (len / 2 / 2)) = 4 * (len / 2 / 2) by omega]
    refine ⟨?_, by omega, ?_⟩
    · rw [← add_assoc]
      exact hstands.add_right _
    · exact addr_add buff (4 * (len / 2 / 2)) 2
  · rw [if_neg hlast, show 2 * (len / 2) = 4 * (len / 2 / 2) by omega]
    exact ⟨hstands, by dsimp only; omega, rfl⟩

theorem csumEven_spec (len : Nat) (h : result.toNat ≤ 0xff00) :
    Summed mem buff (2 * (len / 2)) result.toNat (csumEven mem buff len result) := by
  rw [csumEven]
  by_cases hcount : len / 2 = 0
  · rw [if_pos hcount, hcount]
    exact ⟨refl _ _, by dsimp only; omega, (BitVec.add_zero buff).symm⟩
  rw [if_neg hcount]
  by_cases hfirst : buff &&& 2 ≠ 0
  · rw [if_pos hfirst, show len / 2 - 1 = (len - 2) / 2 by omega]
    obtain ⟨hadd, hle⟩ := add_load16 mem buff (show result.toNat ≤ 0x1fffe by omega)
    obtain ⟨hstands, hle', haddr⟩ := csumHalfwords_spec mem (buff + 2)
      (result + load16 mem buff) (len - 2) (by omega)
    refine ⟨?_, hle', ?_⟩
    · rw [show 2 * (len / 2) = 2 * 1 + 2 * ((len - 2) / 2) by omega, leSum_add, ← add_assoc]
      rw [hadd] at hstands
      exact hstands
    · rw [haddr, show 2 * (len / 2) = 2 + 2 * ((len - 2) / 2) by omega]
      exact addr_add buff 2 _
  · rw [if_neg hfirst]
    exact csumHalfwords_spec mem buff _ len (by omega)

/-- The bytes from an even address on, folded. -/
theorem csumEven_last (result : BitVec 32) (len : Nat) (h : result.toNat ≤ 0xff00) :
    StandsFor 0xffff
      (from32to16
      (if len % 2 = 1 then (csumEven mem buff len result).1 + load8 mem
      (csumEven mem buff len result).2
        else (csumEven mem buff len result).1)).toNat
      (result.toNat + leSum mem buff len) := by
  obtain ⟨hstands, hle, haddr⟩ := csumEven_spec mem buff len h
  apply (from32to16_spec _).trans
  by_cases hodd : len % 2 = 1
  · have hbyte := (mem (csumEven mem buff len result).2).isLt
    have hsplit := leSum_add mem buff (len / 2) 1
    rw [show 2 * (len / 2) + 1 = len by omega] at hsplit
    rw [if_pos hodd, toNat_add, toNat_load8, mod_eq_of_lt (by omega), haddr, hsplit, ← add_assoc]
    exact hstands.add_right _
  · rw [show 2 * (len / 2) = len by omega] at hstands
    rw [if_neg hodd]
    exact hstands

/-- **`do_csum`** is a 16-bit form of the sum of the words. -/
theorem doCsum_spec (len : Int) :
    StandsFor 0xffff (doCsum mem buff len).toNat (leSum mem buff len.toNat) := by
  rw [doCsum]
  by_cases hlen : len ≤ 0
  · rw [if_pos hlen, show len.toNat = 0 by omega]
    exact refl _ _
  rw [if_neg hlen]
  dsimp only
  by_cases hodd : buff &&& 1 = 1
  · rw [if_pos hodd, if_pos hodd, if_pos hodd, if_pos hodd]
    have hshift : (load8 mem buff <<< 8).toNat = 256 * (mem buff).toNat := by
      rw [toNat_shiftLeft, toNat_load8, Nat.shiftLeft_eq]
      omega
    have hlast := csumEven_last mem (buff + 1) (load8 mem buff <<< 8) (len.toNat - 1) (by omega)
    generalize from32to16 _ = f at hlast
    have hf : (f.setWidth 32).toNat = f.toNat := by
      rw [toNat_setWidth, mod_eq_of_lt]
      omega
    apply (swapBytes_spec (by rw [hf]; exact f.isLt)).trans
    rw [hf]
    apply (hlast.mul_left 256).trans
    have hnext := leSum_succ mem buff (len.toNat - 1)
    rw [show len.toNat - 1 + 1 = len.toNat by omega] at hnext
    refine trans ?_ hnext
    rw [hshift, Nat.mul_add]
    apply add_right
    have hfold := StandsFor.fold 16 (256 * (256 * (mem buff).toNat))
    rw [show 256 * (256 * (mem buff).toNat) % 2 ^ 16 + 256 * (256 * (mem buff).toNat) / 2 ^ 16 =
      (mem buff).toNat by omega] at hfold
    exact hfold.symm
  · rw [if_neg hodd, if_neg hodd, if_neg hodd, if_neg hodd]
    have hlast := csumEven_last mem buff 0 len.toNat (zero_le _)
    rw [show (0 : BitVec 32).toNat = 0 from rfl, zero_add] at hlast
    rw [toNat_setWidth, mod_eq_of_lt]
    · exact hlast
    · exact lt_of_lt_of_le (isLt _) (by decide)

/-! ### `csum_partial` -/

theorem csumPartial_eq (len : Int) (sum : BitVec 32) :
    csumPartial mem buff len sum = addCarry (doCsum mem buff len) sum := by
  rw [csumPartial, addCarry]
  by_cases hc : doCsum mem buff len + sum < sum
  · rw [if_pos hc, if_pos hc]
  · rw [if_neg hc, if_neg hc]
    exact (BitVec.add_zero _).symm

theorem csumPartial_spec (len : Int) (sum : BitVec 32) :
    StandsFor 0xffff (csumPartial mem buff len sum).toNat
      (sum.toNat + leSum mem buff len.toNat) := by
  rw [csumPartial_eq, add_comm sum.toNat]
  exact (addCarry_spec _ _).trans ((doCsum_spec mem buff len).add_right _)

/-- A checksum and the same bytes in two parts, the first of even length. -/
theorem csumPartial_chain (k n : Nat) (sum : BitVec 32) :
    from32to16
      (csumPartial mem (buff + BitVec.ofNat 32 (2 * k)) n (csumPartial mem buff (2 * k : Nat) sum))
      = from32to16 (csumPartial mem buff (2 * k + n : Nat) sum) := by
  apply eq_of_toNat_eq
  have hwhole := (from32to16_spec _).trans (csumPartial_spec mem buff (2 * k + n : Nat) sum)
  have hparts := (from32to16_spec _).trans (csumPartial_spec mem (buff + BitVec.ofNat 32 (2 * k)) n
    (csumPartial mem buff (2 * k : Nat) sum))
  rw [Int.toNat_natCast, leSum_add, ← add_assoc] at hwhole
  have hchain := (csumPartial_spec mem buff (2 * k : Nat) sum).add_right
    (leSum mem (buff + BitVec.ofNat 32 (2 * k)) n)
  exact unique (le_of_lt_succ (isLt _)) (le_of_lt_succ (isLt _))
    (hparts.trans hchain) hwhole

end

/-- **`csum_partial`**, folded to 16 bits, is the ones' complement sum of `sum` and the words of the
buffer, is zero only if all of that is, and can be computed over two parts of the buffer one after
the other. -/
theorem csumPartial_sums (mem : Addr → BitVec 8) (buff : Addr) (len : Nat) (sum : BitVec 32) :
    (from32to16 (csumPartial mem buff len sum)).toNat ≡ sum.toNat + leSum mem buff len
      [MOD 0xffff] ∧
    (from32to16 (csumPartial mem buff len sum) = 0 →
      sum = 0 ∧ ∀ i, i < len → mem (buff + BitVec.ofNat 32 i) = 0) ∧
    ∀ k, 2 * k ≤ len →
      from32to16 (csumPartial mem (buff + BitVec.ofNat 32 (2 * k)) (len - 2 * k : Nat)
        (csumPartial mem buff (2 * k : Nat) sum)) = from32to16 (csumPartial mem buff len sum) := by
  have hstands := (from32to16_spec _).trans (csumPartial_spec mem buff len sum)
  rw [Int.toNat_natCast] at hstands
  refine ⟨hstands.modEq, fun hzero => ?_, fun k hk => ?_⟩
  · have hsum := hstands.zero.mp (by rw [hzero]; rfl)
    obtain ⟨hs, hbytes⟩ := Nat.add_eq_zero_iff.mp hsum
    exact ⟨eq_of_toNat_eq hs, (leSum_zero_iff buff len).mp hbytes⟩
  · have hchain := csumPartial_chain mem buff k (len - 2 * k) sum
    rwa [Nat.add_sub_cancel' hk] at hchain

/-- The bytes `ff ff 01 00`. -/
def carryBytes (a : Addr) : BitVec 8 := if a.toNat < 2 then 0xff else if a = 2 then 1 else 0

/-- The 32-bit sums of a whole and of its two parts are two forms of one sum. -/
theorem csumPartial_parts_ne :
    csumPartial carryBytes 2 2 (csumPartial carryBytes 0 2 0) ≠ csumPartial carryBytes 0 4 0 := by
  decide

/-! ### `csum_ipv6_magic` -/

/-- `csum_fold` without the complement. -/
def foldSum (x : BitVec 32) : BitVec 32 := (x.rotateRight 16 + x) >>> 16

theorem foldSum_spec (x : BitVec 32) : StandsFor 0xffff (foldSum x).toNat x.toNat ∧
    (foldSum x).toNat ≤ 0xffff := by
  have hrot : (x.rotateRight 16).toNat = x.toNat % 2 ^ 16 * 2 ^ 16 + x.toNat / 2 ^ 16 := by
    rw [toNat_rotateRight, Nat.or_comm, show 32 - 16 % 32 = 16 from rfl, show 16 % 32 = 16 from rfl,
      shiftRight_eq_div_pow, show x.toNat <<< 16 % 2 ^ 32 = (x.toNat % 2 ^ 16) <<< 16 by
        rw [Nat.shiftLeft_eq, Nat.shiftLeft_eq]; omega,
      ← shiftLeft_add_eq_or_of_lt (by omega), Nat.shiftLeft_eq]
  have hfold : (foldSum x).toNat = (x.toNat % 2 ^ 16 + x.toNat / 2 ^ 16) % 2 ^ 16 +
      (x.toNat % 2 ^ 16 + x.toNat / 2 ^ 16) / 2 ^ 16 := by
    rw [foldSum, toNat_ushiftRight, toNat_add, hrot, shiftRight_eq_div_pow,
      show x.toNat % 2 ^ 16 * 2 ^ 16 + x.toNat / 2 ^ 16 + x.toNat =
        (x.toNat % 2 ^ 16 + x.toNat / 2 ^ 16) * 65537 by omega]
    have hle : x.toNat % 2 ^ 16 + x.toNat / 2 ^ 16 ≤ 0x1fffe := by omega
    generalize x.toNat % 2 ^ 16 + x.toNat / 2 ^ 16 = s at hle
    rcases lt_or_ge s (2 ^ 16) with hs | hs
    · rw [mod_eq_of_lt (by omega), mod_eq_of_lt hs, show s * 65537 = 2 ^ 16 * s + s by omega,
        mul_add_div (by decide)]
    · obtain ⟨r, rfl⟩ := Nat.exists_eq_add_of_le hs
      rw [show (2 ^ 16 + r) * 65537 % 2 ^ 32 = 2 ^ 16 * (r + 1) + r by omega,
        mul_add_div (by decide)]
      omega
  constructor
  · rw [hfold]
    exact (StandsFor.fold 16 _).trans (StandsFor.fold 16 _)
  · rw [hfold]
    omega

theorem csumFold_eq_iff (x y : BitVec 32) :
    csumFold x = csumFold y ↔ x.toNat ≡ y.toNat [MOD 0xffff] ∧ (x = 0 ↔ y = 0) := by
  obtain ⟨hx, hxle⟩ := foldSum_spec x
  obtain ⟨hy, hyle⟩ := foldSum_spec y
  have hfold : ∀ z : BitVec 32, csumFold z = ~~~((foldSum z).setWidth 16) := by
    intro z
    rw [csumFold, ← foldSum]
    exact setWidth_not (by decide)
  have hinj : csumFold x = csumFold y ↔ (foldSum x).toNat = (foldSum y).toNat := by
    rw [hfold, hfold, BitVec.not_inj, ← toNat_inj, toNat_setWidth, toNat_setWidth,
      mod_eq_of_lt (by omega), mod_eq_of_lt (by omega)]
  rw [hinj, eq_zero_iff x, eq_zero_iff y]
  constructor
  · intro h
    rw [h] at hx
    have hxy := hx.symm.trans hy
    exact ⟨hxy.modEq, hxy.zero⟩
  · intro ⟨hmod, hz⟩
    exact unique hxle hyle (hx.trans ⟨hmod, hz⟩) hy

/-- Reversing the bytes multiplies by 256. -/
theorem htonl_spec (x : BitVec 32) : StandsFor 0xffff (htonl x).toNat (256 * x.toNat) := by
  have hbyte : ∀ i, (x.extractLsb' i 8).toNat = x.toNat / 2 ^ i % 2 ^ 8 := by
    intro i
    rw [extractLsb'_toNat, shiftRight_eq_div_pow]
  have hval : (htonl x).toNat =
      ((x.toNat / 2 ^ 0 % 2 ^ 8 * 2 ^ 8 + x.toNat / 2 ^ 8 % 2 ^ 8) * 2 ^ 8 + x.toNat /
      2 ^ 16 % 2 ^ 8) * 2 ^ 8 + x.toNat / 2 ^ 24 % 2 ^ 8 := by
    rw [htonl, toNat_append_add, toNat_append_add, toNat_append_add, hbyte, hbyte, hbyte, hbyte]
  have hsplit : x.toNat = x.toNat / 2 ^ 0 % 2 ^ 8 + 2 ^ 8 * (x.toNat / 2 ^ 8 % 2 ^ 8) +
      2 ^ 16 * (x.toNat / 2 ^ 16 % 2 ^ 8) + 2 ^ 24 * (x.toNat / 2 ^ 24 % 2 ^ 8) := by
    have h2 := div_add_mod (x.toNat / 2 ^ 8) (2 ^ 8)
    have h3 := div_add_mod (x.toNat / 2 ^ 16) (2 ^ 8)
    rw [Nat.div_div_eq_div_mul, ← Nat.pow_add] at h2 h3
    rw [Nat.pow_zero, Nat.div_one, mod_eq_of_lt (show x.toNat / 2 ^ 24 < 2 ^ 8 by omega)]
    omega
  rw [hval]
  generalize x.toNat / 2 ^ 0 % 2 ^ 8 = b0 at hsplit ⊢
  generalize x.toNat / 2 ^ 8 % 2 ^ 8 = b1 at hsplit ⊢
  generalize x.toNat / 2 ^ 16 % 2 ^ 8 = b2 at hsplit ⊢
  generalize x.toNat / 2 ^ 24 % 2 ^ 8 = b3 at hsplit ⊢
  constructor
  · have heq : ((b0 * 2 ^ 8 + b1) * 2 ^ 8 + b2) * 2 ^ 8 + b3 + 0xffff * (256 * b2 + 65537 * b3) =
        256 * x.toNat + 0xffff * (256 * b0) := by omega
    have hmod := congrArg (· % 0xffff) heq
    simp only [add_mul_mod_self_left] at hmod
    exact hmod
  · omega

/-- The carries that csky drops make up for the byte order it takes the length and the protocol in,
and they do not make a zero out of a sum that is none. -/
def MagicAgrees (saddr daddr : In6Addr) (len : BitVec 32) (proto : BitVec 16)
    (sum : BitVec 32) : Prop :=
  0xffff ∣ 255 * (len.toNat + proto.toNat) + magicTotal saddr daddr len proto sum / 2 ^ 32 ∧
    (2 ^ 32 ∣ magicTotal saddr daddr len proto sum → magicTotal saddr daddr len proto sum = 0)

section

variable (saddr daddr : In6Addr) (len : BitVec 32) (proto : BitVec 16) (sum : BitVec 32)

theorem toNat_proto : (proto.setWidth 32 : BitVec 32).toNat = proto.toNat :=
  toNat_setWidth_of_le (by decide)

theorem toNat_magicSum :
    (magicSum saddr daddr len proto sum).toNat = magicTotal saddr daddr len proto sum % 2 ^ 32 := by
  simp [magicSum, magicTotal]

/-- Words added one after the other with their carries. -/
theorem foldl_addCarry (l : List (BitVec 32)) (x : BitVec 32) :
    StandsFor 0xffff (l.foldl addCarry x).toNat (x.toNat + (l.map BitVec.toNat).sum) := by
  induction l generalizing x with
  | nil => exact refl _ _
  | cons y l ih =>
    rw [foldl_cons, map_cons, sum_cons, ← add_assoc]
    exact (ih (addCarry x y)).trans ((addCarry_spec x y).add_right _)

/-- The generic sum takes the length and the protocol 256 times. -/
theorem magicSumGeneric_spec : StandsFor 0xffff (magicSumGeneric saddr daddr len proto sum).toNat
      (magicTotal saddr daddr len proto sum + 255 * (len.toNat + proto.toNat)) := by
  apply (foldl_addCarry _ _).trans
  simp only [map_cons, map_nil, sum_cons, sum_nil]
  have hlen := htonl_spec len
  have hproto := htonl_spec (proto.setWidth 32)
  rw [toNat_proto] at hproto
  have hwords := (refl 0xffff (sum.toNat + (saddr 0).toNat + (saddr 1).toNat + (saddr 2).toNat +
    (saddr 3).toNat + (daddr 0).toNat + (daddr 1).toNat + (daddr 2).toNat + (daddr 3).toNat)).add
      (hlen.add hproto)
  rw [magicTotal]
  convert hwords using 1 <;> omega

end

/-- **Csky and the generic code agree on the checksum** just where the condition holds. -/
theorem csumIpv6Magic_eq_generic_iff (saddr daddr : In6Addr) (len : BitVec 32) (proto : BitVec 16)
    (sum : BitVec 32) :
    csumIpv6Magic saddr daddr len proto sum = csumIpv6MagicGeneric saddr daddr len proto sum ↔
      MagicAgrees saddr daddr len proto sum := by
  have hgeneric := magicSumGeneric_spec saddr daddr len proto sum
  have hcsky := toNat_magicSum saddr daddr len proto sum
  have hlen : len.toNat + proto.toNat ≤ magicTotal saddr daddr len proto sum := le_add_left _ _
  show csumFold (magicSum saddr daddr len proto sum) =
    csumFold (magicSumGeneric saddr daddr len proto sum) ↔ _
  rw [csumFold_eq_iff, eq_zero_iff, eq_zero_iff, hgeneric.zero, hcsky, MagicAgrees]
  generalize magicTotal saddr daddr len proto sum = T at *
  generalize len.toNat + proto.toNat = L at *
  have hround : T ≡ T % 2 ^ 32 + T / 2 ^ 32 [MOD 0xffff] :=
    ((fold 32 T).of_dvd ⟨65537, rfl⟩).symm.modEq
  have hmod : T % 2 ^ 32 ≡ (magicSumGeneric saddr daddr len proto sum).toNat [MOD 0xffff] ↔
      0xffff ∣ 255 * L + T / 2 ^ 32 := by
    have hT := hround.add_right (255 * L)
    constructor
    · intro h
      have hsum : T % 2 ^ 32 + 0 ≡ T % 2 ^ 32 + (255 * L + T / 2 ^ 32) [MOD 0xffff] := by
        rw [show T % 2 ^ 32 + (255 * L + T / 2 ^ 32) = T % 2 ^ 32 + T / 2 ^ 32 + 255 * L by omega]
        exact (h.trans hgeneric.modEq).trans hT
      exact (modEq_zero_iff_dvd).mp (Nat.ModEq.add_left_cancel' _ hsum).symm
    · intro h
      have hsum := ((modEq_zero_iff_dvd).mpr h).symm.add_left (T % 2 ^ 32)
      rw [show T % 2 ^ 32 + (255 * L + T / 2 ^ 32) =
        T % 2 ^ 32 + T / 2 ^ 32 + 255 * L by omega] at hsum
      exact (hsum.trans hT.symm).trans hgeneric.modEq.symm
  have hz : (T % 2 ^ 32 = 0 ↔ T + 255 * L = 0) ↔ (2 ^ 32 ∣ T → T = 0) := by
    rw [dvd_iff_mod_eq_zero]
    omega
  rw [hmod, hz]

/-- A packet of one byte between zero addresses: the length is added at the wrong end of the
word. -/
theorem csumIpv6Magic_ne_generic :
    csumIpv6Magic (fun _ => 0) (fun _ => 0) 1 0 0 ≠ csumIpv6MagicGeneric (fun _ => 0)
      (fun _ => 0) 1 0 0 := by
  decide

end SilanKernel.Csky
