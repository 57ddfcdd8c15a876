import SilanKernel.Data.FirstIn
import SilanKernel.Data.Mask

/-!
# SilanKernel.Csky.Bitops

A model of the **bit searches** of `arch/csky/include/asm/bitops.h` and what they return.

`find_next_bit` and `find_next_zero_bit` are the same code but for the masks that cut off the
first and the last word, the test for a word without a hit, and the instruction sequence that
finds the lowest hit in a word; so are `find_first_bit` and `find_first_zero_bit`. `Scan` has
these parts. An `int` is a word of 32 bits with signed comparisons, as in the code; `tmp`
changes between signed and unsigned without a change of its bits.
-/

namespace SilanKernel.Csky.Bitops

abbrev Word := BitVec 32

/-- `brev` reverses the bits of a word. -/
def brev (w : Word) : Word := w.reverse

/-- `ff1` counts the zeros above the highest one. -/
def ff1 (w : Word) : Word := w.clz

/-- `__ffs` -/
def ffsUnchecked (x : Word) : Word := ff1 (brev x)

/-- `ffz` -/
def ffz (word : Word) : Word := ff1 (brev (~~~word))

/-- What the searches for ones and for zeros do not share. -/
structure Scan where
  /-- Hide the bits of the first word below the offset. -/
  first : Word → Word → Word
  /-- Hide the bits of the last word from the size on. -/
  last : Word → Word → Word
  /-- Is there a hit? -/
  any : Word → Bool
  /-- The lowest hit. -/
  index : Word → Word

def Scan.ones : Scan where
  first offset tmp := tmp &&& (~~~0#32 <<< offset)
  last size tmp := tmp &&& (~~~0#32 >>> (32#32 - size))
  any tmp := tmp ≠ 0
  index := ffsUnchecked

def Scan.zeros : Scan where
  first offset tmp := tmp ||| (~~~0#32 >>> (32#32 - offset))
  last size tmp := tmp ||| (~~~0#32 <<< size)
  any tmp := ~~~tmp ≠ 0
  index := ffz

namespace Scan

variable (k : Scan) (addr : Nat → Word) {size : Word}

/-- From the label `found_middle` on. -/
def foundMiddle (tmp result : Word) : Word := result + k.index tmp

/-- From the label `found_first` on. -/
def foundFirst (tmp result size : Word) : Word :=
  let tmp := k.last size tmp
  if k.any tmp then k.foundMiddle tmp result else result + size

theorem sub_of_and_ne (h : size &&& ~~~31#32 ≠ 0) :
    32 ≤ size.toNat ∧ (size - 32#32).toNat = size.toNat - 32 := by
  have hround : (size &&& ~~~31#32).toNat = size.toNat / 2 ^ 5 * 2 ^ 5 :=
    Mask.toNat_and_not_mask rfl
  have hle : 32 ≤ size.toNat := by
    by_contra hlt
    refine h (BitVec.eq_of_toNat_eq ?_)
    rw [hround, Nat.div_eq_of_lt (by omega)]
    rfl
  refine ⟨hle, ?_⟩
  rw [BitVec.toNat_sub_of_le (by rw [BitVec.le_def]; exact hle)]
  rfl

/-- The loop over whole words, and the last word. -/
def words (p : Nat) (result size : Word) : Word :=
  if size &&& ~~~31#32 ≠ 0 then
    if k.any (addr p) then k.foundMiddle (addr p) result
    else words (p + 1) (result + 32#32) (size - 32#32)
  else if size = 0 then result
  else k.foundFirst (addr p) result size
termination_by size.toNat
decreasing_by
  have := sub_of_and_ne ‹_›
  omega

/-- The body of `find_next_bit` and `find_next_zero_bit`. -/
def findNext (size offset : Word) : Word :=
  let p := (offset.sshiftRight 5).toNat
  let result := offset &&& ~~~31#32
  if size.sle offset then
    size
  else
    let size := size - result
    let offset := offset &&& 31#32
    if offset ≠ 0 then
      let tmp := k.first offset (addr p)
      if size.slt 32#32 then k.foundFirst tmp result size
      else if k.any tmp then k.foundMiddle tmp result
      else k.words addr (p + 1) (result + 32#32) (size - 32#32)
    else
      k.words addr p result size

/-- The body of `find_first_bit` and `find_first_zero_bit`. -/
def findFirst (size : Word) : Word := k.words addr 0 0 size

end Scan

def findNextBit (addr : Nat → Word) (size offset : Word) : Word :=
  Scan.ones.findNext addr size offset

def findNextZeroBit (addr : Nat → Word) (size offset : Word) : Word :=
  Scan.zeros.findNext addr size offset

def findFirstBit (addr : Nat → Word) (size : Word) : Word := Scan.ones.findFirst addr size

def findFirstZeroBit (addr : Nat → Word) (size : Word) : Word := Scan.zeros.findFirst addr size

/-! ### Hits in a word -/

/-- How the parts of a scan see the hits of a word. -/
structure Scan.Lawful (k : Scan) (hit : Word → Nat → Bool) : Prop where
  any_iff : ∀ w, k.any w = true ↔ ∃ i < 32, hit w i = true
  index_hit : ∀ w, k.any w = true → hit w (k.index w).toNat = true
  index_lt : ∀ w, k.any w = true → (k.index w).toNat < 32
  index_least : ∀ w, ∀ i < (k.index w).toNat, hit w i = false
  first_hit : ∀ (offset w : Word), 0 < offset.toNat → offset.toNat < 32 →
    ∀ i < 32, hit (k.first offset w) i = (hit w i && decide (offset.toNat ≤ i))
  last_hit : ∀ (size w : Word), 0 < size.toNat → size.toNat < 32 →
    ∀ i < 32, hit (k.last size w) i = (hit w i && decide (i < size.toNat))

theorem ffsUnchecked_eq_ctz (w : Word) : ffsUnchecked w = w.ctz := BitVec.ctz_eq_reverse_clz.symm

/-- The bits of a word that has ones from bit `n` on. -/
theorem ones_shiftLeft (n i : Nat) (hi : i < 32) : (~~~0#32 <<< n).getLsbD i = decide (n ≤ i) := by
  show (BitVec.allOnes 32 <<< n).getLsbD i = _
  rw [BitVec.getLsbD_shiftLeft, BitVec.getLsbD_allOnes, Bool.eq_iff_iff]
  simp only [Bool.and_eq_true, decide_eq_true_eq, Bool.not_eq_true', decide_eq_false_iff_not]
  omega

/-- The bits of a word that has ones below bit `32 - n`. -/
theorem ones_shiftRight (n i : Nat) : (~~~0#32 >>> n).getLsbD i = decide (n + i < 32) := by
  show (BitVec.allOnes 32 >>> n).getLsbD i = _
  rw [BitVec.getLsbD_ushiftRight, BitVec.getLsbD_allOnes]

theorem toNat_thirtytwo_sub (h : n.toNat ≤ 32) : (32#32 - n).toNat = 32 - n.toNat := by
  rw [BitVec.toNat_sub_of_le (by rw [BitVec.le_def]; exact h)]
  rfl

theorem lawful_ones : Scan.ones.Lawful BitVec.getLsbD where
  any_iff w := by
    rw [Scan.ones, decide_eq_true_iff]
    constructor
    · intro hne
      by_contra hnone
      refine hne (BitVec.eq_of_getLsbD_eq fun i hi => ?_)
      simpa using fun h => hnone ⟨i, hi, h⟩
    · rintro ⟨i, hi, hbit⟩ rfl
      simp at hbit
  index_hit w h := by
    show w.getLsbD (ffsUnchecked w).toNat = true
    rw [ffsUnchecked_eq_ctz]
    exact BitVec.getLsbD_true_ctz_of_ne_zero (of_decide_eq_true h)
  index_lt w h := by
    show (ffsUnchecked w).toNat < 32
    by_contra hge
    have hbit := BitVec.getLsbD_true_ctz_of_ne_zero (of_decide_eq_true h)
    rw [← ffsUnchecked_eq_ctz, BitVec.getLsbD_of_ge _ _ (by omega)] at hbit
    nomatch hbit
  index_least w i h := by
    refine BitVec.getLsbD_false_of_lt_ctz ?_
    rw [← ffsUnchecked_eq_ctz]
    exact h
  first_hit offset w _ _ i hi := by
    show (w &&& (~~~0#32 <<< offset)).getLsbD i = _
    rw [BitVec.getLsbD_and, BitVec.shiftLeft_eq', ones_shiftLeft _ _ hi]
  last_hit size w _ h i hi := by
    show (w &&& (~~~0#32 >>> (32#32 - size))).getLsbD i = _
    rw [BitVec.getLsbD_and, BitVec.ushiftRight_eq', ones_shiftRight, toNat_thirtytwo_sub h.le]
    congr 2
    rw [eq_iff_iff]
    omega

/-- A scan for zeros is one for ones in the complement. -/
theorem lawful_zeros : Scan.zeros.Lawful fun w i => (~~~w).getLsbD i where
  any_iff w := lawful_ones.any_iff (~~~w)
  index_hit w := lawful_ones.index_hit (~~~w)
  index_lt w := lawful_ones.index_lt (~~~w)
  index_least w := lawful_ones.index_least (~~~w)
  first_hit offset w _ h i hi := by
    show (~~~(w ||| (~~~0#32 >>> (32#32 - offset)))).getLsbD i = _
    rw [BitVec.not_or, BitVec.getLsbD_and, BitVec.ushiftRight_eq',
      BitVec.getLsbD_not (x := _ >>> _), ones_shiftRight, toNat_thirtytwo_sub h.le,
      decide_eq_true hi, Bool.true_and, ← decide_not]
    congr 2
    rw [eq_iff_iff]
    omega
  last_hit size w _ h i hi := by
    show (~~~(w ||| (~~~0#32 <<< size))).getLsbD i = _
    rw [BitVec.not_or, BitVec.getLsbD_and, BitVec.shiftLeft_eq', BitVec.getLsbD_not (x := _ <<< _),
      ones_shiftLeft _ _ hi, decide_eq_true hi, Bool.true_and, ← decide_not]
    congr 2
    rw [eq_iff_iff]
    omega

/-! ### The searches -/

theorem msb_of_nonneg {w : Word} (h : 0 ≤ w.toInt) : w.msb = false := by
  rw [BitVec.msb_eq_toInt]
  exact decide_eq_false (Int.not_lt.mpr h)

namespace Scan.Lawful

variable {k : Scan} {hit : Word → Nat → Bool} {addr : Nat → Word} {p n m : Nat}
  {w result size offset : Word}

/-- The hits of an array, numbered through. -/
def Hit (hit : Word → Nat → Bool) (addr : Nat → Word) (i : Nat) : Prop :=
  hit (addr (i / 32)) (i % 32) = true

/-- The hits of a whole word of the array. -/
theorem hit_word (addr : Nat → Word) (p : Nat) (hi : i < 32) :
    hit (addr p) i = true ↔ Hit hit addr (32 * p + i) := by
  rw [Hit, Nat.mul_add_div (by decide), Nat.mul_add_mod, Nat.div_eq_of_lt hi, Nat.mod_eq_of_lt hi]
  rfl

theorem next_word (hresult : result.toNat = 32 * p) (hp : 32 * p + 32 < 2 ^ 32) :
    (result + 32#32).toNat = 32 * (p + 1) := by
  rw [BitVec.toNat_add, hresult]
  exact Nat.mod_eq_of_lt hp

variable (hk : k.Lawful hit)
include hk

/-- A word that stands for a part of word `p` of the array, with a hit. -/
theorem foundMiddle_spec (hany : k.any w = true) (hresult : result.toNat = 32 * p)
    (hp : 32 * p + 32 < 2 ^ 32)
    (hw : ∀ i < 32, hit w i = true ↔ n ≤ 32 * p + i ∧ 32 * p + i < m ∧ Hit hit addr (32 * p + i))
    (hn : 32 * p ≤ n) : FirstIn (Hit hit addr) n m (k.foundMiddle w result).toNat := by
  have hlt := hk.index_lt w hany
  have hsum : (k.foundMiddle w result).toNat = 32 * p + (k.index w).toNat := by
    rw [foundMiddle, BitVec.toNat_add, hresult, Nat.mod_eq_of_lt (by omega)]
  obtain ⟨hlo, hhi, hhit⟩ := (hw _ hlt).mp (hk.index_hit w hany)
  rw [hsum]
  refine .found (fun i hni hi hbit => ?_) hlo hhi hhit
  obtain ⟨j, rfl⟩ := Nat.exists_eq_add_of_le (Nat.le_trans hn hni)
  have hj : j < (k.index w).toNat := by omega
  have := (hw j (by omega)).mpr ⟨hni, by omega, hbit⟩
  rw [hk.index_least w j hj] at this
  nomatch this

/-- A word without a hit passes nothing. -/
theorem none_of_not_any (hany : ¬ k.any w = true) (hi : i < 32) : ¬ hit w i = true :=
  fun hhit => hany ((hk.any_iff w).mpr ⟨i, hi, hhit⟩)

theorem foundFirst_spec (hsize : 0 < size.toNat) (hlt : size.toNat < 32)
    (hresult : result.toNat = 32 * p) (hp : 32 * p + 32 < 2 ^ 32)
    (hw : ∀ i < 32, hit w i = true ↔ n ≤ 32 * p + i ∧ Hit hit addr (32 * p + i)) (hn : 32 * p ≤ n) :
    FirstIn (Hit hit addr) n (32 * p + size.toNat) (k.foundFirst w result size).toNat := by
  have hlast : ∀ i < 32, hit (k.last size w) i = true ↔
      n ≤ 32 * p + i ∧ 32 * p + i < 32 * p + size.toNat ∧ Hit hit addr (32 * p + i) := by
    intro i hi
    rw [hk.last_hit size w hsize hlt i hi, Bool.and_eq_true, decide_eq_true_iff, hw i hi,
      Nat.add_lt_add_iff_left, and_assoc, and_comm (b := i < size.toNat)]
  rw [foundFirst]
  split
  · exact hk.foundMiddle_spec ‹_› hresult hp hlast hn
  · rw [BitVec.toNat_add, hresult, Nat.mod_eq_of_lt (by omega)]
    refine .none fun i hni hi hbit => ?_
    obtain ⟨j, rfl⟩ := Nat.exists_eq_add_of_le (Nat.le_trans hn hni)
    exact hk.none_of_not_any ‹_› (show j < 32 by omega) ((hlast j (by omega)).mpr ⟨hni, hi, hbit⟩)

theorem words_spec (hresult : result.toNat = 32 * p) (hm : 32 * p + size.toNat = m)
    (hmax : m < 2 ^ 31) :
    FirstIn (Hit hit addr) (32 * p) m (k.words addr p result size).toNat := by
  induction p, result, size using words.induct k addr generalizing m with
  | case1 p result size hfull hany =>
    obtain ⟨hle, -⟩ := sub_of_and_ne hfull
    rw [words, if_pos hfull, if_pos hany]
    refine hk.foundMiddle_spec hany hresult (by omega) (fun i hi => ?_) (Nat.le_refl _)
    rw [hit_word addr p hi]
    exact ⟨fun h => ⟨by omega, by omega, h⟩, fun h => h.2.2⟩
  | case2 p result size hfull hany ih =>
    obtain ⟨hle, hsub⟩ := sub_of_and_ne hfull
    rw [words, if_pos hfull, if_neg hany]
    refine (ih (next_word hresult (by omega)) (by omega) hmax).skip (by omega)
      fun i hlo hhi hbit => ?_
    obtain ⟨j, rfl⟩ := Nat.exists_eq_add_of_le hlo
    exact hk.none_of_not_any hany (show j < 32 by omega) ((hit_word addr p (by omega)).mpr hbit)
  | case3 p result hfull =>
    rw [words, if_neg hfull, if_pos rfl, hresult]
    obtain rfl : 32 * p = m := hm
    exact .empty (Nat.le_refl _)
  | case4 p result size hfull hzero =>
    have hround : (size &&& ~~~31#32).toNat = size.toNat / 2 ^ 5 * 2 ^ 5 :=
      Mask.toNat_and_not_mask rfl
    rw [not_not.mp hfull] at hround
    have hpos : 0 < size.toNat := Nat.pos_of_ne_zero fun h => hzero (BitVec.eq_of_toNat_eq h)
    have hlt : size.toNat < 32 := by
      have : (0 : Nat) = size.toNat / 2 ^ 5 * 2 ^ 5 := hround
      omega
    rw [words, if_neg hfull, if_neg hzero, ← hm]
    refine hk.foundFirst_spec hpos hlt hresult (by omega) (fun i hi => ?_) (Nat.le_refl _)
    rw [hit_word addr p hi]
    exact ⟨fun h => ⟨by omega, h⟩, fun h => h.2⟩

/-- The search from an offset within a word, which comes first. -/
theorem firstWord_spec (hlo : 32 * p < n) (hhi : n < 32 * p + 32) (hlt : n < m) (hmax : m < 2 ^ 31)
    (hresult : result.toNat = 32 * p) (hlow : w.toNat = n - 32 * p)
    (hrest : size.toNat = m - 32 * p) :
    FirstIn (Hit hit addr) n m (let tmp := k.first w (addr p)
      if size.slt 32#32 then k.foundFirst tmp result size
      else if k.any tmp then k.foundMiddle tmp result
      else k.words addr (p + 1) (result + 32#32) (size - 32#32)).toNat := by
  have hsint : size.toInt = size.toNat := BitVec.toInt_eq_toNat_of_lt (by omega)
  have hfirst : ∀ i < 32, hit (k.first w (addr p)) i = true ↔
      n ≤ 32 * p + i ∧ Hit hit addr (32 * p + i) := by
    intro i hi
    rw [hk.first_hit w _ (by omega) (by omega) i hi, Bool.and_eq_true, decide_eq_true_iff,
      hit_word addr _ hi, and_comm]
    refine and_congr_left fun _ => ?_
    omega
  dsimp only
  split
  · have hshort : size.toNat < 32 := by
      have : size.toInt < 32 := BitVec.slt_iff_toInt_lt.mp ‹_›
      omega
    have := hk.foundFirst_spec (by omega) hshort hresult (by omega) hfirst (by omega)
    rwa [show 32 * p + size.toNat = m by omega] at this
  have hlong : 32 ≤ size.toNat := by
    have : ¬ size.toInt < 32 := fun h => absurd (BitVec.slt_iff_toInt_lt.mpr h) ‹_›
    omega
  split
  · refine hk.foundMiddle_spec ‹_› hresult (by omega) (fun i hi => ?_) (by omega)
    rw [hfirst i hi]
    exact and_congr_right fun _ => ⟨fun h => ⟨by omega, h⟩, fun h => h.2⟩
  have hsub : (size - 32#32).toNat = size.toNat - 32 := by
    rw [BitVec.toNat_sub_of_le (by rw [BitVec.le_def]; exact hlong)]
    rfl
  refine (hk.words_spec (next_word hresult (by omega)) (by omega) hmax).skip (by omega)
    fun i hlo hhi hbit => ?_
  obtain ⟨j, rfl⟩ := Nat.exists_eq_add_of_le (show 32 * p ≤ i by omega)
  exact hk.none_of_not_any ‹_› (show j < 32 by omega) ((hfirst j (by omega)).mpr ⟨hlo, hbit⟩)

theorem findNext_spec (hsize : 0 ≤ size.toInt) (hoffset : 0 ≤ offset.toInt) :
    FirstIn (Hit hit addr) offset.toNat size.toNat (k.findNext addr size offset).toNat := by
  have hsint := BitVec.toInt_eq_toNat_of_msb (msb_of_nonneg hsize)
  have hoint := BitVec.toInt_eq_toNat_of_msb (msb_of_nonneg hoffset)
  have hmax := BitVec.msb_eq_false_iff_two_mul_lt.mp (msb_of_nonneg hsize)
  have hp : (offset.sshiftRight 5).toNat = offset.toNat / 32 := by
    rw [BitVec.sshiftRight_eq_of_msb_false (msb_of_nonneg hoffset), BitVec.toNat_ushiftRight,
      Nat.shiftRight_eq_div_pow]
  let word := offset.toNat / 32
  have hresult : (offset &&& ~~~31#32).toNat = 32 * word := by
    rw [Mask.toNat_and_not_mask (k := 5) rfl, Nat.mul_comm]
    rfl
  have hlow : (offset &&& 31#32).toNat = offset.toNat % 32 := Mask.toNat_and_mask (k := 5) rfl
  rw [findNext, hp]
  split
  · have := BitVec.sle_iff_toInt_le.mp ‹_›
    exact .empty (by omega)
  have hlt : offset.toNat < size.toNat := by
    have : ¬ size.toInt ≤ offset.toInt := fun h => absurd (BitVec.sle_iff_toInt_le.mpr h) ‹_›
    omega
  have hrest : (size - (offset &&& ~~~31#32)).toNat = size.toNat - 32 * word := by
    rw [BitVec.toNat_sub_of_le (by rw [BitVec.le_def, hresult]; omega), hresult]
  by_cases hzero : offset &&& 31#32 = 0
  · have hmod : offset.toNat % 32 = 0 := by
      rw [← hlow, hzero]
      rfl
    rw [if_neg (not_not.mpr hzero)]
    have hm : 32 * word + (size - (offset &&& ~~~31#32)).toNat = size.toNat := by omega
    have hwords : FirstIn (Hit hit addr) (32 * word) _ _ := hk.words_spec hresult hm (by omega)
    rwa [show 32 * word = offset.toNat by omega] at hwords
  · have hmod : offset.toNat % 32 ≠ 0 := by
      rw [← hlow]
      exact fun h => hzero (BitVec.eq_of_toNat_eq h)
    rw [if_pos hzero]
    exact hk.firstWord_spec (by omega) (by omega) hlt (by omega) hresult (by omega) hrest

end Scan.Lawful

/-- From offset 0 the search starts with the loop over whole words. -/
theorem Scan.findFirst_eq_findNext (k : Scan) (addr : Nat → Word) (hsize : 0 ≤ size.toInt) :
    k.findFirst addr size = k.findNext addr size 0 := by
  rw [findFirst, findNext]
  split
  · have hle : size.toInt ≤ 0 := BitVec.sle_iff_toInt_le.mp ‹_›
    obtain rfl : size = 0 := BitVec.eq_of_toInt_eq (Int.le_antisymm hle hsize)
    rw [words]
    rfl
  · rw [if_neg (by decide)]
    congr
    simp

/-- The bit searches return the first bit they look for, or the size. -/
theorem findBits_spec (addr : Nat → Word) (size offset : Word) (hsize : 0 ≤ size.toInt)
    (hoffset : 0 ≤ offset.toInt) :
    FirstIn (fun i => (addr (i / 32)).getLsbD (i % 32) = true) offset.toNat size.toNat
      (findNextBit addr size offset).toNat ∧
    FirstIn (fun i => (addr (i / 32)).getLsbD (i % 32) = false) offset.toNat size.toNat
      (findNextZeroBit addr size offset).toNat ∧
    findFirstBit addr size = findNextBit addr size 0 ∧
    findFirstZeroBit addr size = findNextZeroBit addr size 0 := by
  refine ⟨lawful_ones.findNext_spec hsize hoffset, ?_, Scan.findFirst_eq_findNext _ addr hsize,
    Scan.findFirst_eq_findNext _ addr hsize⟩
  refine (lawful_zeros.findNext_spec hsize hoffset).congr fun i _ _ => ?_
  rw [Scan.Lawful.Hit, BitVec.getLsbD_not, decide_eq_true (Nat.mod_lt i (by decide)), Bool.true_and,
    Bool.not_eq_true']

/-- Three words, of which the middle one has the only bit that is set from bit 3 on. -/
theorem findBits_spec_three_words : (0 ≤ (90#32).toInt ∧ 0 ≤ (3#32).toInt) ∧
      FirstIn (fun i =>
          ((fun n => if n = 0 then 4#32 else if n = 1 then 8#32 else 0) (i / 32)).getLsbD
            (i % 32) = true) 3 90
        (findNextBit (fun n => if n = 0 then 4#32 else if n = 1 then 8#32 else 0) 90 3).toNat :=
  ⟨by decide, (findBits_spec _ 90 3 (by decide) (by decide)).1⟩

end SilanKernel.Csky.Bitops
