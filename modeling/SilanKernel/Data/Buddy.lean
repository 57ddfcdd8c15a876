import Mathlib.Algebra.Order.Ring.Nat
import Mathlib.Data.Nat.Bitwise
import SilanKernel.Data.Tiling

/-!
# SilanKernel.Data.Buddy

The **buddy system**, in the abstract.

A block of order `o` is `2 ^ o` units that start at a multiple of `2 ^ o`. Its
buddy is the other half of the block of the next order that it is part of. At any
time some blocks are free and some are out; together they partition the units
managed, and no block is free together with its buddy.

All that an allocator does to its blocks comes down to four moves, and each of
them keeps the system: `take` a free block, `put` a block whose buddy is not free,
`merge` a block with its free buddy, and `split` a block and free its upper half.
-/

namespace SilanKernel

/-- A block: its first unit and its order. -/
abbrev Block := Nat × Nat

namespace Block

def extent (b : Block) : Extent := (b.1, 2 ^ b.2)

/-- The start of the other half of the next larger block. -/
def buddy (p o : Nat) : Nat := if p / 2 ^ o % 2 = 0 then p + 2 ^ o else p - 2 ^ o

/-- The start of the next larger block. -/
def parent (p o : Nat) : Nat := if p / 2 ^ o % 2 = 0 then p else p - 2 ^ o

/-- An aligned start in terms of its index among the blocks of its order. -/
theorem buddy_parent_cases (h : 2 ^ o ∣ p) :
    (buddy p o = p + 2 ^ o ∧ parent p o = p ∧ 2 ^ (o + 1) ∣ p) ∨
      (2 ^ o ≤ p ∧ buddy p o = p - 2 ^ o ∧ parent p o = p - 2 ^ o ∧ 2 ^ (o + 1) ∣ p - 2 ^ o) := by
  obtain ⟨k, rfl⟩ := h
  have hpos := Nat.two_pow_pos o
  have hdiv : 2 ^ o * k / 2 ^ o = k := Nat.mul_div_cancel_left k hpos
  unfold buddy parent
  rw [hdiv]
  by_cases hk : k % 2 = 0
  · left
    refine ⟨if_pos hk, if_pos hk, k / 2, ?_⟩
    rw [Nat.pow_succ, Nat.mul_assoc, Nat.mul_div_cancel' (Nat.dvd_of_mod_eq_zero hk)]
  right
  have hk1 : k = 2 * (k / 2) + 1 := by omega
  have hle : 2 ^ o ≤ 2 ^ o * k := Nat.le_mul_of_pos_right _ (by omega)
  refine ⟨hle, if_neg hk, if_neg hk, k / 2, ?_⟩
  have : 2 ^ o * k = 2 ^ o * (2 * (k / 2)) + 2 ^ o := by
    rw [← Nat.mul_succ, Nat.succ_eq_add_one, ← hk1]
  rw [this, Nat.add_sub_cancel, Nat.pow_succ, Nat.mul_assoc]

section

variable (h : 2 ^ (o + 1) ∣ p)

include h

theorem dvd_of_dvd_succ : 2 ^ o ∣ p :=
  Nat.dvd_trans (Nat.pow_dvd_pow 2 (Nat.le_succ o)) h

theorem even_of_dvd_succ : p / 2 ^ o % 2 = 0 := by
  obtain ⟨k, rfl⟩ := h
  rw [Nat.pow_succ, Nat.mul_assoc, Nat.mul_div_cancel_left _ (Nat.two_pow_pos o)]
  omega

theorem buddy_of_dvd_succ : buddy p o = p + 2 ^ o :=
  if_pos (even_of_dvd_succ h)

theorem buddy_add_of_dvd_succ : buddy (p + 2 ^ o) o = p := by
  have hodd : (p + 2 ^ o) / 2 ^ o % 2 = 1 := by
    rw [Nat.add_div_right _ (Nat.two_pow_pos o)]
    have := even_of_dvd_succ h
    omega
  unfold buddy
  rw [if_neg (by omega), Nat.add_sub_cancel]

end

theorem le_of_odd (h : ¬p / 2 ^ o % 2 = 0) : 2 ^ o ≤ p := by
  by_contra hlt
  rw [Nat.div_eq_of_lt (by omega)] at h
  exact h rfl

theorem buddy_ne : buddy p o ≠ p := by
  have hpos := Nat.two_pow_pos o
  unfold buddy
  split
  · omega
  · rename_i hodd
    have hle := le_of_odd hodd
    omega

theorem buddy_buddy (h : 2 ^ o ∣ p) : buddy (buddy p o) o = p := by
  rcases buddy_parent_cases h with ⟨hb, -, hdvd⟩ | ⟨hle, hb, -, hdvd⟩
  · rw [hb, buddy_add_of_dvd_succ hdvd]
  · rw [hb, buddy_of_dvd_succ hdvd, Nat.sub_add_cancel hle]

theorem parent_dvd (h : 2 ^ o ∣ p) : 2 ^ (o + 1) ∣ parent p o := by
  rcases buddy_parent_cases h with ⟨-, hp, hdvd⟩ | ⟨-, -, hp, hdvd⟩
  · rwa [hp]
  · rwa [hp]

theorem covers_parent (h : 2 ^ o ∣ p) : (extent (parent p o, o + 1)).Covers p := by
  have hpow : 2 ^ (o + 1) = 2 ^ o + 2 ^ o := by rw [pow_succ]; omega
  unfold extent Extent.Covers
  rcases buddy_parent_cases h with ⟨-, hp, -⟩ | ⟨hle, -, hp, -⟩
  · rw [hp, hpow]
    omega
  · rw [hp, hpow]
    omega

/-! ### Numbers as the machine computes them -/

theorem and_xor_one (k : Nat) : (k ^^^ 1) &&& k = k - k % 2 := by
  rw [Nat.and_xor_distrib_right, Nat.and_self, Nat.and_comm, Nat.and_one_is_mod]
  rcases Nat.mod_two_eq_zero_or_one k with h | h
  · rw [h, Nat.xor_zero, Nat.sub_zero]
  · rw [h, Nat.xor_one_of_odd (Nat.odd_iff.mpr h)]

/-- The buddy's number differs in the bit of the order. -/
theorem xor_two_pow (h : 2 ^ o ∣ p) : p ^^^ 2 ^ o = buddy p o := by
  obtain ⟨k, rfl⟩ := h
  have hpos := Nat.two_pow_pos o
  have hxor : 2 ^ o * k ^^^ 2 ^ o = 2 ^ o * (k ^^^ 1) := by
    have := @Nat.shiftLeft_xor_distrib o k 1
    simpa only [Nat.shiftLeft_eq, Nat.one_mul, Nat.mul_comm] using this.symm
  unfold buddy
  rw [hxor, Nat.mul_div_cancel_left k hpos]
  by_cases hk : k % 2 = 0
  · rw [if_pos hk, Nat.xor_one_of_even (Nat.even_iff.mpr hk), Nat.mul_succ]
  · rw [if_neg hk, Nat.xor_one_of_odd (Nat.odd_iff.mpr (by omega)), Nat.mul_sub_one]

/-- The parent's number has that bit clear. -/
theorem buddy_and (h : 2 ^ o ∣ p) : buddy p o &&& p = parent p o := by
  rw [← xor_two_pow h]
  obtain ⟨k, rfl⟩ := h
  have hpos := Nat.two_pow_pos o
  have hand : (2 ^ o * k ^^^ 2 ^ o) &&& 2 ^ o * k = 2 ^ o * (k - k % 2) := by
    have := @Nat.shiftLeft_and_distrib o (k ^^^ 1) k
    rw [Nat.shiftLeft_xor_distrib, and_xor_one] at this
    simpa only [Nat.shiftLeft_eq, Nat.one_mul, Nat.mul_comm] using this.symm
  unfold parent
  rw [hand, Nat.mul_div_cancel_left k hpos]
  by_cases hk : k % 2 = 0
  · rw [if_pos hk, hk, Nat.sub_zero]
  · rw [if_neg hk, show k % 2 = 1 by omega, Nat.mul_sub_one]

/-- Buddies may be numbered from any multiple of a larger block. -/
theorem buddy_add_mul (q : Nat) (ho : o < M) : buddy (2 ^ M * q + p) o = 2 ^ M * q + buddy p o ∧
      parent (2 ^ M * q + p) o = 2 ^ M * q + parent p o := by
  have hpos := Nat.two_pow_pos o
  have hM : 2 ^ M * q = 2 ^ o * (2 * (2 ^ (M - o - 1) * q)) := by
    rw [← mul_assoc, ← pow_succ, ← mul_assoc, ← pow_add]
    congr 2
    omega
  have heven : (2 ^ M * q + p) / 2 ^ o % 2 = p / 2 ^ o % 2 := by
    rw [hM, Nat.mul_add_div hpos]
    omega
  unfold buddy parent
  rw [heven]
  split
  · omega
  · rename_i hodd
    have hle := le_of_odd hodd
    omega

end Block

open Extent Block Prod Set Nat

/-- The blocks `W` partition `U` into aligned blocks of orders below `M`. -/
structure Partitioned (M : Nat) (U : Set Nat) (W : Set Block) : Prop where
  lt : ∀ b ∈ W, b.2 < M
  aligned : ∀ b ∈ W, 2 ^ b.2 ∣ b.1
  apart : ∀ b ∈ W, ∀ c ∈ W, b ≠ c → Apart (extent b) (extent c)
  cover : ∀ x, x ∈ U ↔ ∃ b ∈ W, (extent b).Covers x

namespace Partitioned

/-- A block that shares a unit with a block of the partition is that block. -/
theorem eq_of_covers (h : Partitioned M U W) (hb : b ∈ W) (hc : c ∈ W) (hbx : (extent b).Covers x)
    (hcx : (extent c).Covers x) : b = c := by
  by_contra hne
  exact (h.apart b hb c hc hne).not_covers hbx hcx

theorem covers_start (b : Block) : (extent b).Covers b.1 := by
  have := Nat.two_pow_pos b.2
  unfold extent Covers
  omega

theorem exists_covers_of_not_apart {b c : Block} (h : ¬ Apart (extent b) (extent c)) :
    ∃ x, (extent b).Covers x ∧ (extent c).Covers x := by
  have := Nat.two_pow_pos b.2
  have := Nat.two_pow_pos c.2
  unfold Apart extent at h
  refine ⟨max b.1 c.1, ?_⟩
  unfold extent Covers
  dsimp only at h ⊢
  omega

/-- Blocks that cover the same units take the place of others. -/
theorem replace (h : Partitioned M U W) (hS : S ⊆ W) (hlt : ∀ b ∈ T, b.2 < M)
    (hal : ∀ b ∈ T, 2 ^ b.2 ∣ b.1) (hT : ∀ b ∈ T, ∀ c ∈ T, b ≠ c → Apart (extent b) (extent c))
    (hcov : ∀ x, (∃ b ∈ T, (extent b).Covers x) ↔ ∃ b ∈ S, (extent b).Covers x) :
    Partitioned M U (T ∪ W \ S) := by
  have hap : ∀ b ∈ T, ∀ c ∈ W \ S, Apart (extent b) (extent c) := by
    rintro b hb c ⟨hc, hcS⟩
    by_contra hmeet
    obtain ⟨x, hbx, hcx⟩ := exists_covers_of_not_apart hmeet
    obtain ⟨b', hb', hx⟩ := (hcov x).mp ⟨b, hb, hbx⟩
    exact hcS (h.eq_of_covers (hS hb') hc hx hcx ▸ hb')
  refine ⟨?_, ?_, ?_, fun x => ?_⟩
  · rintro b (hb | hb)
    · exact hlt b hb
    · exact h.lt b hb.1
  · rintro b (hb | hb)
    · exact hal b hb
    · exact h.aligned b hb.1
  · rintro b (hb | hb) c (hc | hc) hne
    · exact hT b hb c hc hne
    · exact hap b hb c hc
    · exact (hap c hc b hb).symm
    · exact h.apart b hb.1 c hc.1 hne
  rw [h.cover x]
  constructor
  · rintro ⟨b, hb, hx⟩
    by_cases hbS : b ∈ S
    · obtain ⟨b', hb', hx'⟩ := (hcov x).mpr ⟨b, hbS, hx⟩
      exact ⟨b', .inl hb', hx'⟩
    · exact ⟨b, .inr ⟨hb, hbS⟩, hx⟩
  · rintro ⟨b, hb | hb, hx⟩
    · obtain ⟨b', hb', hx'⟩ := (hcov x).mp ⟨b, hb, hx⟩
      exact ⟨b', hS hb', hx'⟩
    · exact ⟨b, hb.1, hx⟩

/-- Two halves are joined. -/
theorem merge (h : Partitioned M U W) (ho : o + 1 < M) (hp : (p, o) ∈ W) (hb : (buddy p o, o) ∈ W) :
    Partitioned M U (insert (parent p o, o + 1) (W \ {(p, o), (buddy p o, o)})) := by
  have hal : 2 ^ o ∣ p := h.aligned _ hp
  have hpow : 2 ^ (o + 1) = 2 ^ o + 2 ^ o := by rw [Nat.pow_succ]; omega
  refine h.replace (T := {(parent p o, o + 1)}) (insert_subset hp (singleton_subset_iff.mpr hb)) ?_
    ?_ ?_ fun x => ?_
  · rintro b rfl
    exact ho
  · rintro b rfl
    exact parent_dvd hal
  · rintro b rfl c rfl hne
    exact absurd rfl hne
  · simp only [mem_insert_iff, mem_singleton_iff, exists_eq_left, exists_eq_or_imp, extent, Covers]
    rcases buddy_parent_cases hal with ⟨h1, h2, -⟩ | ⟨hle, h1, h2, -⟩
    all_goals
      rw [h1, h2, hpow]
      omega

/-- A block is cut in half. -/
theorem split (h : Partitioned M U W) (hp : (p, o + 1) ∈ W) :
    Partitioned M U (insert (p + 2 ^ o, o) (insert (p, o) (W \ {(p, o + 1)}))) := by
  have hal : 2 ^ (o + 1) ∣ p := h.aligned _ hp
  have hpow : 2 ^ (o + 1) = 2 ^ o + 2 ^ o := by rw [Nat.pow_succ]; omega
  have hlt := h.lt _ hp
  have hhalves : Apart (extent (p, o)) (extent (p + 2 ^ o, o)) := .inl (le_refl _)
  rw [← singleton_union (a := (p, o)), ← insert_union]
  refine h.replace (singleton_subset_iff.mpr hp) ?_ ?_ ?_ fun x => ?_
  · rintro b (rfl | rfl)
    · exact lt_of_succ_lt hlt
    · exact lt_of_succ_lt hlt
  · rintro b (rfl | rfl)
    · exact Nat.dvd_add (dvd_of_dvd_succ hal) (Nat.dvd_refl _)
    · exact dvd_of_dvd_succ hal
  · rintro b (rfl | rfl) c (rfl | rfl) hne
    · exact absurd rfl hne
    · exact hhalves.symm
    · exact hhalves
    · exact absurd rfl hne
  · simp only [mem_insert_iff, mem_singleton_iff, exists_eq_left, exists_eq_or_imp, extent,
      Covers, hpow]
    omega

end Partitioned

/-- The blocks of a buddy system: the free ones and those that are out. -/
structure BuddySystem (M : Nat) (U : Set Nat) (free out : Set Block) : Prop where
  part : Partitioned M U (free ∪ out)
  disjoint : ∀ b ∈ free, b ∉ out
  /-- No block of less than the largest order is free together with its buddy. -/
  lone : ∀ b ∈ free, b.2 + 1 < M → (buddy b.1 b.2, b.2) ∉ free

namespace BuddySystem

section

variable (h : BuddySystem M U free out)

include h

theorem take (hb : b ∈ free) : BuddySystem M U (free \ {b}) (insert b out) := by
  refine ⟨?_, ?_, ?_⟩
  · have hW : (free \ {b}) ∪ insert b out = free ∪ out := by
      rw [union_insert, ← insert_union, insert_sdiff_singleton, insert_eq_of_mem hb]
    exact hW ▸ h.part
  · rintro c ⟨hc, hne⟩ (rfl | hout)
    · exact hne rfl
    · exact h.disjoint c hc hout
  · rintro c ⟨hc, -⟩ ho hc'
    exact h.lone c hc ho hc'.1

theorem put (hb : b ∈ out) (hlone : b.2 + 1 < M → (buddy b.1 b.2, b.2) ∉ free) :
    BuddySystem M U (insert b free) (out \ {b}) := by
  refine ⟨?_, ?_, ?_⟩
  · have hW : insert b free ∪ (out \ {b}) = free ∪ out := by
      rw [insert_union, ← union_insert, insert_sdiff_singleton, insert_eq_of_mem hb]
    exact hW ▸ h.part
  · rintro c (rfl | hc) ⟨hout, hne⟩
    · exact hne rfl
    · exact h.disjoint c hc hout
  · rintro c (rfl | hc) ho (heq | hc')
    · have := buddy_ne (p := c.1) (o := c.2)
      exact this (congrArg fst heq)
    · exact hlone ho hc'
    · -- The buddy of `c` is the block put back, so `c` is the buddy of that block.
      have ho' : c.2 = b.2 := (Prod.ext_iff.mp heq).2
      have hp' : buddy c.1 c.2 = b.1 := (Prod.ext_iff.mp heq).1
      have hback : (buddy b.1 b.2, b.2) = c := by
        rw [← hp', ← ho', buddy_buddy (h.part.aligned c (.inl hc))]
      exact hlone (ho' ▸ ho) (hback ▸ hc)
    · exact h.lone c hc ho hc'

/-- The place of the parent is taken by a part of it. -/
theorem parent_notMem (hp : (p, o) ∈ out) : (parent p o, o + 1) ∉ free ∪ out := by
  intro hpar
  have hcov := covers_parent (h.part.aligned _ (.inr hp))
  have := h.part.eq_of_covers hpar (.inr hp) hcov (Partitioned.covers_start (p, o))
  exact absurd (congrArg snd this) (succ_ne_self o)

/-- The places of the halves are taken by the whole. -/
theorem half_notMem (hp : (p, o + 1) ∈ out) (hle : p ≤ q) (hlt : q < p + 2 ^ (o + 1))
    : (q, o) ∉ free ∪ out := by
  intro hq
  have hcov : (extent (p, o + 1)).Covers q := ⟨hle, hlt⟩
  have := h.part.eq_of_covers hq (.inr hp) (Partitioned.covers_start (q, o)) hcov
  exact absurd (congrArg snd this) (succ_ne_self o).symm

theorem merge (ho : o + 1 < M) (hp : (p, o) ∈ out) (hb : (buddy p o, o) ∈ free) :
    BuddySystem M U (free \ {(buddy p o, o)}) (insert (parent p o, o + 1) (out \ {(p, o)})) := by
  have hout : (buddy p o, o) ∉ out := h.disjoint _ hb
  have hfree : (p, o) ∉ free := fun hf => h.disjoint _ hf hp
  have hpart := h.part.merge ho (.inr hp) (.inl hb)
  refine ⟨?_, ?_, ?_⟩
  · have hW : (free \ {(buddy p o, o)}) ∪ insert (parent p o, o + 1) (out \ {(p, o)}) =
        insert (parent p o, o + 1) ((free ∪ out) \ {(p, o), (buddy p o, o)}) := by
      ext c
      simp only [mem_union, mem_insert_iff, mem_sdiff, mem_singleton_iff]
      grind
    exact hW ▸ hpart
  · rintro c ⟨hc, hne⟩ (rfl | ⟨hc', -⟩)
    · exact h.parent_notMem hp (.inl hc)
    · exact h.disjoint c hc hc'
  · rintro c ⟨hc, -⟩ ho' hc'
    exact h.lone c hc ho' hc'.1

theorem split (hp : (p, o + 1) ∈ out) :
    BuddySystem M U (insert (p + 2 ^ o, o) free) (insert (p, o) (out \ {(p, o + 1)})) := by
  have hal : 2 ^ (o + 1) ∣ p := h.part.aligned _ (.inr hp)
  have hlow : (p, o) ∉ free ∪ out := h.half_notMem hp (le_refl p) (by omega)
  have hhigh : (p + 2 ^ o, o) ∉ free ∪ out := h.half_notMem hp (by omega) (by omega)
  have hfree : (p, o + 1) ∉ free := fun hf => h.disjoint _ hf hp
  refine ⟨?_, ?_, ?_⟩
  · have hW : insert (p + 2 ^ o, o) free ∪ insert (p, o) (out \ {(p, o + 1)}) =
        insert (p + 2 ^ o, o) (insert (p, o) ((free ∪ out) \ {(p, o + 1)})) := by
      ext c
      simp only [mem_union, mem_insert_iff, mem_sdiff, mem_singleton_iff]
      grind
    exact hW ▸ h.part.split (.inr hp)
  · rintro c (rfl | hc) (heq | ⟨hc', -⟩)
    · have := congrArg fst heq
      omega
    · exact hhigh (.inr hc')
    · exact hlow (.inl (heq ▸ hc))
    · exact h.disjoint c hc hc'
  · rintro c (rfl | hc) ho (heq | hc')
    · exact buddy_ne (congrArg fst heq)
    · dsimp only at hc'
      rw [buddy_add_of_dvd_succ hal] at hc'
      exact hlow (.inl hc')
    · have ho' : c.2 = o := congrArg snd heq
      have hp' : buddy c.1 c.2 = p + 2 ^ o := congrArg fst heq
      have hback : c.1 = p := by
        rw [← buddy_buddy (h.part.aligned c (.inl hc)), hp', ho', buddy_add_of_dvd_succ hal]
      exact hlow (.inl (by rw [← hback, ← ho']; exact hc))
    · exact h.lone c hc ho hc'

end

end BuddySystem

/-- A buddy system with one block in hand, on its way between the free blocks and
those that are out. -/
structure BuddyHand (M : Nat) (U : Set Nat) (free out : Set Block) (b : Block) : Prop where
  sys : BuddySystem M U free (insert b out)
  notMem : b ∉ out

theorem BuddySystem.pick (h : BuddySystem M U free out) (hb : b ∈ free)
    : BuddyHand M U (free \ {b}) out b :=
  ⟨h.take hb, h.disjoint b hb⟩

theorem BuddySystem.giveBack (h : BuddySystem M U free out) (hb : b ∈ out)
    : BuddyHand M U free (out \ {b}) b := by
  refine ⟨?_, fun hmem => hmem.2 rfl⟩
  rwa [insert_sdiff_singleton, insert_eq_of_mem hb]

namespace BuddyHand

section

variable (h : BuddyHand M U free out b)

include h

theorem insert_sdiff : insert b out \ {b} = out :=
  insert_sdiff_self_of_notMem h.notMem

theorem lt : b.2 < M := h.sys.part.lt b (.inr (.inl rfl))

theorem aligned : 2 ^ b.2 ∣ b.1 :=
  h.sys.part.aligned b (.inr (.inl rfl))

theorem mem (hx : (extent b).Covers x) : x ∈ U :=
  (h.sys.part.cover x).mpr ⟨b, .inr (.inl rfl), hx⟩

theorem put (hlone : b.2 + 1 < M → (buddy b.1 b.2, b.2) ∉ free) :
    BuddySystem M U (insert b free) out :=
  h.insert_sdiff ▸ h.sys.put (.inl rfl) hlone

end

theorem merge (h : BuddyHand M U free out (p, o)) (ho : o + 1 < M) (hb : (buddy p o, o) ∈ free) :
    BuddyHand M U (free \ {(buddy p o, o)}) out (parent p o, o + 1) := by
  refine ⟨h.insert_sdiff ▸ h.sys.merge ho (.inl rfl) hb, fun hmem => ?_⟩
  exact h.sys.parent_notMem (.inl rfl) (.inr (.inr hmem))

theorem split (h : BuddyHand M U free out (p, o + 1)) :
    BuddyHand M U (insert (p + 2 ^ o, o) free) out (p, o) := by
  refine ⟨h.insert_sdiff ▸ h.sys.split (.inl rfl), fun hmem => ?_⟩
  refine h.sys.half_notMem (.inl rfl) (le_refl p) ?_ (.inr (.inr hmem))
  exact Nat.lt_add_of_pos_right (Nat.two_pow_pos _)

end BuddyHand

end SilanKernel
