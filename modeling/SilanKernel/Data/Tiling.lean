import Mathlib.Data.Set.Basic
import Mathlib.Data.List.Perm.Basic
import Mathlib.Data.List.Pairwise

/-!
# SilanKernel.Data.Tiling

**Tilings** of a set of addresses by extents `(start, size)`.

An allocator hands out and takes back pieces of a fixed region. Whatever it does,
the pieces it keeps track of have to stay non-empty, pairwise disjoint and
together exactly the region: they *tile* it. `Tiles rs U` states this for a list
of extents, up to order (`Tiles.perm`), and the two things an allocator does to
its pieces, cutting one in two and joining two neighbours, keep it
(`Tiles.split`, `Tiles.merge`).
-/

namespace SilanKernel

open List

/-- A piece of an address space: its first address and its size. -/
abbrev Extent := Nat × Nat

namespace Extent

/-- The address `x` lies in the extent. -/
def Covers (r : Extent) (x : Nat) : Prop := r.1 ≤ x ∧ x < r.1 + r.2

/-- Neither extent reaches into the other. -/
def Apart (r s : Extent) : Prop := r.1 + r.2 ≤ s.1 ∨ s.1 + s.2 ≤ r.1

theorem Apart.symm (h : Apart r s) : Apart s r := Or.symm h

theorem Apart.not_covers (h : Apart r s) (hr : r.Covers x) : ¬ s.Covers x := by
  unfold Apart at h
  unfold Covers at hr ⊢
  omega

/-- The halves of an extent cover what it covers. -/
theorem covers_add : Covers (s, m + n) x ↔ Covers (s, m) x ∨ Covers (s + m, n) x := by
  unfold Covers
  omega

end Extent

open Extent

/-- The extents `rs` tile the set `U`. -/
structure Tiles (rs : List Extent) (U : Set Nat) : Prop where
  pos : ∀ r ∈ rs, 0 < r.2
  apart : rs.Pairwise Apart
  cover : ∀ x, x ∈ U ↔ ∃ r ∈ rs, r.Covers x

namespace Tiles

/-- One extent tiles itself. -/
theorem single (hn : 0 < n) : Tiles [(s, n)] {x | s ≤ x ∧ x < s + n} where
  pos := by simpa using hn
  apart := pairwise_singleton _ _
  cover := by simp [Covers]

theorem perm (h : Tiles rs U) (hp : rs.Perm rs') : Tiles rs' U where
  pos := fun r hr => h.pos r (hp.mem_iff.mpr hr)
  apart := (hp.pairwise_iff Apart.symm).mp h.apart
  cover := fun x => by
    rw [h.cover x]
    exact ⟨fun ⟨r, hr, hx⟩ => ⟨r, hp.mem_iff.mp hr, hx⟩,
      fun ⟨r, hr, hx⟩ => ⟨r, hp.mem_iff.mpr hr, hx⟩⟩

/-- Cutting an extent in two. -/
theorem split (h : Tiles ((s, m + n) :: rs) U) (hm : 0 < m) (hn : 0 < n) :
    Tiles ((s, m) :: (s + m, n) :: rs) U := by
  obtain ⟨hhead, htail⟩ := pairwise_cons.mp h.apart
  refine ⟨?_, ?_, ?_⟩
  · simp only [mem_cons, forall_eq_or_imp]
    exact ⟨hm, hn, fun r hr => h.pos r (by simp [hr])⟩
  · simp only [pairwise_cons, mem_cons, forall_eq_or_imp]
    refine ⟨⟨Or.inl le_rfl, fun r hr => ?_⟩, fun r hr => ?_, htail⟩
    all_goals
      have := hhead r hr
      unfold Apart at this ⊢
      omega
  · intro x
    rw [h.cover x]
    simp only [mem_cons, exists_eq_or_imp]
    rw [covers_add, or_assoc]

theorem merge (h : Tiles ((s, m) :: (s + m, n) :: rs) U) : Tiles ((s, m + n) :: rs) U := by
  obtain ⟨⟨-, hhead⟩, hhead', htail⟩ := by
    simpa only [pairwise_cons, mem_cons, forall_eq_or_imp] using h.apart
  refine ⟨?_, ?_, ?_⟩
  · simp only [mem_cons, forall_eq_or_imp]
    have := h.pos (s, m) (by simp)
    exact ⟨Nat.add_pos_left this n, fun r hr => h.pos r (by simp [hr])⟩
  · simp only [pairwise_cons]
    refine ⟨fun r hr => ?_, htail⟩
    have h1 := hhead r hr
    have h2 := hhead' r hr
    have h3 := h.pos r (by simp [hr])
    -- An extent apart from both halves could only sit between them, were it empty.
    unfold Apart at h1 h2 ⊢
    omega
  · intro x
    rw [h.cover x]
    simp only [mem_cons, exists_eq_or_imp]
    rw [covers_add, or_assoc]

/-- An extent of a tiling stays within any interval that holds the tiled set. -/
theorem bounds (h : Tiles rs U) (hU : ∀ x ∈ U, lo ≤ x ∧ x < hi) (hr : r ∈ rs)
    : lo ≤ r.1 ∧ r.1 + r.2 ≤ hi := by
  have hpos := h.pos r hr
  have h1 := hU r.1 ((h.cover _).mpr ⟨r, hr, by unfold Covers; omega⟩)
  have h2 := hU (r.1 + r.2 - 1) ((h.cover _).mpr ⟨r, hr, by unfold Covers; omega⟩)
  omega

end Tiles

end SilanKernel
