import Mathlib.Data.List.Basic

/-!
# SilanKernel.Data.SegMap

**Sorted lists of segments.**

The elements of the lists are of any type `ι`; `seg` reads a segment off each. The ends of
all segments are multiples of a unit `g`.
-/

namespace SilanKernel.SegMap

/-- The interval `[lo, hi)`. -/
structure Seg where
  lo : Nat
  hi : Nat

variable {ι : Type*} (seg : ι → Seg) (g : Nat)

/-- The segments are not empty, start and end at multiples of `g`, and each ends before
those after it start. -/
structure Sorted (l : List ι) : Prop where
  nonempty : ∀ x ∈ l, (seg x).lo < (seg x).hi
  dvd_lo : ∀ x ∈ l, g ∣ (seg x).lo
  dvd_hi : ∀ x ∈ l, g ∣ (seg x).hi
  order : l.Pairwise fun x y => (seg x).hi ≤ (seg y).lo

variable {seg g}

theorem sorted_append : Sorted seg g (l1 ++ l2) ↔
      Sorted seg g l1 ∧ Sorted seg g l2 ∧ ∀ x ∈ l1, ∀ y ∈ l2, (seg x).hi ≤ (seg y).lo := by
  constructor
  · intro h
    have ho := List.pairwise_append.mp h.order
    exact ⟨⟨fun x hx => h.nonempty x (by simp [hx]), fun x hx => h.dvd_lo x (by simp [hx]),
        fun x hx => h.dvd_hi x (by simp [hx]), ho.1⟩,
      ⟨fun x hx => h.nonempty x (by simp [hx]), fun x hx => h.dvd_lo x (by simp [hx]),
        fun x hx => h.dvd_hi x (by simp [hx]), ho.2.1⟩, ho.2.2⟩
  · intro ⟨h1, h2, hc⟩
    refine ⟨?_, ?_, ?_, List.pairwise_append.mpr ⟨h1.order, h2.order, hc⟩⟩
    · exact fun x hx => (List.mem_append.mp hx).elim (h1.nonempty x) (h2.nonempty x)
    · exact fun x hx => (List.mem_append.mp hx).elim (h1.dvd_lo x) (h2.dvd_lo x)
    · exact fun x hx => (List.mem_append.mp hx).elim (h1.dvd_hi x) (h2.dvd_hi x)

theorem sorted_singleton :
    Sorted seg g [x] ↔ (seg x).lo < (seg x).hi ∧ g ∣ (seg x).lo ∧ g ∣ (seg x).hi := by
  constructor
  · intro h
    exact ⟨h.nonempty x (by simp), h.dvd_lo x (by simp), h.dvd_hi x (by simp)⟩
  · intro ⟨h1, h2, h3⟩
    constructor <;> simp [*]

theorem sorted_cons : Sorted seg g (x :: l) ↔
      ((seg x).lo < (seg x).hi ∧ g ∣ (seg x).lo ∧ g ∣ (seg x).hi) ∧ Sorted seg g l ∧
        ∀ y ∈ l, (seg x).hi ≤ (seg y).lo := by
  rw [← List.singleton_append, sorted_append, sorted_singleton]
  simp

/-- What is before and after a segment of a sorted list. -/
theorem Sorted.around (h : Sorted seg g (A ++ x :: B)) :
    (∀ y ∈ A, (seg y).hi ≤ (seg x).lo) ∧ ∀ y ∈ B, (seg x).hi ≤ (seg y).lo := by
  obtain ⟨-, hB, hc⟩ := sorted_append.mp h
  exact ⟨fun y hy => hc y hy x (by simp), (sorted_cons.mp hB).2.2⟩

end SilanKernel.SegMap
