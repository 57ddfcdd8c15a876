import Mathlib.Data.List.Basic

/-!
# SilanKernel.Data.NearEnds

Lists that have a marked element near both ends.

`NearEnds h P l` says that a list of two or more has an element with `P` among its first `h` and
one among its last `h`. It is what a row of nodes keeps when only neighbours are merged: a node
that is too small has a neighbour that is not.
-/

namespace SilanKernel

open List

variable {α : Type*} {P : α → Prop} {h : Nat} {u v l : List α} {c x : α}

theorem mem_mid : x ∈ u ++ c :: v ↔ x ∈ u ∨ x = c ∨ x ∈ v := by
  rw [mem_append, mem_cons]

theorem mem_mid_right (h : x ∈ v) : x ∈ u ++ c :: v := mem_mid.2 (.inr (.inr h))

theorem mem_mid_of_mem (h : x ∈ u ++ v) : x ∈ u ++ c :: v :=
  (mem_append.1 h).elim (mem_append_left _) mem_mid_right

theorem forall_mid (h : ∀ x ∈ u ++ v, P x) (hc : P c) : ∀ x ∈ u ++ c :: v, P x := by
  intro x hx
  rcases mem_mid.1 hx with hx | rfl | hx
  · exact h x (mem_append_left _ hx)
  · exact hc
  · exact h x (mem_append_right _ hx)

/-- One of the first `h` elements is marked. -/
def NearFront (h : Nat) (P : α → Prop) (l : List α) : Prop := ∃ x ∈ l.take h, P x

/-- There is a marked element near both ends, unless the list is too short to have two. -/
def NearEnds (h : Nat) (P : α → Prop) (l : List α) : Prop :=
  2 ≤ l.length → NearFront h P l ∧ NearFront h P l.reverse

namespace NearFront

theorem of_mem (hx : x ∈ u) (hP : P x) (hu : u.length ≤ h) : NearFront h P (u ++ v) := by
  refine ⟨x, ?_, hP⟩
  rw [take_append, take_of_length_le hu]
  exact mem_append_left _ hx

theorem mono (hl : NearFront h P l) (hP : ∀ x ∈ l, P x → P' x) : NearFront h P' l := by
  obtain ⟨x, hx, hPx⟩ := hl
  exact ⟨x, hx, hP x (mem_of_mem_take hx) hPx⟩

theorem append (hu : NearFront h P u) : NearFront h P (u ++ v) := by
  obtain ⟨x, hx, hPx⟩ := hu
  exact ⟨x, by rw [take_append]; exact mem_append_left _ hx, hPx⟩

/-- An element with `h` in front of it does not matter. -/
theorem of_long (hl : NearFront h P (u ++ v)) (hu : h ≤ u.length) : NearFront h P u := by
  obtain ⟨x, hx, hPx⟩ := hl
  rw [take_append_of_le_length hu] at hx
  exact ⟨x, hx, hPx⟩

theorem middle (hm : P m) (hl : h ≤ u.length → NearFront h P (u ++ w)) :
    NearFront h P (u ++ m :: v) := by
  by_cases hu : h ≤ u.length
  · exact ((hl hu).of_long hu).append
  · rw [List.append_cons]
    exact of_mem (mem_append_right _ (mem_singleton_self m)) hm
      (by rw [length_append, length_singleton]; omega)

theorem erase (hl : NearFront h P (u ++ c :: v)) (hc : ¬ P c) : NearFront h P (u ++ v) := by
  obtain ⟨x, hx, hPx⟩ := hl
  rw [take_append, mem_append] at hx
  refine ⟨x, ?_, hPx⟩
  rw [take_append, mem_append]
  rcases hx with hx | hx
  · exact .inl hx
  cases hn : h - u.length with
  | zero => simp [hn] at hx
  | succ n =>
    rw [hn, take_succ_cons, mem_cons] at hx
    rcases hx with rfl | hx
    · exact absurd hPx hc
    · exact .inr ((take_subset_take_left v (Nat.le_succ n)) hx)

/-- An element loses its mark, and its neighbours have one. -/
theorem unmark (hl : NearFront h P (u ++ c :: v)) (hh : 2 ≤ h)
    (hlen : 2 ≤ (u ++ c :: v).length) (hP : ∀ x ∈ u ++ v, P x → P' x)
    (hu : ∀ x ∈ u.getLast?, P' x) (hv : ∀ x ∈ v.head?, P' x) : NearFront h P' (u ++ c :: v) := by
  rcases eq_nil_or_concat' u with rfl | ⟨u0, y, rfl⟩
  · cases v with
    | nil => simp at hlen
    | cons z v =>
      refine ⟨z, ?_, hv z rfl⟩
      obtain ⟨n, rfl⟩ : ∃ n, h = n + 2 := ⟨h - 2, by omega⟩
      simp
  · have hy : P' y := hu y (by simp)
    by_cases hlong : h ≤ (u0 ++ [y]).length
    · obtain ⟨x, hx, hPx⟩ := hl.of_long hlong
      exact append ⟨x, hx, hP x (mem_append_left _ (mem_of_mem_take hx)) hPx⟩
    · exact of_mem (mem_append_right _ (mem_singleton_self y)) hy (by omega)

end NearFront

namespace NearEnds

theorem reverse_iff : NearEnds h P l.reverse ↔ NearEnds h P l := by
  unfold NearEnds
  rw [length_reverse, reverse_reverse, and_comm]

theorem of_short (hl : l.length < 2) : NearEnds h P l := fun h2 => absurd h2 (by omega)

theorem of_forall (hh : 1 ≤ h) (hP : ∀ x ∈ l, P x) : NearEnds h P l := by
  intro h2
  have hfront : ∀ l' : List α, l'.length = l.length → (∀ x ∈ l', P x) → NearFront h P l' := by
    intro l' hlen hl'
    obtain ⟨x, t, rfl⟩ := exists_cons_of_length_pos (l := l') (by omega)
    obtain ⟨n, rfl⟩ : ∃ n, h = n + 1 := ⟨h - 1, by omega⟩
    exact ⟨x, by simp, hl' x (mem_cons_self ..)⟩
  exact ⟨hfront l rfl hP, hfront l.reverse (length_reverse ..) fun x hx => hP x (mem_reverse.1 hx)⟩

theorem mono (hl : NearEnds h P l) (hP : ∀ x ∈ l, P x → P' x) : NearEnds h P' l := by
  intro h2
  exact ⟨(hl h2).1.mono hP, (hl h2).2.mono fun x hx => hP x (mem_reverse.1 hx)⟩

/-- A marked element comes between, or in the place of others. -/
theorem middle (hl : NearEnds h P (u ++ w ++ v)) (hh : 2 ≤ h) (hm : P m) :
    NearEnds h P (u ++ m :: v) := by
  intro _
  constructor
  · refine NearFront.middle (w := w ++ v) hm fun hu => ?_
    rw [← append_assoc]
    exact (hl (by simp only [length_append]; omega)).1
  · rw [reverse_append, reverse_cons, append_assoc, singleton_append]
    refine NearFront.middle (w := w.reverse ++ u.reverse) hm fun hv => ?_
    rw [← reverse_append, ← reverse_append]
    rw [length_reverse] at hv
    exact (hl (by simp only [length_append]; omega)).2

theorem erase (hl : NearEnds h P (u ++ c :: v)) (hc : ¬ P c) : NearEnds h P (u ++ v) := by
  intro h2
  obtain ⟨hf, hb⟩ := hl (by simp only [length_append, length_cons] at *; omega)
  refine ⟨hf.erase hc, ?_⟩
  rw [reverse_append, reverse_cons, append_assoc, singleton_append] at hb
  rw [reverse_append]
  exact hb.erase hc

/-- What is left next to an element without a mark has one. -/
theorem exists_of_erase (hl : NearEnds h P (u ++ c :: v)) (hc : ¬ P c) (hne : u ++ v ≠ []) :
    ∃ x ∈ u ++ v, P x := by
  have hpos := length_pos_iff.2 hne
  obtain ⟨x, hx, hP⟩ :=
    (hl (by simp only [length_append, length_cons] at *; omega)).1.erase hc
  exact ⟨x, mem_of_mem_take hx, hP⟩

theorem unmark (hl : NearEnds h P (u ++ c :: v)) (hh : 2 ≤ h) (hP : ∀ x ∈ u ++ v, P x → P' x)
    (hu : ∀ x ∈ u.getLast?, P' x) (hv : ∀ x ∈ v.head?, P' x) : NearEnds h P' (u ++ c :: v) := by
  intro h2
  refine ⟨(hl h2).1.unmark hh h2 hP hu hv, ?_⟩
  have hb := (hl h2).2
  have hlen : 2 ≤ (v.reverse ++ c :: u.reverse).length := by
    simp only [length_append, length_cons, length_reverse] at *
    omega
  rw [reverse_append, reverse_cons, append_assoc, singleton_append] at hb ⊢
  refine hb.unmark hh hlen (fun x hx => hP x ?_) ?_ ?_
  · simpa [or_comm] using hx
  · rwa [getLast?_reverse]
  · rwa [head?_reverse]

/-- A short list with a marked element before a list that is near its ends. -/
theorem append (hu : u.length < h) (hm : ∃ x ∈ u, P x) (hv : NearEnds h P v) :
    NearEnds h P (u ++ v) := by
  obtain ⟨x, hx, hP⟩ := hm
  intro _
  refine ⟨NearFront.of_mem hx hP (by omega), ?_⟩
  rw [reverse_append]
  by_cases h2 : 2 ≤ v.length
  · exact (hv h2).2.append
  · rw [← append_nil (v.reverse ++ u.reverse)]
    refine NearFront.of_mem (mem_append_right _ (mem_reverse.2 hx)) hP ?_
    simp only [length_append, length_reverse]
    omega

theorem append_right (hu : NearEnds h P u) (hv : v.length < h) (hm : ∃ x ∈ v, P x) :
    NearEnds h P (u ++ v) := by
  obtain ⟨x, hx, hP⟩ := hm
  rw [← reverse_iff, reverse_append]
  exact append (by rwa [length_reverse]) ⟨x, mem_reverse.2 hx, hP⟩ (reverse_iff.2 hu)

/-- The first `h` elements of a long list. -/
theorem left (hl : NearEnds h P (u ++ v)) (hh : 2 ≤ h) (hu : u.length = h) : NearEnds h P u := by
  intro _
  obtain ⟨x, hx, hP⟩ := (hl (by simp only [length_append]; omega)).1.of_long (Nat.le_of_eq hu.symm)
  have hx := mem_of_mem_take hx
  rw [← append_nil u, reverse_append]
  refine ⟨NearFront.of_mem hx hP (Nat.le_of_eq hu), ?_⟩
  rw [reverse_nil, nil_append, ← append_nil u.reverse]
  exact NearFront.of_mem (mem_reverse.2 hx) hP (by rw [length_reverse]; omega)

theorem right (hl : NearEnds h P (u ++ v)) (hh : 2 ≤ h) (hv : v.length = h) : NearEnds h P v := by
  rw [← reverse_iff, reverse_append] at hl
  exact reverse_iff.1 (hl.left hh (by rwa [length_reverse]))

end NearEnds

end SilanKernel
