import Mathlib.Data.List.Range

/-!
# SilanKernel.Data.FirstIn

**The first index of a range with a property**, or the end of the range if none has it. This
is what searches return that give a number in every case. Searches that take more than one
index return the first of all `hits`.
-/

namespace SilanKernel

open List

/-- `r` is the least index from `lo` on and below `hi` with `P`, or `hi` if there is none. -/
def FirstIn (P : Nat → Prop) (lo hi r : Nat) : Prop :=
  (∀ i, lo ≤ i → i < r → ¬ P i) ∧ (r = hi ∨ lo ≤ r ∧ r < hi ∧ P r)

namespace FirstIn

theorem found (hno : ∀ i, lo ≤ i → i < r → ¬ P i) (hlo : lo ≤ r) (hhi : r < hi) (hP : P r) :
    FirstIn P lo hi r :=
  ⟨hno, .inr ⟨hlo, hhi, hP⟩⟩

theorem none (hno : ∀ i, lo ≤ i → i < hi → ¬ P i) : FirstIn P lo hi hi := ⟨hno, .inl rfl⟩

theorem empty (h : hi ≤ lo) : FirstIn P lo hi hi := none fun i hlo hhi => absurd hhi (by omega)

/-- The search may start later if it passes nothing. -/
theorem skip (h : FirstIn P mid hi r) (hle : lo ≤ mid) (hno : ∀ i, lo ≤ i → i < mid → ¬ P i) :
    FirstIn P lo hi r := by
  obtain ⟨hbefore, hr⟩ := h
  refine ⟨fun i hlo hi => ?_, hr.imp_right fun ⟨hmid, hrest⟩ => ⟨Nat.le_trans hle hmid, hrest⟩⟩
  rcases Nat.lt_or_ge i mid with hlt | hge
  · exact hno i hlo hlt
  · exact hbefore i hge hi

/-- Only the indices of the range matter. -/
theorem congr (h : FirstIn P lo hi r) (hPQ : ∀ i, lo ≤ i → i < hi → (P i ↔ Q i)) :
    FirstIn Q lo hi r := by
  obtain ⟨hbefore, hr⟩ := h
  refine ⟨fun i hlo hi' => ?_, hr.imp_right fun ⟨hlo, hhi, hP⟩ => ⟨hlo, hhi, (hPQ r hlo hhi).mp hP⟩⟩
  rw [← hPQ i hlo (by omega)]
  exact hbefore i hlo hi'

end FirstIn

/-! ### All indices of a range with a property -/

/-- The indices from `lo` on and below `hi` with `P`, in ascending order. -/
def hits (P : Nat → Bool) (lo hi : Nat) : List Nat := (List.range' lo (hi - lo)).filter P

theorem mem_hits (h : i ∈ hits P lo hi) : lo ≤ i ∧ i < hi ∧ P i = true := by
  obtain ⟨hmem, hP⟩ := mem_filter.mp h
  obtain ⟨hlo, hlt⟩ := mem_range'_1.mp hmem
  exact ⟨hlo, by omega, hP⟩

theorem hits_append (hlo : lo ≤ mid) (hhi : mid ≤ hi) :
    hits P lo hi = hits P lo mid ++ hits P mid hi := by
  have hrange := List.range'_append_1 (s := lo) (m := mid - lo) (n := hi - mid)
  rw [Nat.add_sub_cancel' hlo, show mid - lo + (hi - mid) = hi - lo by omega] at hrange
  rw [hits, ← hrange, filter_append]
  rfl

theorem hits_eq_nil (hno : ∀ i, lo ≤ i → i < hi → P i = false) : hits P lo hi = [] := by
  refine eq_nil_iff_forall_not_mem.mpr fun i hmem => ?_
  obtain ⟨hlo, hhi, hP⟩ := mem_hits hmem
  exact absurd hP (by simp [hno i hlo hhi])

@[simp] theorem hits_self : hits P lo lo = [] := by simp [hits]

theorem hits_succ (hlo : lo ≤ hi) : hits P lo (hi + 1) = hits P lo hi ++ if P hi then
    [hi] else [] := by
  have hone : hits P hi (hi + 1) = if P hi then [hi] else [] := by simp [hits, filter_cons]
  rw [hits_append hlo (Nat.le_succ hi), hone]

theorem hits_congr (hPQ : ∀ i < hi, P i = Q i) : hits P lo hi = hits Q lo hi := by
  refine filter_congr fun i hmem => hPQ i ?_
  obtain ⟨hlo, hlt⟩ := mem_range'_1.mp hmem
  omega

/-- The first `m` of them, where a search for them may stop. -/
theorem hits_take (hlo : lo ≤ mid) (hhi : mid ≤ hi) (hlen : (hits P lo mid).length ≤ m)
    (hend : m ≤ (hits P lo mid).length ∨ ∀ i, mid ≤ i → i < hi → P i = false) :
    (hits P lo hi).take m = hits P lo mid := by
  rw [hits_append hlo hhi]
  rcases hend with hend | hend
  · exact take_left' (Nat.le_antisymm hlen hend)
  · rw [hits_eq_nil hend, append_nil, take_of_length_le hlen]

end SilanKernel
