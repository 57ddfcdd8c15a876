import Mathlib.Data.List.Basic

/-!
# SilanKernel.Data.Pieces

**A line cut into pieces**: intervals of numbers that follow each other without gap, each with a
value. Such a list is a function on the numbers between its ends.

`keepBelow` cuts off what is above a number and `keepAbove` what is below; a new piece is written
between the two parts that stay. The rules say what each does to the function.
-/

namespace SilanKernel.Pieces

open List

structure Piece (β : Type) where
  lo : Nat
  hi : Nat
  val : β

variable {β : Type} {lo hi e s : Nat} {v : β} {x : Piece β} {l A B : List (Piece β)}

/-- The pieces are not empty and go from `lo` to `hi`. -/
def Chain (lo : Nat) : List (Piece β) → Nat → Prop
  | [], hi => lo = hi
  | x :: l, hi => x.lo = lo ∧ lo < x.hi ∧ Chain x.hi l hi

/-- The value at a number. -/
def view : List (Piece β) → Nat → Option β
  | [], _ => none
  | x :: l, a => if x.lo ≤ a ∧ a < x.hi then some x.val else view l a

theorem Chain.le (h : Chain lo l hi) : lo ≤ hi := by
  induction l generalizing lo with
  | nil => exact Nat.le_of_eq h
  | cons x l ih => exact Nat.le_trans (Nat.le_of_lt h.2.1) (ih h.2.2)

theorem chain_append : Chain lo (A ++ B) hi ↔ ∃ mid, Chain lo A mid ∧ Chain mid B hi := by
  induction A generalizing lo with
  | nil =>
    constructor
    · intro h
      exact ⟨lo, rfl, h⟩
    · intro ⟨mid, hlo, h⟩
      rw [show lo = mid from hlo]
      exact h
  | cons x A ih =>
    simp only [cons_append, Chain, ih]
    constructor
    · intro ⟨h1, h2, mid, h3, h4⟩
      exact ⟨mid, ⟨h1, h2, h3⟩, h4⟩
    · intro ⟨mid, ⟨h1, h2, h3⟩, h4⟩
      exact ⟨h1, h2, mid, h3, h4⟩

theorem Chain.append (hA : Chain lo A mid) (hB : Chain mid B hi) : Chain lo (A ++ B) hi :=
  chain_append.mpr ⟨mid, hA, hB⟩

theorem chain_singleton (h : lo < hi) : Chain lo [⟨lo, hi, v⟩] hi := ⟨rfl, h, rfl⟩

theorem Chain.mem (h : Chain lo l hi) (hx : x ∈ l) : lo ≤ x.lo ∧ x.lo < x.hi ∧ x.hi ≤ hi := by
  induction l generalizing lo with
  | nil => cases hx
  | cons y l ih =>
    obtain ⟨rfl, hlt, hl⟩ := h
    rcases mem_cons.mp hx with rfl | hx
    · exact ⟨Nat.le_refl _, hlt, hl.le⟩
    · obtain ⟨h1, h2, h3⟩ := ih hl hx
      exact ⟨by omega, h2, h3⟩

theorem Chain.end_le (h : Chain lo l hi) (hlo : lo ≤ e) (hl : ∀ x ∈ l, x.hi ≤ e) : hi ≤ e := by
  induction l generalizing lo with
  | nil => exact Nat.le_trans (Nat.le_of_eq h.symm) hlo
  | cons x l ih =>
    apply ih h.2.2 (hl x (mem_cons_self ..))
    intro y hy
    exact hl y (mem_cons_of_mem _ hy)

/-- The parts around a piece. -/
theorem Chain.around (h : Chain lo (A ++ x :: B) hi) :
    Chain lo A x.lo ∧ x.lo < x.hi ∧ Chain x.hi B hi := by
  obtain ⟨mid, hA, rfl, hlt, hB⟩ := chain_append.mp h
  exact ⟨hA, hlt, hB⟩

/-! ### The function -/

theorem view_append : view (A ++ B) a = (view A a).or (view B a) := by
  induction A with
  | nil => rfl
  | cons x A ih =>
    rw [cons_append, view, view, ih]
    split <;> rfl

/-- Outside its ends a list of pieces has no value. -/
theorem Chain.view_eq_none (h : Chain lo l hi) (ha : a < lo ∨ hi ≤ a) : view l a = none := by
  induction l generalizing lo with
  | nil => rfl
  | cons x l ih =>
    obtain ⟨rfl, hlt, hl⟩ := h
    have hle := hl.le
    rw [view, if_neg (by omega)]
    exact ih hl (by omega)

/-- Between its ends it has one everywhere. -/
theorem Chain.view_eq_none_iff (h : Chain lo l hi) : view l a = none ↔ a < lo ∨ hi ≤ a := by
  constructor
  · intro hnone
    induction l generalizing lo with
    | nil =>
      have : lo = hi := h
      omega
    | cons x l ih =>
      obtain ⟨rfl, hlt, hl⟩ := h
      rw [view] at hnone
      split at hnone
      · cases hnone
      · rcases ih hl hnone with hbelow | habove
        · exact .inl (by omega)
        · exact .inr habove
  · exact h.view_eq_none

theorem Chain.view_append (hA : Chain lo A mid) (hB : Chain mid B hi) :
    view (A ++ B) a = if a < mid then view A a else view B a := by
  rw [Pieces.view_append]
  split
  · rw [hB.view_eq_none (.inl ‹_›), Option.or_none]
  · rw [hA.view_eq_none (.inr (by omega)), Option.none_or]

theorem view_singleton (lo hi : Nat) (v : β) (a : Nat) :
    view [⟨lo, hi, v⟩] a = if lo ≤ a ∧ a < hi then some v else none := rfl

/-! ### Cutting -/

/-- What is below `e`. -/
def keepBelow (e : Nat) : List (Piece β) → List (Piece β)
  | [] => []
  | x :: l =>
    if e ≤ x.lo then []
    else if e < x.hi then [{ x with hi := e }]
    else x :: keepBelow e l

/-- What is not below `e`. -/
def keepAbove (e : Nat) : List (Piece β) → List (Piece β)
  | [] => []
  | x :: l =>
    if x.hi ≤ e then keepAbove e l
    else if x.lo < e then { x with lo := e } :: l
    else x :: l

theorem Chain.keepBelow (h : Chain lo l hi) (hlo : lo ≤ e) (hhi : e ≤ hi) :
    Chain lo (keepBelow e l) e := by
  induction l generalizing lo with
  | nil => exact Nat.le_antisymm hlo (Nat.le_trans hhi (Nat.le_of_eq h.symm))
  | cons x l ih =>
    obtain ⟨rfl, hlt, hl⟩ := h
    rw [Pieces.keepBelow]
    split
    · exact Nat.le_antisymm hlo ‹_›
    · split
      · exact ⟨rfl, Nat.lt_of_not_le ‹_›, rfl⟩
      · exact ⟨rfl, hlt, ih hl (by omega)⟩

theorem Chain.keepBelow_of_le (h : Chain lo l hi) (hhi : hi ≤ e) : Pieces.keepBelow e l = l := by
  induction l generalizing lo with
  | nil => rfl
  | cons x l ih =>
    obtain ⟨rfl, hlt, hl⟩ := h
    have hle := hl.le
    rw [Pieces.keepBelow, if_neg (by omega), if_neg (by omega), ih hl]

theorem Chain.keepBelow_min (h : Chain 0 l hi) : Chain 0 (Pieces.keepBelow e l) (min e hi) := by
  by_cases hle : e ≤ hi
  · rw [Nat.min_eq_left hle]
    exact h.keepBelow (Nat.zero_le _) hle
  · rw [Nat.min_eq_right (by omega), h.keepBelow_of_le (by omega)]
    exact h

theorem Chain.view_keepBelow (h : Chain lo l hi) :
    view (Pieces.keepBelow e l) a = if a < e then view l a else none := by
  induction l generalizing lo with
  | nil =>
    rw [Pieces.keepBelow, view]
    split <;> rfl
  | cons x l ih =>
    obtain ⟨rfl, hlt, hl⟩ := h
    rw [Pieces.keepBelow]
    by_cases hlo : e ≤ x.lo
    · rw [if_pos hlo]
      split
      · exact (Chain.view_eq_none (l := x :: l) ⟨rfl, hlt, hl⟩ (.inl (by omega))).symm
      · rfl
    rw [if_neg hlo]
    by_cases hhi : e < x.hi
    · rw [if_pos hhi]
      simp only [view]
      split
      · rw [if_pos (by omega), if_pos (by omega)]
      · split
        · rw [if_neg (by omega), hl.view_eq_none (.inl (by omega))]
        · rfl
    · rw [if_neg hhi, view, view, ih hl]
      split
      · rw [if_pos (by omega)]
      · rfl

theorem Chain.keepAbove (h : Chain lo l hi) (hlo : lo ≤ e) :
    Chain e (keepAbove e l) (max e hi) := by
  induction l generalizing lo with
  | nil => exact (Nat.max_eq_left (Nat.le_trans (Nat.le_of_eq h.symm) hlo)).symm
  | cons x l ih =>
    obtain ⟨rfl, hlt, hl⟩ := h
    have hle := hl.le
    rw [Pieces.keepAbove]
    split
    · exact ih hl ‹_›
    rw [Nat.max_eq_right (by omega)]
    split
    · exact ⟨rfl, Nat.lt_of_not_le ‹_›, hl⟩
    · obtain rfl : x.lo = e := by omega
      exact ⟨rfl, hlt, hl⟩

theorem Chain.view_keepAbove (h : Chain lo l hi) :
    view (Pieces.keepAbove e l) a = if a < e then none else view l a := by
  induction l generalizing lo with
  | nil =>
    rw [Pieces.keepAbove, view]
    split <;> rfl
  | cons x l ih =>
    obtain ⟨rfl, hlt, hl⟩ := h
    rw [Pieces.keepAbove]
    by_cases hhi : x.hi ≤ e
    · rw [if_pos hhi, ih hl, view]
      split
      · rfl
      · rw [if_neg (by omega)]
    rw [if_neg hhi]
    have hout : a < e → view l a = none := fun ha => hl.view_eq_none (.inl (by omega))
    by_cases hlo : x.lo < e
    · rw [if_pos hlo]
      simp only [view]
      split
      · rw [if_neg (by omega), if_pos (by omega)]
      · split
        · exact hout ‹_›
        · rw [if_neg (by omega)]
    · rw [if_neg hlo]
      split
      · rw [view, if_neg (by omega)]
        exact hout ‹_›
      · rfl

/-- Pieces below `e` are dropped as a whole. -/
theorem keepAbove_append (hA : ∀ x ∈ A, x.hi ≤ e) : keepAbove e (A ++ B) = keepAbove e B := by
  induction A with
  | nil => rfl
  | cons x A ih =>
    rw [cons_append, keepAbove, if_pos (hA x (mem_cons_self ..))]
    exact ih fun y hy => hA y (mem_cons_of_mem _ hy)

/-- Pieces below `e` are kept as a whole. -/
theorem Chain.keepBelow_append (hA : Chain lo A mid) (hmid : mid ≤ e) :
    Pieces.keepBelow e (A ++ B) = A ++ Pieces.keepBelow e B := by
  induction A generalizing lo with
  | nil => rfl
  | cons x A ih =>
    obtain ⟨rfl, hlt, hl⟩ := hA
    have hle := hl.le
    rw [cons_append, Pieces.keepBelow, if_neg (by omega), if_neg (by omega), ih hl, cons_append]

/-! ### Writing -/

/-- A piece written over what there is. -/
def write (s e : Nat) (v : β) (l : List (Piece β)) : List (Piece β) :=
  keepBelow s l ++ ⟨s, e, v⟩ :: keepAbove e l

theorem Chain.write (h : Chain lo l hi) (hlo : lo ≤ s) (hhi : s ≤ hi) (hse : s < e) :
    Chain lo (write s e v l) (max e hi) :=
  (h.keepBelow hlo hhi).append ⟨rfl, hse, h.keepAbove (Nat.le_trans hlo (Nat.le_of_lt hse))⟩

/-- The new piece has its value, everything else is as it was. -/
theorem Chain.view_write (h : Chain lo l hi) (hlo : lo ≤ s) (hhi : s ≤ hi) (hse : s < e) :
    view (Pieces.write s e v l) a = if s ≤ a ∧ a < e then some v else view l a := by
  have hbelow := h.keepBelow hlo hhi
  have habove : Chain s (⟨s, e, v⟩ :: Pieces.keepAbove e l) (max e hi) :=
    ⟨rfl, hse, h.keepAbove (Nat.le_trans hlo (Nat.le_of_lt hse))⟩
  rw [Pieces.write, hbelow.view_append habove, h.view_keepBelow]
  simp only [view, h.view_keepAbove]
  by_cases has : a < s
  · rw [if_pos has, if_pos has, if_neg (by omega)]
  · rw [if_neg has]
    split
    · rfl
    · rw [if_neg (by omega)]

/-- Written inside a piece: its two ends stay, if they are not empty. -/
theorem Chain.write_eq (h : Chain lo (A ++ x :: B) hi) (hlo : x.lo ≤ s) (hhi : s < x.hi)
    (hse : s < e) :
    Pieces.write s e v (A ++ x :: B) = A ++ (if x.lo < s then [{ x with hi := s }] else []) ++
        ⟨s, e, v⟩ :: (if e < x.hi then { x with lo := e } :: B else Pieces.keepAbove e B) := by
  obtain ⟨hA, hlt, hB⟩ := h.around
  have hbelow : Pieces.keepBelow s (x :: B) = if x.lo < s then [{ x with hi := s }] else [] := by
    rw [Pieces.keepBelow]
    by_cases hxs : x.lo < s
    · rw [if_neg (by omega), if_pos hhi, if_pos hxs]
    · rw [if_pos (by omega), if_neg hxs]
  have habove : Pieces.keepAbove e (x :: B) = if e < x.hi then { x with lo := e } :: B else
      Pieces.keepAbove e B := by
    rw [Pieces.keepAbove]
    by_cases hex : e < x.hi
    · rw [if_neg (by omega), if_pos (by omega), if_pos hex]
    · rw [if_pos (by omega), if_neg hex]
  have hdrop : ∀ y ∈ A, y.hi ≤ e := fun y hy => by
    have := (hA.mem hy).2.2
    omega
  rw [Pieces.write, hA.keepBelow_append hlo, hbelow, keepAbove_append hdrop, habove]

theorem Chain.write_end (h : Chain lo l hi) (hhi : hi ≤ s) (hse : s < e) :
    Pieces.write s e v l = l ++ [⟨s, e, v⟩] := by
  have hdrop : Pieces.keepAbove e (l ++ []) = [] := keepAbove_append fun x hx => by
    have := (h.mem hx).2.2
    omega
  rw [Pieces.write, h.keepBelow_of_le hhi, ← append_nil l, hdrop, append_nil]

/-- A piece that fills the gap up to `s`, if there is one. -/
def fill (v : β) (hi s : Nat) (l : List (Piece β)) : List (Piece β) :=
  if hi < s then l ++ [⟨hi, s, v⟩] else l

theorem Chain.fill (h : Chain lo l hi) : Chain lo (fill v hi s l) (max hi s) := by
  rw [Pieces.fill]
  split
  · rw [Nat.max_eq_right (by omega)]
    exact h.append (chain_singleton ‹_›)
  · rwa [Nat.max_eq_left (by omega)]

theorem Chain.view_fill (h : Chain lo l hi) :
    view (Pieces.fill v hi s l) a = if hi ≤ a ∧ a < s then some v else view l a := by
  rw [Pieces.fill]
  split
  · rw [h.view_append (chain_singleton ‹_›), view_singleton]
    split
    · rw [if_neg (by omega)]
    · rw [h.view_eq_none (.inr (by omega))]
  · rw [if_neg (by omega)]

end SilanKernel.Pieces
