import Mathlib.Data.List.Nodup
import Mathlib.Data.List.Infix

/-!
# SilanKernel.Data.DList

Doubly linked lists threaded through two **link functions**.

C code keeps a doubly linked list as a head pointer plus a `next` and a `prev`
field in every cell. Here the two fields are functions `next prev : P → Option P`
over an arbitrary type `P` of pointers, `none` playing the null pointer, and
`Seg next prev b hd l a` says that following `next` from `hd` visits exactly the
cells of `l`, that the first of them points back to `b`, and that the last of
them points on to `a`. A whole list is a segment from `none` to `none`.

Nothing here mentions how the fields are stored: the update lemmas compare the
link functions *before and after* a group of assignments, so a client only has
to say which cells its assignments touch. The three that matter are `unlink`
(take a cell out), `insert` (put one in between two parts) and `frame`
(assignments elsewhere).
-/

namespace SilanKernel.DList

open List

variable {P : Type*}

/-- The cells `l` are linked in this order from `hd` to `a`, the first one
pointing back to `b`. -/
def Seg (next prev : P → Option P) : Option P → Option P → List P → Option P → Prop
  | _, hd, [], a => hd = a
  | b, hd, p :: l, a => hd = some p ∧ prev p = b ∧ Seg next prev (some p) (next p) l a

/-- A whole list: no cell before, none after, no cell twice. -/
structure IsList (next prev : P → Option P) (hd : Option P) (l : List P) : Prop where
  seg : Seg next prev none hd l none
  nodup : l.Nodup

variable {next prev next' prev' : P → Option P} {b b' hd a a' : Option P} {p x : P}
  {l l1 l2 : List P}

@[simp] theorem seg_nil : Seg next prev b hd [] a ↔ hd = a := Iff.rfl

@[simp] theorem seg_cons : Seg next prev b hd (p :: l) a ↔
      hd = some p ∧ prev p = b ∧ Seg next prev (some p) (next p) l a := Iff.rfl

/-- The cell before a position: the last of the cells passed, else the one the
segment itself starts from. -/
def lastOr (b : Option P) (l : List P) : Option P := l.getLast?.or b

@[simp] theorem lastOr_nil : lastOr b ([] : List P) = b := rfl

@[simp] theorem lastOr_cons : lastOr b (p :: l) = lastOr (some p) l := by
  cases l with
  | nil => rfl
  | cons q l =>
    cases h : (q :: l).getLast? with
    | none => simp at h
    | some r => simp [lastOr, h]

theorem lastOr_none : lastOr none l = l.getLast? := by
  simp [lastOr]

/-- A segment splits at any point, and two segments that meet join up. -/
theorem seg_append : Seg next prev b hd (l1 ++ l2) a ↔
      ∃ m, Seg next prev b hd l1 m ∧ Seg next prev (lastOr b l1) m l2 a := by
  induction l1 generalizing b hd with
  | nil => simp
  | cons q l1 ih =>
    simp only [cons_append, seg_cons, ih, lastOr_cons]
    constructor
    · rintro ⟨h1, h2, m, h3, h4⟩
      exact ⟨m, ⟨h1, h2, h3⟩, h4⟩
    · rintro ⟨m, ⟨h1, h2, h3⟩, h4⟩
      exact ⟨h1, h2, m, h3, h4⟩

/-- Assignments to other cells leave a segment alone. -/
theorem Seg.frame (h : Seg next prev b hd l a) (hn : ∀ q ∈ l, next' q = next q)
    (hp : ∀ q ∈ l, prev' q = prev q) : Seg next' prev' b hd l a := by
  induction l generalizing b hd with
  | nil => exact h
  | cons q l ih =>
    obtain ⟨h1, h2, h3⟩ := h
    refine ⟨h1, (hp q (by simp)).trans h2, ?_⟩
    rw [hn q (by simp)]
    exact ih h3 (fun r hr => hn r (by simp [hr])) (fun r hr => hp r (by simp [hr]))

/-- The head of a segment that ends in `none` is its first cell. -/
theorem Seg.head_eq (h : Seg next prev b hd l none) : hd = l.head? := by
  cases l with
  | nil => exact h
  | cons q l => exact h.1

/-- Redirecting what the first cell points back to. -/
theorem Seg.set_before [DecidableEq P] (h : Seg next prev b hd l a) (hnd : l.Nodup)
    (hn : ∀ q ∈ l, next' q = next q)
    (hp : ∀ q ∈ l, prev' q = if l.head? = some q then b' else prev q) :
    Seg next' prev' b' hd l a := by
  cases l with
  | nil => exact h
  | cons q l =>
    obtain ⟨h1, -, h3⟩ := h
    refine ⟨h1, by simpa using hp q (by simp), ?_⟩
    rw [hn q (by simp)]
    refine h3.frame (fun r hr => hn r (by simp [hr])) (fun r hr => ?_)
    have hqr : q ≠ r := fun e => (nodup_cons.mp hnd).1 (e ▸ hr)
    simpa [hqr] using hp r (by simp [hr])

/-- Redirecting what the last cell points on to; an empty segment is redirected
at its head. -/
theorem Seg.set_after [DecidableEq P] (h : Seg next prev b hd l a) (hnd : l.Nodup)
    (hn : ∀ q ∈ l, next' q = if l.getLast? = some q then a' else next q)
    (hp : ∀ q ∈ l, prev' q = prev q) :
    Seg next' prev' b (if l = [] then a' else hd) l a' := by
  induction l generalizing b hd with
  | nil => simp
  | cons q l ih =>
    obtain ⟨h1, h2, h3⟩ := h
    simp only [cons_ne_nil, if_false]
    refine ⟨h1, (hp q (by simp)).trans h2, ?_⟩
    have hnd' := nodup_cons.mp hnd
    cases l with
    | nil => simpa using hn q (by simp)
    | cons r l =>
      have hlast : (q :: r :: l).getLast? ≠ some q := by
        rw [getLast?_cons_cons]
        exact fun e => hnd'.1 (mem_of_getLast? e)
      have hq : next' q = next q := by rw [hn q (by simp), if_neg hlast]
      rw [hq]
      have := ih h3 hnd'.2 (fun s hs => by
          have := hn s (by simp [mem_cons.mp hs])
          rwa [getLast?_cons_cons] at this)
        (fun s hs => hp s (by simp [mem_cons.mp hs]))
      simpa using this

/-! ### Whole lists -/

theorem isList_nil : IsList next prev none [] := ⟨rfl, nodup_nil⟩

theorem IsList.frame (h : IsList next prev hd l) (hn : ∀ q ∈ l, next' q = next q)
    (hp : ∀ q ∈ l, prev' q = prev q) : IsList next' prev' hd l :=
  ⟨h.seg.frame hn hp, h.nodup⟩

theorem IsList.head_eq (h : IsList next prev hd l) : hd = l.head? := h.seg.head_eq

theorem IsList.eq_nil (h : IsList next prev none l) : l = [] := by
  have := h.head_eq
  cases l with
  | nil => rfl
  | cons q l => simp at this

/-- The links of a cell in the middle of a list. -/
theorem IsList.links (h : IsList next prev hd (l1 ++ p :: l2)) :
    prev p = l1.getLast? ∧ next p = l2.head? := by
  obtain ⟨m, -, -, h2, h3⟩ := seg_append.mp h.seg
  exact ⟨by rw [h2, lastOr_none], h3.head_eq⟩

/-- The links of a list's cells stay in the list. -/
theorem IsList.next_mem (h : IsList next prev hd l) (hp : p ∈ l) (e : next p = some q) : q ∈ l := by
  obtain ⟨l1, l2, rfl⟩ := append_of_mem hp
  rw [h.links.2] at e
  simp [mem_of_head? e]

theorem IsList.prev_mem (h : IsList next prev hd l) (hp : p ∈ l) (e : prev p = some q) : q ∈ l := by
  obtain ⟨l1, l2, rfl⟩ := append_of_mem hp
  rw [h.links.1] at e
  simp [mem_of_getLast? e]

/-- Two segments get other cells between them. -/
theorem Seg.turn [DecidableEq P] (hs1 : Seg next prev b hd l1 a)
    (hs2 : Seg next prev b₂ hd₂ l2 none) (hnd : (l1 ++ l2).Nodup)
    (hn : ∀ q ∈ l1 ++ l2, next' q = if l1.getLast? = some q then a' else next q)
    (hp : ∀ q ∈ l1 ++ l2, prev' q = if l2.head? = some q then b' else prev q) :
    Seg next' prev' b (if l1 = [] then a' else hd) l1 a' ∧ Seg next' prev' b' l2.head? l2 none := by
  obtain ⟨hnd1, hnd2, hdisj⟩ := nodup_append'.mp hnd
  refine ⟨hs1.set_after hnd1 ?_ ?_, hs2.head_eq ▸ hs2.set_before hnd2 ?_ ?_⟩
  · exact fun q hq => hn q (by simp [hq])
  · intro q hq
    have : l2.head? ≠ some q := fun e => hdisj hq (mem_of_head? e)
    simpa [this] using hp q (by simp [hq])
  · intro q hq
    have : l1.getLast? ≠ some q := fun e => hdisj (mem_of_getLast? e) hq
    simpa [this] using hn q (by simp [hq])
  · exact fun q hq => hp q (by simp [hq])

/-- **Cutting a part out.** The assignments make the cell before the part (if any) point on
to the cell after it, and that one point back. -/
theorem IsList.cut [DecidableEq P] (h : IsList next prev hd (l1 ++ (m ++ l2)))
    (hn : ∀ q ∈ l1 ++ l2, next' q = if l1.getLast? = some q then l2.head? else next q)
    (hp : ∀ q ∈ l1 ++ l2, prev' q = if l2.head? = some q then l1.getLast? else prev q) :
    IsList next' prev' (if l1 = [] then l2.head? else hd) (l1 ++ l2) := by
  obtain ⟨c, hs1, hs⟩ := seg_append.mp h.seg
  obtain ⟨c', -, hs2⟩ := seg_append.mp hs
  have hnd : (l1 ++ l2).Nodup :=
    h.nodup.sublist (List.Sublist.append_left (sublist_append_right m l2) l1)
  obtain ⟨hs1', hs2'⟩ := hs1.turn hs2 hnd hn hp
  exact ⟨seg_append.mpr ⟨l2.head?, hs1', by rwa [lastOr_none]⟩, hnd⟩

/-- **Taking a cell out.** The assignments make the cell before `p` (if any) point
on to `next p` and the cell after it point back to `prev p`. -/
theorem IsList.unlink [DecidableEq P] (h : IsList next prev hd (l1 ++ p :: l2))
    (hn : ∀ q ∈ l1 ++ l2, next' q = if prev p = some q then next p else next q)
    (hp : ∀ q ∈ l1 ++ l2, prev' q = if next p = some q then prev p else prev q) :
    IsList next' prev' (if prev p = none then next p else hd) (l1 ++ l2) := by
  obtain ⟨hprev, hnext⟩ := h.links
  have h' : IsList next prev hd (l1 ++ ([p] ++ l2)) := h
  rw [hprev, hnext] at hn hp ⊢
  simpa using h'.cut hn hp

/-- **Putting a cell in.** `x` goes between `l₁` and `l₂`: its own links are set,
the last cell of `l₁` points on to it and the first of `l₂` back to it. -/
theorem IsList.insert [DecidableEq P] (h : IsList next prev hd (l1 ++ l2)) (hx : x ∉ l1 ++ l2)
    (hxn : next' x = l2.head?) (hxp : prev' x = l1.getLast?)
    (hn : ∀ q ∈ l1 ++ l2, next' q = if l1.getLast? = some q then some x else next q)
    (hp : ∀ q ∈ l1 ++ l2, prev' q = if l2.head? = some q then some x else prev q) :
    IsList next' prev' (if l1 = [] then some x else hd) (l1 ++ x :: l2) := by
  obtain ⟨m, hs1, hs2⟩ := seg_append.mp h.seg
  obtain ⟨hs1', hs2'⟩ := hs1.turn hs2 h.nodup hn hp
  refine ⟨?_, nodup_middle.mpr (nodup_cons.mpr ⟨hx, h.nodup⟩)⟩
  rw [seg_append]
  exact ⟨some x, hs1', rfl, by rw [hxp, lastOr_none], by rwa [hxn]⟩

/-! ### Walking a list

Every search over a linked list has the same shape: stop at the first cell that
passes a test, else move on. The fuel bounds the number of cells visited; a fuel
larger than the length of the list is enough. -/

/-- Walk along `next` to the first cell passing `test`. `none` on the outside
means that the fuel ran out. -/
def walk (next : P → Option P) (test : P → Bool) : Nat → Option P → Option (Option P)
  | 0, _ => none
  | _ + 1, none => some none
  | n + 1, some p => if test p then some (some p) else walk next test n (next p)

theorem walk_eq_find? (h : Seg next prev b hd l none) (hlen : l.length < n)
    : walk next test n hd = some (l.find? test) := by
  induction l generalizing b hd n with
  | nil =>
    obtain ⟨k, rfl⟩ := Nat.exists_eq_succ_of_ne_zero (Nat.ne_of_gt hlen)
    simp only [seg_nil] at h
    simp [h, walk]
  | cons q l ih =>
    obtain ⟨k, rfl⟩ := Nat.exists_eq_succ_of_ne_zero (Nat.ne_of_gt (by omega : 0 < n))
    obtain ⟨rfl, -, h3⟩ := h
    simp only [walk, find?_cons]
    cases htest : test q with
    | true => rfl
    | false => simpa using ih h3 (by simp only [length_cons] at hlen; omega)

end SilanKernel.DList
