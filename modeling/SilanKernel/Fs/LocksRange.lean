import SilanKernel.Fs.Locks

/-!
# SilanKernel.Fs.LocksRange

The locks of one owner as a **map from offsets to types**, and what becomes of it when a range is
given another type.

A new range takes the place of the locks it meets: a first and a last piece of them may remain, and
locks of the same type next to it melt into it. `Recast` says what the pieces have to be for this;
the scan of `__posix_lock_file` comes to such pieces. The list stays sorted, disjoint and without
locks of one type that touch, and the map changes in the range only.
-/

namespace SilanKernel.Locks

open List

/-- `k` ends before `k'` begins, with a gap if they have the same type. -/
def Before (k k' : Lock) : Prop :=
  k.flEnd < k'.flStart ∧ (k.flType = k'.flType → k.flEnd + 1 < k'.flStart)

/-- The offset `x` is locked with type `t`. -/
def Held (g : List Lock) (x : Int) (t : LockType) : Prop :=
  ∃ k ∈ g, k.flStart ≤ x ∧ x ≤ k.flEnd ∧ k.flType = t

/-- A lock of the list. -/
def Valid (k : Lock) : Prop :=
  0 ≤ k.flStart ∧ k.flStart ≤ k.flEnd ∧ k.flEnd ≤ OFFSET_MAX ∧ k.flType ≠ .unlck ∧ k.flPosix = true

variable {g : List Lock} {x : Int} {t T : LockType}

@[simp] theorem held_nil : ¬ Held [] x t := by simp [Held]

@[simp] theorem held_append : Held (g ++ g') x t ↔ Held g x t ∨ Held g' x t := by
  simp [Held, or_and_right, exists_or]

@[simp] theorem held_singleton : Held [k] x t ↔ k.flStart ≤ x ∧ x ≤ k.flEnd ∧ k.flType = t := by
  simp [Held]

/-- Two locks of a list in order are the same or apart. -/
theorem before_or_before (hg : g.Pairwise Before) (hk : k ∈ g) (hk' : k' ∈ g) (hne : k ≠ k') :
    Before k k' ∨ Before k' k := by
  have hsym : g.Pairwise fun k k' => Before k k' ∨ Before k' k := hg.imp .inl
  have : Std.Symm fun k k' => Before k k' ∨ Before k' k := ⟨fun _ _ h => h.symm⟩
  exact hsym.forall hk hk' hne

/-- An offset has one type. -/
theorem Held.unique (hg : g.Pairwise Before) (h : Held g x t) (h' : Held g x t') : t = t' := by
  obtain ⟨k, hk, hs, he, rfl⟩ := h
  obtain ⟨k', hk', hs', he', rfl⟩ := h'
  by_cases hne : k = k'
  · rw [hne]
  rcases before_or_before hg hk hk' hne with hb | hb
  · have := hb.1
    omega
  · have := hb.1
    omega

/-- The new lock, unless the request is to unlock. -/
structure NewLock (T : LockType) (ra rb : Int) (M : List Lock) : Prop where
  eq : ∀ k ∈ M, k.flStart = ra ∧ k.flEnd = rb ∧ k.flType = T
  one : M.length ≤ 1
  nil_iff : M = [] ↔ T = .unlck

/-- The pieces of a list around a new range. `a` to `b` is the range of the request and `T` its
type; `ra` to `rb` is the range of the new lock. -/
structure Recast (T : LockType) (a b ra rb : Int) (pre X post L M R : List Lock) : Prop
    extends NewLock T ra rb M where
  range : ra ≤ a ∧ a ≤ b ∧ b ≤ rb
  pre_before : ∀ k ∈ pre, k.flEnd < a ∧ (k.flType = T → k.flEnd + 1 < a)
  post_after : ∀ k ∈ post, rb < k.flStart ∧ (k.flType = T → rb + 1 < k.flStart)
  left : ∀ k ∈ L, ∃ l ∈ X, k = { l with flEnd := ra - 1 } ∧ l.flStart < ra ∧ l.flType ≠ T
  left_one : L.length ≤ 1
  right : ∀ k ∈ R, ∃ l ∈ X, k = { l with flStart := rb + 1 } ∧ rb < l.flEnd ∧ l.flType ≠ T
  right_one : R.length ≤ 1
  rest : ∀ x t, ¬ (ra ≤ x ∧ x ≤ rb) → (Held X x t ↔ Held L x t ∨ Held R x t)
  melted : ∀ x, ra ≤ x → x ≤ rb → ¬ (a ≤ x ∧ x ≤ b) → Held X x T

theorem nil_or_singleton {α : Type} {l : List α} (h : l.length ≤ 1) : l = [] ∨ ∃ c, l = [c] :=
  (Nat.le_one_iff_eq_zero_or_eq_one.mp h).imp length_eq_zero_iff.mp length_eq_one_iff.mp

theorem pairwise_of_length_le_one {S : Lock → Lock → Prop} (h : g.length ≤ 1) : g.Pairwise S := by
  rcases nil_or_singleton h with rfl | ⟨k, rfl⟩
  · exact .nil
  · exact pairwise_singleton S k

section

variable (hr : Recast T a b ra rb pre X post L M R)

include hr

/-- **The new list is in order.** -/
theorem Recast.pairwise (hg : (pre ++ X ++ post).Pairwise Before) :
    (pre ++ L ++ M ++ R ++ post).Pairwise Before := by
  obtain ⟨hra, hab, hrb⟩ := hr.range
  simp only [pairwise_append, mem_append] at hg ⊢
  obtain ⟨⟨hpre, -, hpreX⟩, hpost, hXpost⟩ := hg
  refine ⟨⟨⟨⟨hpre, pairwise_of_length_le_one hr.left_one, fun k hk m hm => ?_⟩,
    pairwise_of_length_le_one hr.one, ?_⟩, pairwise_of_length_le_one hr.right_one, ?_⟩, hpost, ?_⟩
  · obtain ⟨l, hl, rfl, -, -⟩ := hr.left m hm
    exact hpreX k hk l hl
  · -- before the new lock
    rintro k (hk | hk) m hm
    · obtain ⟨hs, -, ht⟩ := hr.eq m hm
      obtain ⟨hlt, hgap⟩ := hr.pre_before k hk
      rw [Before, hs, ht]
      by_cases hcase : a ≤ ra
      · exact ⟨by omega, fun h => by have := hgap h; omega⟩
      · -- The new lock begins where a lock of its type did.
        obtain ⟨l, hl, hls, -, hlt'⟩ := hr.melted ra (by omega) (by omega) (by omega)
        obtain ⟨hb, hbgap⟩ := hpreX k hk l hl
        exact ⟨by omega, fun h => by have := hbgap (h.trans hlt'.symm); omega⟩
    · obtain ⟨l, -, rfl, -, hne⟩ := hr.left k hk
      obtain ⟨hs, -, ht⟩ := hr.eq m hm
      exact ⟨by dsimp only; omega, fun h => absurd (h.trans ht) hne⟩
  · -- before what is left of a lock behind it
    rintro k ((hk | hk) | hk) m hm
    · obtain ⟨l, hl, rfl, -, -⟩ := hr.right m hm
      obtain ⟨hlt, -⟩ := hr.pre_before k hk
      exact ⟨by dsimp only; omega, fun _ => by dsimp only; omega⟩
    · obtain ⟨l, -, rfl, -, -⟩ := hr.left k hk
      obtain ⟨l', -, rfl, -, -⟩ := hr.right m hm
      exact ⟨by dsimp only; omega, fun _ => by dsimp only; omega⟩
    · obtain ⟨-, he, ht⟩ := hr.eq k hk
      obtain ⟨l, -, rfl, -, hne⟩ := hr.right m hm
      exact ⟨by dsimp only; omega, fun h => absurd (h.symm.trans ht) hne⟩
  · rintro k (((hk | hk) | hk) | hk) m hm
    · exact hXpost k (.inl hk) m hm
    · obtain ⟨l, -, rfl, -, -⟩ := hr.left k hk
      obtain ⟨hlt, -⟩ := hr.post_after m hm
      exact ⟨by dsimp only; omega, fun _ => by dsimp only; omega⟩
    · obtain ⟨-, he, ht⟩ := hr.eq k hk
      obtain ⟨hlt, hgap⟩ := hr.post_after m hm
      exact ⟨by omega, fun h => by have := hgap (h.symm.trans ht); omega⟩
    · obtain ⟨l, hl, rfl, -, -⟩ := hr.right k hk
      exact hXpost l (.inr hl) m hm

/-- **The map changes in the range of the request only.** -/
theorem Recast.held
    (hg : (pre ++ X ++ post).Pairwise Before) (hv : ∀ k ∈ pre ++ X ++ post, Valid k) :
    Held (pre ++ L ++ M ++ R ++ post) x t ↔
      if a ≤ x ∧ x ≤ b then t = T ∧ T ≠ .unlck else Held (pre ++ X ++ post) x t := by
  obtain ⟨hra, hab, hrb⟩ := hr.range
  have hX : Held X x t → Held X x T → t = T := by
    exact Held.unique (pairwise_append.mp (pairwise_append.mp hg).1).2.1
  have hL : Held L x t → x < ra := by
    rintro ⟨k, hk, -, he, -⟩
    obtain ⟨l, -, rfl, -, -⟩ := hr.left k hk
    dsimp only at he
    omega
  have hR : Held R x t → rb < x := by
    rintro ⟨k, hk, hs, -, -⟩
    obtain ⟨l, -, rfl, -, -⟩ := hr.right k hk
    dsimp only at hs
    omega
  have hM : Held M x t ↔ (ra ≤ x ∧ x ≤ rb) ∧ t = T ∧ T ≠ .unlck := by
    constructor
    · rintro ⟨k, hk, hs, he, rfl⟩
      obtain ⟨hs', he', ht'⟩ := hr.eq k hk
      refine ⟨⟨by omega, by omega⟩, ht', fun hc => ?_⟩
      rw [hr.nil_iff.mpr hc] at hk
      exact not_mem_nil hk
    · rintro ⟨⟨hs, he⟩, rfl, hne⟩
      obtain ⟨m, hm⟩ := exists_mem_of_ne_nil M fun hc => hne (hr.nil_iff.mp hc)
      obtain ⟨hs', he', ht'⟩ := hr.eq m hm
      exact ⟨m, hm, by omega, by omega, ht'⟩
  have hpre : Held pre x t → x < a := by
    rintro ⟨k, hk, -, he, -⟩
    have := (hr.pre_before k hk).1
    omega
  have hpost : Held post x t → rb < x := by
    rintro ⟨k, hk, hs, -, -⟩
    have := (hr.post_after k hk).1
    omega
  simp only [held_append]
  by_cases hin : ra ≤ x ∧ x ≤ rb
  · have hno : ¬ Held L x t ∧ ¬ Held R x t :=
      ⟨fun h => by have := hL h; omega, fun h => by have := hR h; omega⟩
    by_cases hreq : a ≤ x ∧ x ≤ b
    · have hno' : ¬ Held pre x t ∧ ¬ Held post x t :=
        ⟨fun h => by have := hpre h; omega, fun h => by have := hpost h; omega⟩
      rw [if_pos hreq, hM]
      simp only [hno, hno', hin, false_or, or_false, true_and, and_self]
    -- Inside the new lock but outside of the request: a lock of its type was here.
    have hmelt := hr.melted x hin.1 hin.2 hreq
    have hsame : Held X x t ↔ t = T ∧ T ≠ .unlck := by
      constructor
      · intro h
        have ht := hX h hmelt
        obtain ⟨k, hk, -, -, hkt⟩ := hmelt
        exact ⟨ht, hkt ▸ (hv k (by simp [hk])).2.2.2.1⟩
      · rintro ⟨rfl, -⟩
        exact hmelt
    rw [if_neg hreq, hM, hsame]
    simp [hno, hin]
  · have hreq : ¬ (a ≤ x ∧ x ≤ b) := by omega
    rw [if_neg hreq, hM, hr.rest x t hin]
    simp only [hin, false_and, or_false]
    constructor
    · rintro (((h | h) | h) | h)
      · exact .inl (.inl h)
      · exact .inl (.inr (.inl h))
      · exact .inl (.inr (.inr h))
      · exact .inr h
    · rintro ((h | h | h) | h)
      · exact .inl (.inl (.inl h))
      · exact .inl (.inl (.inr h))
      · exact .inl (.inr h)
      · exact .inr h

/-- What remains of the old locks is valid. -/
theorem Recast.valid
    (hv : ∀ k ∈ pre ++ X ++ post, Valid k ∧ k.flOwner = o) (ha : 0 ≤ a) (hb : b ≤ OFFSET_MAX)
    (hM : ∀ k ∈ M, k.flPosix = true ∧ k.flOwner = o) :
    ∀ k ∈ pre ++ L ++ M ++ R ++ post, Valid k ∧ k.flOwner = o := by
  obtain ⟨hra, hab, hrb⟩ := hr.range
  have hX : ∀ k ∈ X, Valid k ∧ k.flOwner = o := fun k hk => hv k (by simp [hk])
  intro k hk
  simp only [mem_append] at hk
  rcases hk with (((hk | hk) | hk) | hk) | hk
  · exact hv k (by simp [hk])
  · obtain ⟨l, hl, rfl, hlt, -⟩ := hr.left k hk
    obtain ⟨⟨hs, hse, he, ht, hp⟩, howner⟩ := hX l hl
    exact ⟨⟨hs, by dsimp only; omega, by dsimp only; omega, ht, hp⟩, howner⟩
  · obtain ⟨hs, he, ht⟩ := hr.eq k hk
    have hlo : 0 ≤ ra := by
      by_cases hcase : a ≤ ra
      · omega
      · obtain ⟨l, hl, hls, -, -⟩ := hr.melted ra (by omega) (by omega) (by omega)
        have := (hX l hl).1.1
        omega
    have hhi : rb ≤ OFFSET_MAX := by
      by_cases hcase : rb ≤ b
      · omega
      · obtain ⟨l, hl, -, hle, -⟩ := hr.melted rb (by omega) (by omega) (by omega)
        have := (hX l hl).1.2.2.1
        omega
    refine ⟨⟨by omega, by omega, by omega, fun hc => ?_, (hM k hk).1⟩, (hM k hk).2⟩
    rw [hr.nil_iff.mpr (ht.symm.trans hc)] at hk
    exact not_mem_nil hk
  · obtain ⟨l, hl, rfl, hlt, -⟩ := hr.right k hk
    obtain ⟨⟨hs, hse, he, ht, hp⟩, howner⟩ := hX l hl
    exact ⟨⟨by dsimp only; omega, by dsimp only; omega, he, ht, hp⟩, howner⟩
  · exact hv k (by simp [hk])

end

/-! ### The scan over the locks of the owner -/

/-- Where the scan is, for the request `r`: the locks `pre` are before its range, `lo` is one that
the range cuts at its start, `mid` are those that went into the new range from `ra` to `rb`, and
`rest` is still to come. -/
structure Pieces (r : Lock) (pre lo mid rest : List Lock) (ra rb : Int) : Prop where
  order : (pre ++ lo ++ mid ++ rest).Pairwise Before
  valid : ∀ k ∈ pre ++ lo ++ mid ++ rest, k.flStart ≤ k.flEnd
  range : ra ≤ r.flStart ∧ r.flStart ≤ r.flEnd ∧ r.flEnd ≤ rb
  pre_before : ∀ k ∈ pre, k.flEnd < r.flStart ∧ (k.flType = r.flType → k.flEnd + 1 < r.flStart)
  cut : ∀ k ∈ lo, k.flType ≠ r.flType ∧ k.flStart < ra ∧ ra ≤ k.flEnd ∧ k.flEnd ≤ rb
  cut_one : lo.length ≤ 1
  inside : ∀ k ∈ mid, ra ≤ k.flStart ∧ k.flEnd ≤ rb
  melted : ∀ x, ra ≤ x → x ≤ rb → ¬ (r.flStart ≤ x ∧ x ≤ r.flEnd) → Held mid x r.flType

section

variable {k : Lock}

theorem Pieces.range_eq (hp : Pieces r pre lo [] rest ra rb) : ra = r.flStart ∧ rb = r.flEnd := by
  obtain ⟨hra, hab, hrb⟩ := hp.range
  constructor
  · by_contra hne
    exact held_nil (hp.melted ra (by omega) (by omega) (by omega))
  · by_contra hne
    exact held_nil (hp.melted rb (by omega) (by omega) (by omega))

section

variable (hp : Pieces r pre lo mid (k :: rest) ra rb)

include hp

theorem Pieces.before :
    (∀ l ∈ lo, Before l k) ∧ (∀ l ∈ mid, Before l k) ∧ (∀ l ∈ rest, Before k l) ∧
      k.flStart ≤ k.flEnd := by
  have horder := hp.order
  simp only [pairwise_append, pairwise_cons, mem_append] at horder
  obtain ⟨-, ⟨hk, -⟩, hbefore⟩ := horder
  exact ⟨fun l hl => hbefore l (.inl (.inr hl)) k mem_cons_self,
    fun l hl => hbefore l (.inr hl) k mem_cons_self, hk, hp.valid k (by simp)⟩

/-- Nothing of the range has been met. -/
theorem Pieces.untouched (hk : k.flStart < ra) : lo = [] ∧ mid = [] := by
  obtain ⟨hlo, hmid, -, -⟩ := hp.before
  constructor
  · refine eq_nil_iff_forall_not_mem.mpr fun l hl => ?_
    have := (hlo l hl).1
    have := (hp.cut l hl).2.2.1
    omega
  · refine eq_nil_iff_forall_not_mem.mpr fun l hl => ?_
    have := (hmid l hl).1
    have := hp.inside l hl
    have := hp.valid l (by simp [hl])
    omega

/-- The next lock is before the range. -/
theorem Pieces.skip (hk : k.flEnd < ra) (hgap : k.flType = r.flType → k.flEnd + 1 < ra) :
    lo = [] ∧ mid = [] ∧ Pieces r (pre ++ [k]) [] [] rest ra rb := by
  obtain ⟨hlo, hmid, hrest, hle⟩ := hp.before
  obtain ⟨rfl, rfl⟩ := hp.untouched (by omega)
  obtain ⟨hra, -⟩ := hp.range_eq
  refine ⟨rfl, rfl, ?_, ?_, hp.range, fun l hl => ?_, nofun, by simp, nofun, hp.melted⟩
  · simpa using hp.order
  · simpa using hp.valid
  rcases mem_append.mp hl with hl | hl
  · exact hp.pre_before l hl
  · obtain rfl := mem_singleton.mp hl
    rw [← hra]
    exact ⟨hk, hgap⟩

theorem Pieces.order_mid : (pre ++ lo ++ (mid ++ [k]) ++ rest).Pairwise Before ∧
      ∀ l ∈ pre ++ lo ++ (mid ++ [k]) ++ rest, l.flStart ≤ l.flEnd := by
  have horder := hp.order
  have hvalid := hp.valid
  constructor
  · simpa using horder
  · simpa using hvalid

/-- The next lock has the requested type and touches the range: it melts into it. -/
theorem Pieces.merge (ht : k.flType = r.flType) (hlo : ¬ k.flEnd < ra - 1)
    (hhi : ¬ k.flStart - 1 > rb) :
    Pieces r pre lo (mid ++ [k]) rest (min ra k.flStart) (max rb k.flEnd) := by
  obtain ⟨hra, hab, hrb⟩ := hp.range
  obtain ⟨hbl, -, -, hle⟩ := hp.before
  obtain ⟨horder, hvalid⟩ := hp.order_mid
  refine ⟨horder, hvalid, ⟨by omega, hab, by omega⟩, hp.pre_before, fun l hl => ?_, hp.cut_one,
    fun l hl => ?_, fun x hx hx' hout => ?_⟩
  · have := (hbl l hl).1
    obtain ⟨hne, hs, he, he'⟩ := hp.cut l hl
    exact ⟨hne, by omega, by omega, by omega⟩
  · rcases mem_append.mp hl with hl | hl
    · have := hp.inside l hl
      exact ⟨by omega, by omega⟩
    · obtain rfl := mem_singleton.mp hl
      exact ⟨by omega, by omega⟩
  · rw [held_append]
    by_cases hin : ra ≤ x ∧ x ≤ rb
    · exact .inl (hp.melted x hin.1 hin.2 hout)
    · exact .inr (held_singleton.mpr ⟨by omega, by omega, ht⟩)

/-- The next lock has another type and is within the range. -/
theorem Pieces.cover (hs : ra ≤ k.flStart) (he : k.flEnd ≤ rb) :
    Pieces r pre lo (mid ++ [k]) rest ra rb := by
  obtain ⟨horder, hvalid⟩ := hp.order_mid
  refine ⟨horder, hvalid, hp.range, hp.pre_before, hp.cut, hp.cut_one, fun l hl => ?_,
    fun x hx hx' hout => held_append.mpr (.inl (hp.melted x hx hx' hout))⟩
  rcases mem_append.mp hl with hl | hl
  · exact hp.inside l hl
  · obtain rfl := mem_singleton.mp hl
    exact ⟨hs, he⟩

/-- The next lock has another type and begins before the range. -/
theorem Pieces.cutStart (ht : k.flType ≠ r.flType) (hs : k.flStart < ra) (he : ra ≤ k.flEnd)
    (he' : k.flEnd ≤ rb) :
    lo = [] ∧ mid = [] ∧ Pieces r pre [k] [] rest ra rb := by
  obtain ⟨rfl, rfl⟩ := hp.untouched hs
  refine ⟨rfl, rfl, ?_, ?_, hp.range, hp.pre_before, fun l hl => ?_, by simp, nofun, hp.melted⟩
  · simpa using hp.order
  · simpa using hp.valid
  · obtain rfl := mem_singleton.mp hl
    exact ⟨ht, hs, he, he'⟩

/-- The locks from the next one on are behind the range. -/
theorem Pieces.after (hk : rb < k.flStart) (hgap : k.flType = r.flType → rb + 1 < k.flStart) :
    ∀ l ∈ k :: rest, rb < l.flStart ∧ (l.flType = r.flType → rb + 1 < l.flStart) := by
  obtain ⟨-, -, hrest, hle⟩ := hp.before
  intro l hl
  rcases mem_cons.mp hl with rfl | hl
  · exact ⟨hk, hgap⟩
  · have := (hrest l hl).1
    exact ⟨by omega, fun _ => by omega⟩

end

/-- What remains of a lock before the range. -/
def cutEnd (ra : Int) (k : Lock) : Lock := { k with flEnd := ra - 1 }

/-- What remains of a lock behind the range. -/
def cutBegin (rb : Int) (k : Lock) : Lock := { k with flStart := rb + 1 }

theorem Pieces.held_cut (hp : Pieces r pre lo mid rest ra rb) (hx : ¬ (ra ≤ x ∧ x ≤ rb)) :
    Held (lo ++ mid) x t ↔ Held (lo.map (cutEnd ra)) x t := by
  rw [held_append]
  constructor
  · rintro (⟨k, hk, hs, he, ht⟩ | ⟨k, hk, hs, he, -⟩)
    · obtain ⟨-, -, -, hle⟩ := hp.cut k hk
      exact ⟨cutEnd ra k, mem_map_of_mem hk, hs, by dsimp only [cutEnd]; omega, ht⟩
    · have := hp.inside k hk
      omega
  · rintro ⟨k', hk', hs, he, ht⟩
    obtain ⟨k, hk, rfl⟩ := mem_map.mp hk'
    obtain ⟨-, -, hle, -⟩ := hp.cut k hk
    dsimp only [cutEnd] at hs he ht
    exact .inl ⟨k, hk, hs, by omega, ht⟩

/-- The scan ends before a lock that the range does not meet. -/
theorem Pieces.recast (hp : Pieces r pre lo mid rest ra rb) (hM : NewLock r.flType ra rb M)
    (hrest : ∀ k ∈ rest, rb < k.flStart ∧ (k.flType = r.flType → rb + 1 < k.flStart)) :
    Recast r.flType r.flStart r.flEnd ra rb pre (lo ++ mid) rest (lo.map (cutEnd ra)) M [] where
  range := hp.range
  pre_before := hp.pre_before
  post_after := hrest
  left k' hk' := by
    obtain ⟨k, hk, rfl⟩ := mem_map.mp hk'
    obtain ⟨hne, hs, -, -⟩ := hp.cut k hk
    exact ⟨k, by simp [hk], rfl, hs, hne⟩
  left_one := by simpa using hp.cut_one
  right := nofun
  right_one := by simp
  toNewLock := hM
  rest x t hx := by
    rw [hp.held_cut hx]
    simp
  melted x hs he hx := held_append.mpr (.inr (hp.melted x hs he hx))

/-- The scan ends at a lock that goes on behind the range. -/
theorem Pieces.recast_right (hp : Pieces r pre lo mid (k :: rest) ra rb)
    (hM : NewLock r.flType ra rb M) (ht : k.flType ≠ r.flType) (hs : ra ≤ k.flStart)
    (hs' : k.flStart ≤ rb) (he : rb < k.flEnd) :
    Recast r.flType r.flStart r.flEnd ra rb pre (lo ++ mid ++ [k]) rest (lo.map (cutEnd ra)) M
      [cutBegin rb k] where
  range := hp.range
  pre_before := hp.pre_before
  post_after l hl := by
    have := (hp.before.2.2.1 l hl).1
    exact ⟨by omega, fun _ => by omega⟩
  left k' hk' := by
    obtain ⟨k, hk, rfl⟩ := mem_map.mp hk'
    obtain ⟨hne, hs, -, -⟩ := hp.cut k hk
    exact ⟨k, by simp [hk], rfl, hs, hne⟩
  left_one := by simpa using hp.cut_one
  right k' hk' := by
    obtain rfl := mem_singleton.mp hk'
    exact ⟨k, by simp, rfl, he, ht⟩
  right_one := by simp
  toNewLock := hM
  rest x t hx := by
    rw [held_append, hp.held_cut hx, held_singleton, held_singleton]
    refine or_congr_right ⟨fun ⟨hks, hke, hkt⟩ => ?_, fun ⟨hks, hke, hkt⟩ => ?_⟩
    · exact ⟨by dsimp only [cutBegin]; omega, hke, hkt⟩
    · dsimp only [cutBegin] at hks
      exact ⟨by omega, hke, hkt⟩
  melted x hs he hx := held_append.mpr (.inl (held_append.mpr (.inr (hp.melted x hs he hx))))

/-- The scan ends at a lock with the range in its middle. -/
theorem Pieces.recast_split (hp : Pieces r pre [] [] (k :: rest) ra rb)
    (hM : NewLock r.flType ra rb M) (ht : k.flType ≠ r.flType) (hs : k.flStart < ra)
    (he : rb < k.flEnd) :
    Recast r.flType r.flStart r.flEnd ra rb pre [k] rest [cutEnd ra k] M [cutBegin rb k] where
  range := hp.range
  pre_before := hp.pre_before
  post_after l hl := by
    have := (hp.before.2.2.1 l hl).1
    exact ⟨by omega, fun _ => by omega⟩
  left k' hk' := by
    obtain rfl := mem_singleton.mp hk'
    exact ⟨k, by simp, rfl, hs, ht⟩
  left_one := by simp
  right k' hk' := by
    obtain rfl := mem_singleton.mp hk'
    exact ⟨k, by simp, rfl, he, ht⟩
  right_one := by simp
  toNewLock := hM
  rest x t hx := by
    obtain ⟨hra, hab, hrb⟩ := hp.range
    rw [held_singleton, held_singleton, held_singleton]
    constructor
    · rintro ⟨hks, hke, hkt⟩
      by_cases hcase : x < ra
      · exact .inl ⟨hks, by dsimp only [cutEnd]; omega, hkt⟩
      · exact .inr ⟨by dsimp only [cutBegin]; omega, hke, hkt⟩
    · rintro (⟨hks, hke, hkt⟩ | ⟨hks, hke, hkt⟩)
      · dsimp only [cutEnd] at hks hke hkt
        exact ⟨hks, by omega, hkt⟩
      · dsimp only [cutBegin] at hks hke hkt
        exact ⟨by omega, hke, hkt⟩
  melted x hs he hx := absurd (hp.melted x hs he hx) held_nil

end

end SilanKernel.Locks
