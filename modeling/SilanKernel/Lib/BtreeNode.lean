import Mathlib.Algebra.Order.Ring.Nat
import SilanKernel.Lib.Btree

/-!
# SilanKernel.Lib.BtreeNode

Keys as numbers, and what the loops of `lib/btree.c` do to one node.

`longcmp` compares keys as numbers with digits of 32 bits. A node in use is `ofPairs l` for the
list of its pairs, with zeros behind them; each loop is a change of that list.
-/

namespace SilanKernel.Btree

open List Nat Prod

/-! ### Keys -/

def numOf : List Word → Nat
  | [] => 0
  | a :: l => a.toNat * 2 ^ (32 * l.length) + numOf l

/-- The number a key stands for. -/
def num {n : Nat} (k : Key n) : Nat := numOf k.toList

theorem numOf_cons_lt (a : Word) :
    ∀ l : List Word, numOf (a :: l) < (a.toNat + 1) * 2 ^ (32 * l.length)
  | [] => by simp [numOf]
  | b :: l => by
    rw [succ_mul]
    refine Nat.add_lt_add_left (lt_of_lt_of_le (numOf_cons_lt b l) ?_) _
    calc (b.toNat + 1) * 2 ^ (32 * l.length)
        ≤ 2 ^ 32 * 2 ^ (32 * l.length) := mul_le_mul_right _ b.isLt
      _ = 2 ^ (32 * (b :: l).length) := by rw [← pow_add, length_cons, mul_succ, add_comm]

theorem numOf_lt_of_head (h : a < b) (hl : l1.length = l2.length) :
    numOf (a :: l1) < numOf (b :: l2) := by
  calc numOf (a :: l1) < (a.toNat + 1) * 2 ^ (32 * l2.length) := hl ▸ numOf_cons_lt a l1
    _ ≤ b.toNat * 2 ^ (32 * l2.length) := mul_le_mul_right _ h
    _ ≤ numOf (b :: l2) := Nat.le_add_right ..

/-- The loop of `longcmp` compares the numbers. -/
theorem longcmpLoop_cases : ∀ {l1 l2 : List Word}, l1.length = l2.length →
    longcmpLoop l1 l2 = -1 ∧ numOf l1 < numOf l2 ∨ longcmpLoop l1 l2 = 1 ∧ numOf l2 < numOf l1 ∨
      longcmpLoop l1 l2 = 0 ∧ l1 = l2
  | [], [], _ => .inr (.inr ⟨rfl, rfl⟩)
  | a :: l1, b :: l2, hl => by
    replace hl : l1.length = l2.length := succ.inj hl
    rw [longcmpLoop]
    by_cases hab : a < b
    · rw [if_pos hab]
      exact .inl ⟨rfl, numOf_lt_of_head hab hl⟩
    by_cases hba : b < a
    · rw [if_neg hab, if_pos hba]
      exact .inr (.inl ⟨rfl, numOf_lt_of_head hba hl.symm⟩)
    obtain rfl : a = b := BitVec.eq_of_toNat_eq (le_antisymm (not_lt.1 hba) (not_lt.1 hab))
    rw [if_neg hab, if_neg hab, numOf, numOf, hl]
    rcases longcmpLoop_cases hl with ⟨h, h'⟩ | ⟨h, h'⟩ | ⟨h, h'⟩
    · exact .inl ⟨h, Nat.add_lt_add_left h' _⟩
    · exact .inr (.inl ⟨h, Nat.add_lt_add_left h' _⟩)
    · exact .inr (.inr ⟨h, by rw [h']⟩)

variable {n : Nat}

theorem longcmp_cases (k1 k2 : Key n) :
    longcmp k1 k2 = -1 ∧ num k1 < num k2 ∨ longcmp k1 k2 = 1 ∧ num k2 < num k1 ∨ longcmp k1 k2 = 0 ∧
      k1 = k2 := by
  have hlen : k1.toList.length = k2.toList.length := by simp
  rcases longcmpLoop_cases hlen with h | h | h
  · exact .inl h
  · exact .inr (.inl h)
  · exact .inr (.inr ⟨h.1, Vector.toList_inj.1 h.2⟩)

theorem longcmp_le_zero_iff : longcmp k1 k2 ≤ 0 ↔ num k1 ≤ num k2 := by
  rcases longcmp_cases k1 k2 with ⟨h, hlt⟩ | ⟨h, hlt⟩ | ⟨h, rfl⟩
  · rw [h]; exact ⟨fun _ => le_of_lt hlt, fun _ => by decide⟩
  · rw [h]; exact ⟨fun hc => absurd hc (by decide), fun hc => absurd hlt (not_lt.2 hc)⟩
  · rw [h]; exact ⟨fun _ => le_refl _, fun _ => by decide⟩

theorem longcmp_eq_zero_iff : longcmp k1 k2 = 0 ↔ k1 = k2 := by
  rcases longcmp_cases k1 k2 with ⟨h, hlt⟩ | ⟨h, hlt⟩ | ⟨h, rfl⟩
  · rw [h]; exact ⟨fun hc => absurd hc (by decide), fun hc => absurd hlt
      (by rw [hc]; exact lt_irrefl _)⟩
  · rw [h]; exact ⟨fun hc => absurd hc (by decide), fun hc => absurd hlt
      (by rw [hc]; exact lt_irrefl _)⟩
  · rw [h]; exact ⟨fun _ => rfl, fun _ => rfl⟩

theorem num_inj (h : num k1 = num k2) : k1 = k2 := by
  rcases longcmp_cases k1 k2 with ⟨_, hlt⟩ | ⟨_, hlt⟩ | ⟨_, rfl⟩
  · exact absurd hlt (by rw [h]; exact lt_irrefl _)
  · exact absurd hlt (by rw [h]; exact lt_irrefl _)
  · rfl

@[simp] theorem num_zeroKey : num (zeroKey n) = 0 := by
  have hzero : ∀ m, numOf (replicate m 0) = 0 := by
    intro m
    induction m with
    | zero => rfl
    | succ m ih => rw [replicate_succ, numOf, ih]; simp
  rw [num, zeroKey, Vector.toList_replicate, hzero]

/-! ### Pairs -/

namespace Node

def pair (nd : Node n) (i : Nat) : Key n × Word := (nd.key i, nd.val i)

theorem ext_pair {nd nd' : Node n} (h : ∀ i, nd.pair i = nd'.pair i) : nd = nd' := by
  cases nd
  cases nd'
  rw [Node.mk.injEq]
  exact ⟨funext fun i => congrArg fst (h i), funext fun i => congrArg snd (h i)⟩

section

variable (nd : Node n) (i j : Nat)

include nd i j

theorem pair_setpair (k : Key n) (v : Word) :
    (nd.setpair i k v).pair j = if j = i then (k, v) else nd.pair j := by
  by_cases h : j = i
  · subst h
    simp [setpair, setkey, setval, pair]
  · simp [setpair, setkey, setval, pair, h]

theorem pair_setkey (k : Key n) :
    (nd.setkey i k).pair j = if j = i then (k, nd.val i) else nd.pair j := by
  by_cases h : j = i
  · subst h
    simp [setkey, pair]
  · simp [setkey, pair, h]

theorem pair_setval (v : Word) :
    (nd.setval i v).pair j = if j = i then (nd.key i, v) else nd.pair j := by
  by_cases h : j = i
  · subst h
    simp [setval, pair]
  · simp [setval, pair, h]

theorem pair_clearpair : (nd.clearpair i).pair j = if j = i then (zeroKey n, 0) else nd.pair j :=
  pair_setpair ..

end

end Node

open Node

/-- The node with these pairs. -/
def ofPairs (l : List (Key n × Word)) : Node n :=
  ⟨fun i => (l[i]?.getD (zeroKey n, 0)).1, fun i => (l[i]?.getD (zeroKey n, 0)).2⟩

theorem pair_ofPairs (l : List (Key n × Word)) (i : Nat) : (ofPairs l).pair i = l[i]?.getD
    (zeroKey n, 0) := rfl

theorem ofPairs_nil : ofPairs [] = (Node.zero : Node n) := rfl

section

variable {a b l : List (Key n × Word)} {x : Key n × Word} {i : Nat}

theorem pair_of_eq_append (hl : l = a ++ x :: b) : (ofPairs l).pair a.length = x := by
  rw [hl, pair_ofPairs, getElem?_append_right (Nat.le_refl _), Nat.sub_self]
  rfl

theorem key_ofPairs : (ofPairs (a ++ x :: b)).key a.length = x.1 :=
  congrArg fst (pair_of_eq_append rfl)

theorem val_ofPairs : (ofPairs (a ++ x :: b)).val a.length = x.2 :=
  congrArg snd (pair_of_eq_append rfl)

theorem key_ofPairs_of_lt (hi : i < l.length) : (ofPairs l).key i = (l.get ⟨i, hi⟩).1 := by
  show (l[i]?.getD _).1 = _
  rw [getElem?_eq_getElem hi]
  rfl

theorem val_ofPairs_of_lt (hi : i < l.length) : (ofPairs l).val i = (l.get ⟨i, hi⟩).2 := by
  show (l[i]?.getD _).2 = _
  rw [getElem?_eq_getElem hi]
  rfl

theorem key_ofPairs_of_le (hi : l.length ≤ i) : (ofPairs l).key i = zeroKey n := by
  show (l[i]?.getD _).1 = _
  rw [getElem?_eq_none hi]
  rfl

theorem val_ofPairs_of_le (hi : l.length ≤ i) : (ofPairs l).val i = 0 := by
  show (l[i]?.getD _).2 = _
  rw [getElem?_eq_none hi]
  rfl

/-! ### Writes -/

theorem setkey_ofPairs : (ofPairs (a ++ x :: b)).setkey a.length k = ofPairs
    (a ++ (k, x.2) :: b) := by
  refine ext_pair fun i => ?_
  rw [pair_setkey, pair_ofPairs, pair_ofPairs, val_ofPairs]
  grind

theorem setval_ofPairs :
    (ofPairs (a ++ x :: b)).setval a.length v = ofPairs (a ++ (x.1, v) :: b) := by
  refine ext_pair fun i => ?_
  rw [pair_setval, pair_ofPairs, pair_ofPairs, key_ofPairs]
  grind

theorem pair_shiftRight (pos : Nat) : ∀ (m : Nat) (nd : Node n) (j : Nat),
    (shiftRight pos m nd).pair j = if pos < j ∧ j ≤ m then nd.pair (j - 1) else nd.pair j
  | 0, nd, j => by rw [shiftRight, if_neg (by omega)]
  | m + 1, nd, j => by
    rw [shiftRight]
    by_cases hm : pos < m + 1
    · have hpair : ∀ i, (nd.setpair (m + 1) (nd.key m) (nd.val m)).pair i =
          if i = m + 1 then nd.pair m else nd.pair i := fun i => pair_setpair ..
      rw [if_pos hm, pair_shiftRight pos m, hpair, hpair]
      grind
    · rw [if_neg hm, if_neg (by omega)]

theorem shiftRight_ofPairs {fill : Nat} (hfill : fill = (a ++ b).length) :
    (shiftRight a.length fill (ofPairs (a ++ b))).setpair a.length k v = ofPairs
      (a ++ (k, v) :: b) := by
  refine ext_pair fun i => ?_
  rw [pair_setpair, pair_shiftRight, pair_ofPairs, pair_ofPairs, pair_ofPairs, hfill]
  grind

theorem pair_shiftLeft : ∀ (m i : Nat) (nd : Node n) (j : Nat),
    (shiftLeft m i nd).pair j = if i ≤ j ∧ j < i + m then nd.pair (j + 1) else nd.pair j
  | 0, i, nd, j => by rw [shiftLeft, if_neg (by omega)]
  | m + 1, i, nd, j => by
    have hpair : ∀ i', (nd.setpair i (nd.key (i + 1)) (nd.val (i + 1))).pair i' =
        if i' = i then nd.pair (i + 1) else nd.pair i' := fun i' => pair_setpair ..
    rw [shiftLeft, pair_shiftLeft m, hpair, hpair]
    grind

theorem shiftLeft_ofPairs {fill : Nat} (hfill : fill = (a ++ x :: b).length) :
    (shiftLeft (fill - 1 - a.length) a.length (ofPairs (a ++ x :: b))).clearpair (fill - 1) =
      ofPairs (a ++ b) := by
  refine ext_pair fun i => ?_
  rw [pair_clearpair, pair_shiftLeft, pair_ofPairs, pair_ofPairs, pair_ofPairs, hfill]
  grind

/-- The turns of a split from `i` on read pairs that are not written before. -/
theorem pair_splitLoop (half : Nat) : ∀ (m i : Nat) (new nd : Node n), i + m ≤ half → ∀ j,
    (splitLoop half m i (new, nd)).1.pair j =
      (if i ≤ j ∧ j < i + m then nd.pair j else new.pair j) ∧
    (splitLoop half m i (new, nd)).2.pair j =
      if i ≤ j ∧ j < i + m then nd.pair (j + half)
      else if i + half ≤ j ∧ j < i + m + half then (zeroKey n, 0) else nd.pair j
  | 0, i, new, nd, _, j => by
    rw [splitLoop, if_neg (by omega), if_neg (by omega), if_neg (by omega)]
    exact ⟨rfl, rfl⟩
  | m + 1, i, new, nd, him, j => by
    have hnew : ∀ j, (new.setpair i (nd.key i) (nd.val i)).pair j = if j = i then nd.pair i else
        new.pair j :=
      fun j => pair_setpair ..
    have hnd : ∀ j, (nd.setpair i (nd.key (i + half)) (nd.val (i + half))).pair j =
        if j = i then nd.pair (i + half) else nd.pair j := fun j => pair_setpair ..
    obtain ⟨h1, h2⟩ := pair_splitLoop half m (i + 1) (new.setpair i (nd.key i) (nd.val i))
      ((nd.setpair i (nd.key (i + half)) (nd.val (i + half))).clearpair (i + half)) (by omega) j
    rw [splitLoop, h1, h2]
    simp only [pair_clearpair, hnew, hnd]
    grind

theorem splitPairs_ofPairs {half : Nat} (ha : a.length = half) (hb : b.length = half) :
    splitPairs (half + half) (ofPairs []) (ofPairs (a ++ b)) = (ofPairs a, ofPairs b) := by
  have hdiv : (half + half) / 2 = half := by omega
  have hloop := pair_splitLoop half half 0 (ofPairs []) (ofPairs (a ++ b)) (by omega)
  have h1 : (splitLoop half half 0 (ofPairs [], ofPairs (a ++ b))).1 = ofPairs a := by
    refine ext_pair fun i => ?_
    rw [(hloop i).1, pair_ofPairs, pair_ofPairs, pair_ofPairs]
    grind
  have h2 : (splitLoop half half 0 (ofPairs [], ofPairs (a ++ b))).2 = ofPairs b := by
    refine ext_pair fun i => ?_
    rw [(hloop i).2, pair_ofPairs, pair_ofPairs, pair_ofPairs]
    grind
  have hloop : splitLoop half half 0 (ofPairs [], ofPairs (a ++ b)) = (ofPairs a, ofPairs b) :=
    Prod.ext h1 h2
  rw [splitPairs, hdiv, hloop]
  exact if_neg (by omega)

theorem pair_mergeLoop (lfill : Nat) (right : Node n) : ∀ (m i : Nat) (left : Node n) (j : Nat),
    (mergeLoop lfill right m i left).pair j =
      if lfill + i ≤ j ∧ j < lfill + i + m then right.pair (j - lfill) else left.pair j
  | 0, i, left, j => by rw [mergeLoop, if_neg (by omega)]
  | m + 1, i, left, j => by
    have hpair : ∀ j, (left.setpair (lfill + i) (right.key i) (right.val i)).pair j =
        if j = lfill + i then right.pair i else left.pair j := fun j => pair_setpair ..
    rw [mergeLoop, pair_mergeLoop lfill right m, hpair]
    grind

theorem mergeLoop_ofPairs : mergeLoop a.length (ofPairs b) b.length 0 (ofPairs a) = ofPairs
    (a ++ b) := by
  refine ext_pair fun i => ?_
  rw [pair_mergeLoop, pair_ofPairs, pair_ofPairs, pair_ofPairs]
  grind

/-! ### Searches -/

variable {g : Geo} {nd : Node g.keylen} {key : Key g.keylen} {p : Nat}

/-- A loop that looks for the first index with `q`. -/
theorem searchLoop_eq (q : Nat → Prop) [DecidablePred q] {loop : Nat → Nat → Nat}
    (hzero : ∀ i, loop 0 i = i)
    (hsucc : ∀ m i, loop (m + 1) i = if q i then i else loop m (i + 1)) : ∀ {m i : Nat}, i ≤ p →
    p ≤ i + m → (∀ j, i ≤ j → j < p → ¬ q j) → (p < i + m → q p) → loop m i = p
  | 0, i, hi, hm, _, _ => by rw [hzero]; omega
  | m + 1, i, hi, hm, hno, hq => by
    rw [hsucc]
    rcases eq_or_lt_of_le hi with rfl | hi
    · rw [if_pos (hq (by omega))]
    · rw [if_neg (hno i (le_refl _) hi)]
      exact searchLoop_eq q hzero hsucc hi (by omega) (fun j hj => hno j (by omega)) fun hp =>
        hq (by omega)

theorem leafLoop_eq : ∀ {m i : Nat}, i ≤ p → p < i + m →
    (∀ j, i ≤ j → j < p → nd.key j ≠ key) → nd.key p = key → leafLoop nd key m i = some p
  | 0, i, hi, hm, _, _ => absurd hm (by omega)
  | m + 1, i, hi, hm, hne, hp => by
    simp only [leafLoop, longcmp_eq_zero_iff]
    rcases eq_or_lt_of_le hi with rfl | hi
    · rw [if_pos hp]
    · rw [if_neg (hne i (le_refl _) hi)]
      exact leafLoop_eq hi (by omega) (fun j hj => hne j (by omega)) hp

theorem leafLoop_eq_none : ∀ {m i : Nat}, (∀ j, i ≤ j → j < i + m → nd.key j ≠ key) →
    leafLoop nd key m i = none
  | 0, _, _ => rfl
  | m + 1, i, hne => by
    simp only [leafLoop, longcmp_eq_zero_iff, if_neg (hne i (le_refl _) (by omega))]
    exact leafLoop_eq_none fun j hj hjm => hne j (by omega) (by omega)

end

variable {g : Geo} {key : Key g.keylen} {a b l : List (Key g.keylen × Word)}
  {x : Key g.keylen × Word}

/-- `getpos` stops between the pairs with greater keys and the others. -/
theorem getpos_ofPairs (hl : (a ++ b).length ≤ g.noPairs) (ha : ∀ p ∈ a, num key < num p.1)
    (hb : ∀ p ∈ b, num p.1 ≤ num key) : getpos (ofPairs (a ++ b)) key = a.length := by
  rw [length_append] at hl
  refine searchLoop_eq (fun j => longcmp ((ofPairs (a ++ b)).key j) key ≤ 0) (fun _ => rfl)
    (fun _ _ => rfl) (zero_le _) (by omega) ?_ ?_
  all_goals simp only [longcmp_le_zero_iff, not_le]
  · intro j _ hj
    rw [key_ofPairs_of_lt (by rw [length_append]; omega), get_eq_getElem, getElem_append_left hj]
    exact ha _ (getElem_mem hj)
  · intro _
    cases b with
    | nil => rw [key_ofPairs_of_le (by simp), num_zeroKey]; exact zero_le _
    | cons x b => rw [key_ofPairs]; exact hb x (mem_cons_self ..)

theorem getfill_ofPairs (hl : l.length ≤ g.noPairs) (hstart : start ≤ l.length)
    (hne : ∀ p ∈ l, p.2 ≠ 0) : getfill (g := g) (ofPairs l) start = l.length := by
  refine searchLoop_eq (fun j => (ofPairs l).val j = 0) (fun _ => rfl) (fun _ _ => rfl) hstart
    (by omega) ?_ fun _ => val_ofPairs_of_le (le_refl _)
  intro j _ hj
  rw [val_ofPairs_of_lt hj]
  exact hne _ (getElem_mem hj)

theorem leafLoop_ofPairs (hl : (a ++ x :: b).length ≤ g.noPairs) (ha : ∀ p ∈ a, p.1 ≠ x.1) :
    leafLoop (ofPairs (a ++ x :: b)) x.1 g.noPairs 0 = some a.length := by
  rw [length_append, length_cons] at hl
  refine leafLoop_eq (zero_le _) (by omega) ?_ key_ofPairs
  intro j _ hj
  rw [key_ofPairs_of_lt (by rw [length_append]; omega), get_eq_getElem, getElem_append_left hj]
  exact ha _ (getElem_mem hj)

/-- Without the key the first unused pair is taken for the zero key, and no other. -/
theorem leafLoop_ofPairs_absent (hl : l.length ≤ g.noPairs) (ha : ∀ p ∈ l, p.1 ≠ key) :
    leafLoop (ofPairs l) key g.noPairs 0 =
      if key = zeroKey g.keylen ∧ l.length < g.noPairs then some l.length else none := by
  have hne : ∀ j, j < l.length → (ofPairs l).key j ≠ key := by
    intro j hj
    rw [key_ofPairs_of_lt hj]
    exact ha _ (getElem_mem hj)
  split
  case isTrue h =>
    refine leafLoop_eq (zero_le _) (by omega) (fun j _ hj => hne j hj) ?_
    rw [key_ofPairs_of_le (le_refl _), h.1]
  case isFalse h =>
    refine leafLoop_eq_none fun j _ hj => ?_
    by_cases hjl : j < l.length
    · exact hne j hjl
    · rw [key_ofPairs_of_le (by omega)]
      intro hk
      exact h ⟨hk.symm, by omega⟩

end SilanKernel.Btree
