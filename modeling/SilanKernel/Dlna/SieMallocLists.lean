import Mathlib.Data.List.Sort
import SilanKernel.Dlna.SieMalloc

/-!
# SilanKernel.Dlna.SieMallocLists

The DLNA heap's descriptors as **three lists**.

`Reps h pool free used` reads the heads and links of the driver's data as three
Lean lists. Every list primitive of `sie_malloc.c` gets one lemma that says what
it does to these lists and that it leaves start addresses and sizes alone:
taking a descriptor out is `unlinked`, putting one in is `relinked`, and
`add_into_free_list` is `List.orderedInsert` by size. Nothing above this module
looks at a link again.
-/

namespace SilanKernel.Dlna

open DList List

/-! ### The three lists -/

/-- The driver's heads and links spell out the three lists, which share no
descriptor and stay inside the array. A descriptor on none of them is *detached*:
an operation holds it while it moves it from one list to another. -/
structure Reps (h : SieHeap) (pool free used : List Nat) : Prop where
  poolList : IsList h.next h.pre h.memFragFree pool
  freeList : IsList h.next h.pre h.free free
  usedList : IsList h.next h.pre h.used used
  poolFree : pool.Disjoint free
  poolUsed : pool.Disjoint used
  freeUsed : free.Disjoint used
  bound : ∀ f ∈ pool ++ free ++ used, f < TOTAL_RAM_FRAG

/-- A detached descriptor. -/
structure Detached (pool free used : List Nat) (f : Nat) : Prop where
  notPool : f ∉ pool
  notFree : f ∉ free
  notUsed : f ∉ used
  bound : f < TOTAL_RAM_FRAG

/-- `h'` differs from `h` only in the links of the descriptors in `s`. -/
structure LinkFrame (h h' : SieHeap) (s : List Nat) : Prop where
  next : ∀ q ∉ s, h'.next q = h.next q
  pre : ∀ q ∉ s, h'.pre q = h.pre q
  ramStart : h'.ramStart = h.ramStart
  ramSize : h'.ramSize = h.ramSize

theorem LinkFrame.isList (hf : LinkFrame h h' s) (hl : IsList h.next h.pre hd l)
    (hdisj : l.Disjoint s) : IsList h'.next h'.pre hd l :=
  hl.frame (fun q hq => hf.next q (hdisj hq)) (fun q hq => hf.pre q (hdisj hq))

theorem ifFragValid_of_lt (hf : f < TOTAL_RAM_FRAG) :
    ifFragValid (some f) = NONE_ERR := by
  simp only [ifFragValid]
  rw [if_neg (by omega)]

theorem ne_err_of_lt (hf : f < TOTAL_RAM_FRAG) : ifFragValid (some f) ≠ ERR_OCCUR := by
  rw [ifFragValid_of_lt hf]
  decide

theorem Reps.nodup (hr : Reps h pool free used) : (pool ++ free ++ used).Nodup := by
  refine nodup_append'.mpr ⟨nodup_append'.mpr ⟨?_, ?_, hr.poolFree⟩, ?_, ?_⟩
  · exact hr.poolList.nodup
  · exact hr.freeList.nodup
  · exact hr.usedList.nodup
  · exact disjoint_append_left.mpr ⟨hr.poolUsed, hr.freeUsed⟩

section

variable {h' : SieHeap} {pool' free' used' : List Nat}
  (hp : IsList h'.next h'.pre h'.memFragFree pool') (hf : IsList h'.next h'.pre h'.free free')
  (hu : IsList h'.next h'.pre h'.used used')

include hp hf hu

/-- Lists with nothing new on them. -/
theorem Reps.shrink (hr : Reps h pool free used)
    (hsub : (pool' ++ free' ++ used').Sublist (pool ++ free ++ used)) :
    Reps h' pool' free' used' := by
  obtain ⟨hpf, -, hpfu⟩ := nodup_append'.mp (hr.nodup.sublist hsub)
  obtain ⟨hpu, hfu⟩ := disjoint_append_left.mp hpfu
  exact ⟨hp, hf, hu, (nodup_append'.mp hpf).2.2, hpu, hfu, fun g hg => hr.bound g (hsub.subset hg)⟩

/-- Lists with a detached descriptor on one of them. -/
theorem Reps.grow (hr : Reps h pool free used) (hd : Detached pool free used f)
    (hperm : (pool' ++ free' ++ used').Perm (f :: (pool ++ free ++ used))) :
    Reps h' pool' free' used' := by
  have hnew : f ∉ pool ++ free ++ used := by simp [hd.notPool, hd.notFree, hd.notUsed]
  obtain ⟨hpf, -, hpfu⟩ := nodup_append'.mp (hperm.nodup_iff.mpr (nodup_cons.mpr ⟨hnew, hr.nodup⟩))
  obtain ⟨hpu, hfu⟩ := disjoint_append_left.mp hpfu
  refine ⟨hp, hf, hu, (nodup_append'.mp hpf).2.2, hpu, hfu, fun g hg => ?_⟩
  rcases mem_cons.mp (hperm.subset hg) with rfl | hg
  · exact hd.bound
  · exact hr.bound g hg

end

/-- The lists are short enough for every walk to end. -/
theorem Reps.length_le (hr : Reps h pool free used)
    : (pool ++ free ++ used).length ≤ TOTAL_RAM_FRAG := by
  have hsub : (pool ++ free ++ used) ⊆ List.range TOTAL_RAM_FRAG := fun f hf =>
    List.mem_range.mpr (hr.bound f hf)
  have := (subperm_of_subset hr.nodup hsub).length_le
  simpa using this

/-! ### Taking a descriptor off a list -/

/-- The state after `get_out_of_free_list` or `get_out_of_used_list`. -/
def unlinked (id : Head) (h : SieHeap) (f : Nat) : SieHeap :=
  { h.setHead id (if h.pre f = none then h.next f else h.head id) with
    next := fun q => if h.pre f = some q then h.next f else h.next q
    pre := fun q => if h.next f = some q then h.pre f else h.pre q }

theorem update_eq_ite {α : Type} (g : Nat → α) (p : Nat) (v : α) :
    Function.update g p v = fun q => if some p = some q then v else g q := by
  funext q
  by_cases hq : q = p
  · simp [hq]
  · simp [hq, Ne.symm hq]

theorem getOutOfList_eq (id : Head) (h : SieHeap) (hf : f < TOTAL_RAM_FRAG) :
    getOutOfList id h (some f) = (NONE_ERR, unlinked id h f) := by
  unfold getOutOfList
  simp only [if_neg (ne_err_of_lt hf)]
  cases hp : h.pre f with
  | none =>
    cases id <;> cases hn : h.next f <;>
      simp [unlinked, SieHeap.setHead, SieHeap.setPre, hp, hn, update_eq_ite]
  | some p =>
    cases id <;> cases hn : h.next f <;>
      simp [unlinked, SieHeap.setHead, SieHeap.setPre, SieHeap.setNext, SieHeap.head,
        hp, hn, update_eq_ite]

/-- Unlinking touches only the links of the list `f` is on. -/
theorem unlinked_frame (id : Head) (hl : IsList h.next h.pre hd l) (hf : f ∈ l)
    : LinkFrame h (unlinked id h f) l where
  next := fun q hq => if_neg fun e => hq (hl.prev_mem hf e)
  pre := fun q hq => if_neg fun e => hq (hl.next_mem hf e)
  ramStart := by cases id <;> rfl
  ramSize := by cases id <;> rfl

variable {h : SieHeap} {pool free used l1 l2 : List Nat} {f : Nat}

theorem Reps.unlinked_free (hr : Reps h pool (l1 ++ f :: l2) used) :
    Reps (unlinked .free h f) pool (l1 ++ l2) used := by
  have hframe := unlinked_frame .free hr.freeList (by simp : f ∈ l1 ++ f :: l2)
  refine .shrink ?_ ?_ ?_ hr
    ((((sublist_cons_self f l2).append_left l1).append_left pool).append_right used)
  · exact hframe.isList hr.poolList hr.poolFree
  · exact hr.freeList.unlink (fun q _ => rfl) (fun q _ => rfl)
  · exact hframe.isList hr.usedList (disjoint_comm.mp hr.freeUsed)

theorem Reps.unlinked_used (hr : Reps h pool free (l1 ++ f :: l2)) :
    Reps (unlinked .used h f) pool free (l1 ++ l2) := by
  have hframe := unlinked_frame .used hr.usedList (by simp : f ∈ l1 ++ f :: l2)
  refine .shrink ?_ ?_ ?_ hr (((sublist_cons_self f l2).append_left l1).append_left _)
  · exact hframe.isList hr.poolList hr.poolUsed
  · exact hframe.isList hr.freeList hr.freeUsed
  · exact hr.usedList.unlink (fun q _ => rfl) (fun q _ => rfl)

/-- The state after `alloc_mem_frag` has taken `f` off the pool. -/
def popped (h : SieHeap) (f : Nat) : SieHeap :=
  { h with
    memFragFree := h.next f
    pre := fun q => if h.next f = some q then none else h.pre q }

theorem allocMemFrag_eq (hf : h.memFragFree = some f) : allocMemFrag h = (some f, popped h f) := by
  unfold allocMemFrag popped
  rw [hf]
  cases hn : h.next f with
  | none => simp [hn]
  | some g => simp [hn, SieHeap.setPre, update_eq_ite]

/-- The two assignments of `alloc_mem_frag` unlink the head of the pool. -/
theorem popped_isList (hl : IsList h.next h.pre h.memFragFree (f :: pool)) :
    IsList (popped h f).next (popped h f).pre (popped h f).memFragFree pool := by
  have hl : IsList h.next h.pre h.memFragFree ([] ++ f :: pool) := hl
  have hpre : h.pre f = none := hl.links.1
  have hun : IsList (popped h f).next (popped h f).pre
      (if h.pre f = none then h.next f else h.memFragFree) ([] ++ pool) :=
    hl.unlink (fun q _ => by simp [hpre, popped]) (fun q _ => by simp [hpre, popped])
  rw [if_pos hpre] at hun
  exact hun

/-- `alloc_mem_frag` on a non-empty pool detaches its first descriptor. -/
theorem allocMemFrag_spec (hr : Reps h (f :: pool) free used) :
    ∃ h', allocMemFrag h = (some f, h') ∧ Reps h' pool free used ∧
      h'.ramStart = h.ramStart ∧ h'.ramSize = h.ramSize := by
  have hpre' : ∀ q, q ∉ f :: pool → (popped h f).pre q = h.pre q :=
    fun q hq => if_neg fun e => hq (hr.poolList.next_mem (by simp) e)
  refine ⟨popped h f, allocMemFrag_eq hr.poolList.head_eq,
    .shrink (popped_isList hr.poolList) ?_ ?_ hr (sublist_cons_self f _), rfl, rfl⟩
  · exact hr.freeList.frame (fun _ _ => rfl) fun q hq =>
      hpre' q fun hq' => hr.poolFree hq' hq
  · exact hr.usedList.frame (fun _ _ => rfl) fun q hq =>
      hpre' q fun hq' => hr.poolUsed hq' hq

/-! ### Putting a descriptor on a list -/

/-- The links with `f` between `l1` and `l2`. -/
def relinked (h : SieHeap) (l1 : List Nat) (f : Nat) (l2 : List Nat) : SieHeap :=
  { h with
    next := fun q => if l1.getLast? = some q then some f else if f = q then l2.head? else h.next q
    pre := fun q => if l2.head? = some q then some f else if f = q then l1.getLast? else h.pre q }

theorem relinked_spec (l1 : List Nat) (hl : IsList h.next h.pre hd (l1 ++ l2)) (hf : f ∉ l1 ++ l2) :
    IsList (relinked h l1 f l2).next (relinked h l1 f l2).pre (if l1 = [] then some f else hd)
        (l1 ++ f :: l2) ∧
      LinkFrame h (relinked h l1 f l2) (f :: (l1 ++ l2)) := by
  have hlast : ∀ q ∉ l1 ++ l2, l1.getLast? ≠ some q :=
    fun q hq e => hq (mem_append_left _ (mem_of_getLast? e))
  have hhead : ∀ q ∉ l1 ++ l2, l2.head? ≠ some q :=
    fun q hq e => hq (mem_append_right _ (mem_of_head? e))
  have hne : ∀ q ∈ l1 ++ l2, f ≠ q := fun q hq e => hf (e ▸ hq)
  refine ⟨hl.insert hf (by simp [relinked, hlast f hf]) (by simp [relinked, hhead f hf])
    (fun q hq => by simp [relinked, hne q hq]) (fun q hq => by simp [relinked, hne q hq]), ?_,
    ?_, rfl, rfl⟩
  · intro q hq
    rw [mem_cons, not_or] at hq
    simp [relinked, hlast q hq.2, Ne.symm hq.1]
  · intro q hq
    rw [mem_cons, not_or] at hq
    simp [relinked, hhead q hq.2, Ne.symm hq.1]

/-- A list without `f` and the descriptors that are linked to it. -/
theorem LinkFrame.other (hfr : LinkFrame h h' (f :: s)) (hl : IsList h.next h.pre hd l) (hf : f ∉ l)
    (hdisj : l.Disjoint s) : IsList h'.next h'.pre hd l :=
  hfr.isList hl (disjoint_cons_right.mpr ⟨hf, hdisj⟩)

theorem freeMemFrag_spec (hr : Reps h pool free used) (hf : Detached pool free used f) :
    ∃ h', freeMemFrag h (some f) = (NONE_ERR, h') ∧ Reps h' (f :: pool) free used ∧
      h'.ramStart = h.ramStart ∧ h'.ramSize = h.ramSize := by
  have hhd := hr.poolList.head_eq
  have hrun : freeMemFrag h (some f) =
      (NONE_ERR, { relinked h [] f pool with memFragFree := some f }) := by
    unfold freeMemFrag
    simp only [if_neg (ne_err_of_lt hf.bound)]
    cases hp : pool.head? <;>
      simp [hhd, hp, SieHeap.setNext, SieHeap.setPre, update_eq_ite, relinked]
  obtain ⟨hins, hframe⟩ := relinked_spec [] hr.poolList hf.notPool
  refine ⟨_, hrun, .grow hins ?_ ?_ hr hf (.refl _), rfl, rfl⟩
  · exact hframe.other hr.freeList hf.notFree (disjoint_comm.mp hr.poolFree)
  · exact hframe.other hr.usedList hf.notUsed (disjoint_comm.mp hr.poolUsed)

theorem addIntoUsedList_spec (hr : Reps h pool free used) (hf : Detached pool free used f) :
    ∃ h', addIntoUsedList h (some f) = (NONE_ERR, h') ∧ Reps h' pool free (f :: used) ∧
      h'.ramStart = h.ramStart ∧ h'.ramSize = h.ramSize := by
  have hhd := hr.usedList.head_eq
  have hrun : addIntoUsedList h (some f) =
      (NONE_ERR, { relinked h [] f used with used := some f }) := by
    unfold addIntoUsedList
    simp only [if_neg (ne_err_of_lt hf.bound)]
    cases hp : used.head? <;>
      simp [hhd, hp, SieHeap.setNext, SieHeap.setPre, SieHeap.setHead, update_eq_ite, relinked]
  obtain ⟨hins, hframe⟩ := relinked_spec [] hr.usedList hf.notUsed
  refine ⟨_, hrun, .grow ?_ ?_ hins hr hf perm_middle, rfl, rfl⟩
  · exact hframe.other hr.poolList hf.notPool hr.poolUsed
  · exact hframe.other hr.freeList hf.notFree hr.freeUsed

/-! ### The sorted free list -/

/-- The order in which `add_into_free_list` keeps the free list. -/
def sizeLe (h : SieHeap) (f g : Nat) : Prop := h.ramSize f ≤ h.ramSize g

instance (h : SieHeap) : DecidableRel (sizeLe h) := fun f g =>
  inferInstanceAs (Decidable (h.ramSize f ≤ h.ramSize g))

/-- The heap with `f` between `l1` and `l2` on the free list. -/
def linked (h : SieHeap) (l1 : List Nat) (f : Nat) (l2 : List Nat) : SieHeap :=
  { relinked h l1 f l2 with free := if l1 = [] then some f else h.free }

theorem linked_spec (l1 : List Nat) (hl : IsList h.next h.pre h.free (l1 ++ l2))
    (hf : f ∉ l1 ++ l2) :
    IsList (linked h l1 f l2).next (linked h l1 f l2).pre (linked h l1 f l2).free (l1 ++ f :: l2) ∧
      LinkFrame h (linked h l1 f l2) (f :: (l1 ++ l2)) :=
  have ⟨hins, hframe⟩ := relinked_spec l1 hl hf
  ⟨hins, hframe.next, hframe.pre, rfl, rfl⟩

/-- From a position inside the free list the loop inserts `f` in front of the
first fragment that is not smaller, or at the end. -/
theorem addIntoFreeListLoop_spec (hl : IsList h.next h.pre h.free (l1 ++ l2)) (hf : f ∉ l1 ++ l2)
    (hne : l2 ≠ []) (hlen : l2.length < n) :
    ∃ h', addIntoFreeListLoop f n h l2.head? = some (NONE_ERR, h') ∧
      IsList h'.next h'.pre h'.free (l1 ++ l2.orderedInsert (sizeLe h) f) ∧
      LinkFrame h h' (f :: (l1 ++ l2)) ∧
      h'.memFragFree = h.memFragFree ∧ h'.used = h.used := by
  induction l2 generalizing l1 n with
  | nil => exact absurd rfl hne
  | cons t l2 ih =>
    obtain ⟨k, rfl⟩ : ∃ k, n = k + 1 := ⟨n - 1, by omega⟩
    obtain ⟨hpre, hnext⟩ := hl.links
    have hft : f ≠ t := fun e => hf (by simp [e])
    simp only [head?_cons, addIntoFreeListLoop, orderedInsert_cons]
    by_cases hle : h.ramSize f ≤ h.ramSize t
    · rw [if_pos hle, if_pos (show sizeLe h f t from hle)]
      -- `f` goes between `l1` and `t`.
      obtain ⟨hins, hframe⟩ := linked_spec _ hl hf
      refine ⟨_, ?_, hins, hframe, rfl, rfl⟩
      rcases eq_nil_or_concat l1 with rfl | ⟨l, p, rfl⟩
      · simp [SieHeap.setPre, SieHeap.setNext, SieHeap.setHead, update_eq_ite, hpre, Ne.symm hft,
          linked, relinked]
      · simp [SieHeap.setPre, SieHeap.setNext, update_eq_ite, hpre, Ne.symm hft, linked, relinked]
    · rw [if_neg hle, if_neg (show ¬ sizeLe h f t from hle)]
      rw [hnext]
      rw [append_cons] at hl hf
      cases l2 with
      | nil =>
        -- `t` is the last fragment: `f` goes behind it.
        obtain ⟨hins, hframe⟩ := linked_spec _ hl hf
        refine ⟨linked h (l1 ++ [t]) f [], ?_, by simpa using hins, by simpa using hframe, rfl, rfl⟩
        have hswap : ∀ q, (if f = q then none else if t = q then some f else h.next q) =
            if t = q then some f else if f = q then none else h.next q := by grind
        simp [SieHeap.setPre, SieHeap.setNext, update_eq_ite, linked, relinked, hswap]
      | cons u l2 =>
        obtain ⟨h', hrun, hlist, hframe, hpool, hused⟩ := ih (n := k) hl hf
          (cons_ne_nil u l2) (by simp only [length_cons] at hlen ⊢; omega)
        refine ⟨h', ?_, by simpa using hlist, by simpa using hframe, hpool, hused⟩
        simpa using hrun

theorem addIntoFreeList_spec (hr : Reps h pool free used) (hf : Detached pool free used f) :
    ∃ h', addIntoFreeList h (some f) = some (NONE_ERR, h') ∧
      Reps h' pool (free.orderedInsert (sizeLe h) f) used ∧
      h'.ramStart = h.ramStart ∧ h'.ramSize = h.ramSize := by
  have hperm : (pool ++ free.orderedInsert (sizeLe h) f ++ used).Perm
      (f :: (pool ++ free ++ used)) := by
    refine (((perm_orderedInsert _ f free).append_left pool).append_right used).trans ?_
    rw [append_assoc, append_assoc]
    exact perm_middle
  have key : ∃ h', addIntoFreeList h (some f) = some (NONE_ERR, h') ∧
      IsList h'.next h'.pre h'.free (free.orderedInsert (sizeLe h) f) ∧
      LinkFrame h h' (f :: free) ∧ h'.memFragFree = h.memFragFree ∧ h'.used = h.used := by
    have hhd := hr.freeList.head_eq
    unfold addIntoFreeList
    simp only [if_neg (ne_err_of_lt hf.bound)]
    cases free with
    | nil =>
      simp only [hhd, head?_nil]
      obtain ⟨hins, hframe⟩ := linked_spec [] hr.freeList hf.notFree
      refine ⟨_, ?_, hins, hframe, rfl, rfl⟩
      simp [SieHeap.setHead, SieHeap.setPre, SieHeap.setNext, update_eq_ite, linked, relinked]
    | cons t l =>
      simp only [hhd, head?_cons]
      have hlen := hr.length_le
      simp only [length_append] at hlen
      have hl : IsList h.next h.pre h.free ([] ++ t :: l) := hr.freeList
      exact addIntoFreeListLoop_spec hl hf.notFree (cons_ne_nil t l) (by omega)
  obtain ⟨h', hrun, hlist, hframe, hpool, hused⟩ := key
  refine ⟨h', hrun, .grow ?_ hlist ?_ hr hf hperm, hframe.ramStart, hframe.ramSize⟩
  · rw [hpool]
    exact hframe.other hr.poolList hf.notPool hr.poolFree
  · rw [hused]
    exact hframe.other hr.usedList hf.notUsed (disjoint_comm.mp hr.freeUsed)

end SilanKernel.Dlna
