import SilanKernel.Data.Mask
import SilanKernel.Data.Tiling
import SilanKernel.Dlna.SieMallocLists

/-!
# SilanKernel.Dlna.SieMallocSound

What every state of the DLNA heap satisfies.

`HeapInv` is the heap's invariant: the three lists hold every descriptor once,
the fragments on the free and the used list **tile** the region, the free list
is sorted by size, and the used list answers, one by one, the allocations that
the caller holds. Between taking a fragment off a list and putting it on the
free list the operations pass through `Pending` states, in which one descriptor
is in the driver's hands; `Pending.add` is the step back to `HeapInv`, so
`sie_malloc` and `sie_free` only have to reach a `Pending` state.

The one thing that can break the invariant is the rounding of the request:
`ASSIGNED_FOR_1024BYTE` wraps to zero for the last 1023 request sizes, and
`sie_malloc` then hands out a fragment of no bytes.
-/

namespace SilanKernel.Dlna

open DList List Option

/-- The piece of memory a descriptor describes. -/
def SieHeap.extent (h : SieHeap) (f : Nat) : Extent := ((h.ramStart f).toNat, (h.ramSize f).toNat)

/-- The region `[A, A + S)`. -/
def region (A S : BitVec 32) : Set Nat := {x | A.toNat ≤ x ∧ x < A.toNat + S.toNat}

/-- An allocation the caller holds: the pointer returned and the size asked for. -/
abbrev Alloc := BitVec 32 × BitVec 32

/-- The used fragment `f` answers the allocation `a`. -/
def Answers (h : SieHeap) (f : Nat) (a : Alloc) : Prop := h.ramStart f = a.1 ∧ a.2 ≤ h.ramSize f

/-- The invariant of the heap over the region `[A, A + S)`, with the allocations
`live` outstanding. -/
structure HeapInv (A S : BitVec 32) (h : SieHeap) (pool free used : List Nat)
    (live : List Alloc) : Prop where
  reps : Reps h pool free used
  total : ∀ f < TOTAL_RAM_FRAG, f ∈ pool ++ free ++ used
  tiles : Tiles ((free ++ used).map h.extent) (region A S)
  sorted : free.Pairwise (sizeLe h)
  answers : List.Forall₂ (Answers h) used live

/-- The same with the free fragment `f` in hand. -/
structure Pending (A S : BitVec 32) (h : SieHeap) (pool free used : List Nat)
    (live : List Alloc) (f : Nat) : Prop where
  reps : Reps h pool free used
  detached : Detached pool free used f
  total : ∀ g < TOTAL_RAM_FRAG, g = f ∨ g ∈ pool ++ free ++ used
  tiles : Tiles (h.extent f :: (free ++ used).map h.extent) (region A S)
  sorted : free.Pairwise (sizeLe h)
  answers : List.Forall₂ (Answers h) used live

variable {A S : BitVec 32} {h : SieHeap} {pool used l1 l2 : List Nat} {live : List Alloc}
  {f g : Nat}

/-! ### Back onto the free list -/

instance (h : SieHeap) : Std.Total (sizeLe h) := ⟨fun _ _ => BitVec.le_total _ _⟩

instance (h : SieHeap) : IsTrans Nat (sizeLe h) := ⟨fun _ _ _ => BitVec.le_trans⟩

theorem Pending.add (hp : Pending A S h pool free used live f) :
    ∃ h', addIntoFreeList h (some f) = some (NONE_ERR, h') ∧
      HeapInv A S h' pool (free.orderedInsert (sizeLe h) f) used live := by
  obtain ⟨h', hrun, hreps, hstart, hsize⟩ := addIntoFreeList_spec hp.reps hp.detached
  have hext : h'.extent = h.extent := by
    funext g
    simp [SieHeap.extent, hstart, hsize]
  have hle : sizeLe h' = sizeLe h := by
    funext g g'
    simp [sizeLe, hsize]
  have hperm := perm_orderedInsert (sizeLe h) f free
  refine ⟨h', hrun, hreps, ?_, ?_, ?_, ?_⟩
  · intro g hg
    have := hp.total g hg
    grind
  · rw [hext]
    exact hp.tiles.perm ((hperm.append_right used).map h.extent).symm
  · rw [hle]
    exact hp.sorted.orderedInsert f free
  · refine hp.answers.imp fun g a => ?_
    simp [Answers, hstart, hsize]

/-! ### Off a list -/

theorem HeapInv.extent_bounds (hi : HeapInv A S h pool free used live) (hg : g ∈ free ++ used) :
    A.toNat ≤ (h.ramStart g).toNat ∧
      (h.ramStart g).toNat + (h.ramSize g).toNat ≤ A.toNat + S.toNat :=
  hi.tiles.bounds (fun _ hx => hx) (mem_map_of_mem (f := h.extent) hg)

theorem Pending.extent_bounds (hp : Pending A S h pool free used live f)
    (hg : g = f ∨ g ∈ free ++ used) :
    A.toNat ≤ (h.ramStart g).toNat ∧
      (h.ramStart g).toNat + (h.ramSize g).toNat ≤ A.toNat + S.toNat := by
  refine hp.tiles.bounds (r := h.extent g) (fun _ hx => hx) ?_
  rcases hg with rfl | hg
  · exact mem_cons_self
  · exact mem_cons_of_mem _ (mem_map_of_mem hg)

theorem unlinked_extent (id : Head) : (unlinked id h f).extent = h.extent := by
  cases id <;> rfl

theorem unlinked_sizeLe (id : Head) : sizeLe (unlinked id h f) = sizeLe h := by
  cases id <;> rfl

theorem unlinked_answers (id : Head) : Answers (unlinked id h f) = Answers h := by
  cases id <;> rfl

/-- The used fragments go on answering as long as their extents stay. -/
theorem answers_congr (ha : List.Forall₂ (Answers h) used live)
    (hstart : ∀ g ∈ used, h'.ramStart g = h.ramStart g)
    (hsize : ∀ g ∈ used, h'.ramSize g = h.ramSize g) :
    List.Forall₂ (Answers h') used live := by
  induction ha with
  | nil => exact .nil
  | @cons g a used live hga _ ih =>
    refine .cons ?_ (ih (fun g' hg' => hstart g' (by simp [hg']))
      fun g' hg' => hsize g' (by simp [hg']))
    unfold Answers at hga ⊢
    rwa [hstart g (by simp), hsize g (by simp)]

/-- Dropping a used fragment drops the allocation it answers. -/
theorem answers_eraseP (ha : List.Forall₂ (Answers h) (l1 ++ f :: l2) live)
    (hf : h.ramStart f = addr)
    (hbefore : ∀ g ∈ l1, h.ramStart g ≠ addr) :
    List.Forall₂ (Answers h) (l1 ++ l2) (live.eraseP fun a => a.1 == addr) := by
  induction l1 generalizing live with
  | nil =>
    obtain _ | ⟨a, live⟩ := live
    · simp at ha
    · obtain ⟨ha, hrest⟩ := forall₂_cons.mp ha
      rwa [eraseP_cons_of_pos (by simp [← ha.1, hf])]
  | cons g l1 ih =>
    obtain _ | ⟨a, live⟩ := live
    · simp at ha
    · obtain ⟨ha, hrest⟩ := forall₂_cons.mp ha
      have hg : a.1 ≠ addr := ha.1 ▸ hbefore g (by simp)
      rw [eraseP_cons_of_neg (by simpa using hg)]
      exact .cons ha (ih hrest fun g' hg' => hbefore g' (by simp [hg']))

/-- The first fragment in use with a given start, taken off the used list. -/
theorem HeapInv.take_used (hi : HeapInv A S h pool free used live)
    (hfind : used.find? (isTrue h addr .atThisAddr) = some f) :
    ∃ used', Pending A S (unlinked .used h f) pool free used'
      (live.eraseP fun a => a.1 == addr) f := by
  obtain ⟨hf, l1, l2, rfl, hbefore⟩ := find?_eq_some_iff_append.mp hfind
  have hnd := hi.reps.usedList.nodup
  have hmem : f ∈ pool ++ free ++ (l1 ++ f :: l2) := by simp
  refine ⟨l1 ++ l2, hi.reps.unlinked_used, ⟨?_, ?_, ?_, hi.reps.bound f hmem⟩, ?_, ?_, ?_, ?_⟩
  · exact fun hf' => hi.reps.poolUsed hf' (by simp)
  · exact fun hf' => hi.reps.freeUsed hf' (by simp)
  · exact (nodup_cons.mp (nodup_middle.mp hnd)).1
  · intro g hg
    have := hi.total g hg
    grind
  · rw [unlinked_extent]
    refine hi.tiles.perm ?_
    rw [← map_cons, ← append_assoc, ← append_assoc]
    exact perm_middle.map h.extent
  · rw [unlinked_sizeLe]
    exact hi.sorted
  · rw [unlinked_answers]
    exact answers_eraseP hi.answers (by simpa [isTrue] using hf) fun g hg => by
      simpa [isTrue] using hbefore g hg

/-! ### Joining with the neighbours -/

/-- The free fragment `t`, taken off the free list while `f` is in hand. -/
theorem Pending.take_free (hp : Pending A S h pool (l1 ++ t :: l2) used live f) :
    Reps (unlinked .free h t) pool (l1 ++ l2) used ∧
      Detached pool (l1 ++ l2) used t ∧ Detached pool (l1 ++ l2) used f ∧ f ≠ t := by
  have hnd := nodup_cons.mp (nodup_middle.mp hp.reps.freeList.nodup)
  have hf := hp.detached
  have hfree := hf.notFree
  simp only [mem_append, mem_cons, not_or] at hfree
  refine ⟨hp.reps.unlinked_free, ⟨?_, hnd.1, ?_, hp.reps.bound t (by simp)⟩,
    ⟨hf.notPool, ?_, hf.notUsed, hf.bound⟩, hfree.2.1⟩
  · exact fun ht => hp.reps.poolFree ht (by simp)
  · exact fun ht => hp.reps.freeUsed (by simp) ht
  · simp only [mem_append, not_or]
    exact ⟨hfree.1, hfree.2.2⟩

/-- The lists have been rearranged, the fragments left on them are as they were,
and `t` is now the one in hand. -/
theorem Pending.rearranged (hp : Pending A S h pool free used live f)
    (hreps : Reps h' pool' free' used)
    (hdet : Detached pool' free' used t)
    (htotal : ∀ g < TOTAL_RAM_FRAG, g = t ∨ g ∈ pool' ++ free' ++ used)
    (hsub : free'.Sublist free)
    (hstart : ∀ g ∈ free' ++ used, h'.ramStart g = h.ramStart g)
    (hsize : ∀ g ∈ free' ++ used, h'.ramSize g = h.ramSize g)
    (htiles : Tiles (h'.extent t :: (free' ++ used).map h.extent) (region A S)) :
    Pending A S h' pool' free' used live t := by
  refine ⟨hreps, hdet, htotal, ?_, ?_, ?_⟩
  · have : (free' ++ used).map h'.extent = (free' ++ used).map h.extent := by
      refine map_congr_left fun g hg => ?_
      simp [SieHeap.extent, hstart g hg, hsize g hg]
    rwa [this]
  · refine (hp.sorted.sublist hsub).imp_of_mem fun {a b} ha hb hab => ?_
    unfold sizeLe at hab ⊢
    rwa [hsize a (mem_append_left _ ha), hsize b (mem_append_left _ hb)]
  · exact answers_congr hp.answers (fun g hg => hstart g (mem_append_right _ hg))
      fun g hg => hsize g (mem_append_right _ hg)

theorem Reps.setSize (hr : Reps h pool free used) :
    Reps (h.setSize g v) pool free used :=
  ⟨hr.poolList, hr.freeList, hr.usedList, hr.poolFree, hr.poolUsed, hr.freeUsed, hr.bound⟩

theorem Reps.setStart (hr : Reps h pool free used) :
    Reps (h.setStart g v) pool free used :=
  ⟨hr.poolList, hr.freeList, hr.usedList, hr.poolFree, hr.poolUsed, hr.freeUsed, hr.bound⟩

/-- `p` ends where `q` starts. -/
def Meets (h : SieHeap) (p q : Nat) : Prop :=
  (h.ramStart q).toNat = (h.ramStart p).toNat + (h.ramSize p).toNat

theorem Detached.ne (hf : Detached pool free used f) (hg : g ∈ free ++ used) : g ≠ f := by
  rintro rfl
  rcases mem_append.mp hg with hg | hg
  · exact hf.notFree hg
  · exact hf.notUsed hg

section

variable {t : Nat}

/-- A word sum of sizes is their sum as long as it fits the region. -/
theorem toNat_add_sizes {a b : BitVec 32} (hab : a.toNat + b.toNat ≤ S.toNat) :
    (a + b).toNat = a.toNat + b.toNat := by
  rw [BitVec.toNat_add, Nat.mod_eq_of_lt (by omega)]

theorem Pending.tiles_take (hp : Pending A S h pool (l1 ++ t :: l2) used live f) :
    Tiles (h.extent f :: h.extent t :: (l1 ++ l2 ++ used).map h.extent) (region A S) := by
  refine hp.tiles.perm (List.Perm.cons _ ?_)
  rw [← map_cons, append_assoc, append_assoc]
  exact perm_middle.map h.extent

theorem Meets.extent_eq (hm : Meets h p q) :
    h.extent q = ((h.ramStart p).toNat + (h.ramSize p).toNat, (h.ramSize q).toNat) := by
  simp [SieHeap.extent, hm.symm]

/-- Of two fragments that meet, one in hand and one from the free list, `q` has gone back to
the pool and `p` holds the memory of both. -/
theorem Pending.merged {p q : Nat} {h2 : SieHeap}
    (hp : Pending A S h pool (l1 ++ t :: l2) used live f) (hpq : p = f ∧ q = t ∨ p = t ∧ q = f)
    (hadj : Meets h p q) (hne : p ≠ q) (hdet : Detached pool (l1 ++ l2) used p)
    (hreps : Reps h2 (q :: pool) (l1 ++ l2) used) (hstart : h2.ramStart = h.ramStart)
    (hsize : h2.ramSize = h.ramSize) :
    Pending A S (h2.setSize p (h2.ramSize p + h2.ramSize q)) (q :: pool)
      (l1 ++ l2) used live p := by
  refine hp.rearranged hreps.setSize ⟨?_, hdet.notFree, hdet.notUsed, hdet.bound⟩ ?_
    ((sublist_cons_self t l2).append_left l1) ?_ ?_ ?_
  · simp only [mem_cons, not_or]
    exact ⟨hne, hdet.notPool⟩
  · intro g hg
    have := hp.total g hg
    grind
  · intro g _
    exact congrFun hstart g
  · intro g hg
    have := hdet.ne hg
    simp [SieHeap.setSize, this, hsize]
  · have hbf := hp.extent_bounds (.inl rfl)
    have hbt := hp.extent_bounds (g := t) (.inr (by simp))
    have hsum : (h.ramSize p + h.ramSize q).toNat = (h.ramSize p).toNat + (h.ramSize q).toNat := by
      unfold Meets at hadj
      refine toNat_add_sizes (S := S) ?_
      rcases hpq with ⟨rfl, rfl⟩ | ⟨rfl, rfl⟩ <;> omega
    have htiles : Tiles (h.extent p :: h.extent q :: (l1 ++ l2 ++ used).map h.extent)
        (region A S) := by
      rcases hpq with ⟨rfl, rfl⟩ | ⟨rfl, rfl⟩
      · exact hp.tiles_take
      · exact hp.tiles_take.perm (List.Perm.swap _ _ _)
    rw [hadj.extent_eq] at htiles
    simpa [SieHeap.extent, SieHeap.setSize, hstart, hsize, hsum] using htiles.merge

section

variable (hp : Pending A S h pool free used live f)

include hp

/-- Only a fragment right after the one in hand, or only one right before it: that one grows, and
the one in hand goes back to the pool. -/
theorem Pending.join_one (ht : t ∈ free) :
    (Meets h f t → ∃ h' pool' free', sieFreeJoin h f (some t) none = (some f, h') ∧
      Pending A S h' pool' free' used live f) ∧
    (Meets h t f → ∃ h' pool' free', sieFreeJoin h f none (some t) = (some t, h') ∧
      Pending A S h' pool' free' used live t) := by
  obtain ⟨l1, l2, rfl⟩ := append_of_mem ht
  obtain ⟨hreps1, hdett, hdetf, hne⟩ := hp.take_free
  simp only [sieFreeJoin, if_neg (ne_err_of_lt hdett.bound), getOutOfFreeList,
    getOutOfList_eq .free h hdett.bound]
  constructor
  · intro hadj
    obtain ⟨h2, hrun2, hreps2, hstart2, hsize2⟩ := freeMemFrag_spec hreps1 hdett
    rw [hrun2]
    exact ⟨_, _, _, rfl, hp.merged (.inl ⟨rfl, rfl⟩) hadj hne hdetf hreps2 hstart2 hsize2⟩
  · intro hadj
    obtain ⟨h2, hrun2, hreps2, hstart2, hsize2⟩ := freeMemFrag_spec hreps1 hdetf
    rw [hrun2]
    exact ⟨_, _, _, rfl, hp.merged (.inr ⟨rfl, rfl⟩) hadj hne.symm hdett hreps2 hstart2 hsize2⟩

/-- Fragments on both sides: all three become the one before. -/
theorem Pending.join_both (ht1 : t1 ∈ free)
    (ht2 : t2 ∈ free) (hadj1 : Meets h f t1) (hadj2 : Meets h t2 f) (hne : t1 ≠ t2) :
    ∃ h' pool' free', sieFreeJoin h f (some t1) (some t2) = (some t2, h') ∧
      Pending A S h' pool' free' used live t2 := by
  obtain ⟨l1, l2, rfl⟩ := append_of_mem ht1
  obtain ⟨hreps1, hdet1, hdetf, hne1⟩ := hp.take_free
  obtain ⟨h2, hrun2, hreps2, hstart2, hsize2⟩ := freeMemFrag_spec hreps1 hdet1
  have hp2 := hp.merged (.inl ⟨rfl, rfl⟩) hadj1 hne1 hdetf hreps2 hstart2 hsize2
  have hmem2 : t2 ∈ l1 ++ l2 := by
    grind
  obtain ⟨m1, m2, hm⟩ := append_of_mem hmem2
  rw [hm] at hreps2 hp2
  obtain ⟨-, hdet2, hdetf', hne2⟩ := hp2.take_free
  obtain ⟨h4, hrun4, hreps4, hstart4, hsize4⟩ := freeMemFrag_spec hreps2.unlinked_free hdetf'
  have hstart4 : h4.ramStart = h2.ramStart := hstart4
  have hsize4 : h4.ramSize = h2.ramSize := hsize4
  have hstart2 : h2.ramStart = h.ramStart := hstart2
  have hsize2 : h2.ramSize = h.ramSize := hsize2
  have hadj : Meets (h2.setSize f (h2.ramSize f + h2.ramSize t1)) t2 f := by
    simpa [Meets, SieHeap.setSize, hstart2, hsize2, hne2.symm] using hadj2
  -- As if `f` had grown before it goes to the pool; its size is of no account there.
  have hreps5 := hreps4.setSize (g := f) (v := h2.ramSize f + h2.ramSize t1)
  have hp4 := hp2.merged (.inr ⟨rfl, rfl⟩) hadj hne2.symm hdet2 hreps5 hstart4
    (by simp [SieHeap.setSize, hsize4])
  refine ⟨h4.setSize t2 (h4.ramSize t2 + (h4.ramSize f + h4.ramSize t1)), _, _, ?_,
    hp4.rearranged hreps4.setSize hp4.detached hp4.total (List.Sublist.refl _) (fun _ _ => rfl)
      (fun g hg => ?_) ?_⟩
  · have hguard : ¬ (ifFragValid (some t1) = ERR_OCCUR ∨ ifFragValid (some t2) = ERR_OCCUR) := by
      rintro (e | e)
      · exact ne_err_of_lt hdet1.bound e
      · exact ne_err_of_lt hdet2.bound e
    simp only [sieFreeJoin, if_neg hguard, getOutOfFreeList,
      getOutOfList_eq .free h hdet1.bound, hrun2, getOutOfList_eq .free h2 hdet2.bound, hrun4]
    rfl
  · simp [SieHeap.setSize, hdet2.ne hg, hdetf'.ne hg]
  · simpa [SieHeap.extent, SieHeap.setSize, hne2.symm, hsize4] using hp4.tiles

end

end

/-! ### Freeing -/

/-- Every list walk of the driver is a search of the list. -/
theorem findFragByAddr_eq (addr : BitVec 32) (mode : Mode) (hl : IsList h.next h.pre hd l)
    (hlen : l.length ≤ TOTAL_RAM_FRAG) :
    findFragByAddr h addr hd mode =
      some (if addr = 0 then none else l.find? (isTrue h addr mode)) := by
  unfold findFragByAddr
  by_cases ha : addr = 0
  · rw [if_pos ha, if_pos ha]
  · rw [if_neg ha, if_neg ha]
    exact walk_eq_find? hl.seg (Nat.lt_succ_of_le hlen)

/-- The neighbours `sie_free` finds are the neighbours in memory. -/
theorem Pending.meets (hp : Pending A S h pool free used live f)
    (hpm : p = f ∨ p ∈ free) (hqm : q = f ∨ q ∈ free)
    (hadj : h.ramStart q = h.ramStart p + h.ramSize p) : Meets h p q := by
  have hbp := hp.extent_bounds (hpm.imp_right (mem_append_left used))
  have hbq := hp.extent_bounds (hqm.imp_right (mem_append_left used))
  have := congrArg BitVec.toNat hadj
  rw [BitVec.toNat_add] at this
  unfold Meets
  omega

/-- Whatever neighbours there are, joining leaves one free fragment in hand. -/
theorem Pending.join (hp : Pending A S h pool free used live f) (tmp1 tmp2 : Option Nat)
    (h1 : ∀ t ∈ tmp1, t ∈ free ∧ Meets h f t) (h2 : ∀ t ∈ tmp2, t ∈ free ∧ Meets h t f) :
    ∃ g h' pool' free', sieFreeJoin h f tmp1 tmp2 = (some g, h') ∧
      Pending A S h' pool' free' used live g := by
  cases tmp1 with
  | none =>
    cases tmp2 with
    | none => exact ⟨f, h, pool, free, rfl, hp⟩
    | some t2 =>
      obtain ⟨ht2, hm2⟩ := h2 t2 rfl
      exact ⟨t2, (hp.join_one ht2).2 hm2⟩
  | some t1 =>
    obtain ⟨ht1, hm1⟩ := h1 t1 rfl
    cases tmp2 with
    | none => exact ⟨f, (hp.join_one ht1).1 hm1⟩
    | some t2 =>
      obtain ⟨ht2, hm2⟩ := h2 t2 rfl
      have hpos : 0 < (h.ramSize f).toNat := hp.tiles.pos (h.extent f) (by simp)
      have hne : t1 ≠ t2 := by
        rintro rfl
        unfold Meets at hm1 hm2
        omega
      exact ⟨t2, hp.join_both ht1 ht2 hm1 hm2 hne⟩

theorem sieFree_spec (hi : HeapInv A S h pool free used live) (addr : BitVec 32) :
    ∃ rc h' pool' free' used', sieFree h addr = some (rc, h') ∧
      HeapInv A S h' pool' free' used'
        (if rc = NONE_ERR then live.eraseP (fun a => a.1 == addr) else live) := by
  have hlen := hi.reps.length_le
  simp only [length_append] at hlen
  have hfind := findFragByAddr_eq addr .atThisAddr hi.reps.usedList (by omega)
  unfold sieFree
  rw [hfind]
  simp only [bind_eq_bind, bind_some]
  cases hf : (if addr = 0 then none else used.find? (isTrue h addr .atThisAddr)) with
  | none => exact ⟨ERR_OCCUR, h, pool, free, used, rfl, hi⟩
  | some f =>
    have haddr : addr ≠ 0 := fun e => by simp [e] at hf
    rw [if_neg haddr] at hf
    have hstart : h.ramStart f = addr := by simpa [isTrue] using find?_some hf
    obtain ⟨used', hp⟩ := hi.take_used hf
    have hfb := hp.detached.bound
    set h1 := unlinked .used h f with hh1
    have hstart1 : h1.ramStart f = addr := hstart
    have hlen1 := hp.reps.length_le
    simp only [if_neg (ne_err_of_lt hfb), getOutOfUsedList, getOutOfList_eq .used h hfb]
    rw [← hh1, findFragByAddr_eq (addr + h1.ramSize f) .atThisAddr hp.reps.freeList (by omega),
      findFragByAddr_eq addr .beforeThisAddr hp.reps.freeList (by omega)]
    simp only [if_neg haddr, bind_some, show NONE_ERR ≠ ERR_OCCUR by decide, if_false]
    obtain ⟨g, h2, pool2, free2, hjoin, hp2⟩ := hp.join
      (if addr + h1.ramSize f = 0 then none
        else free.find? (isTrue h1 (addr + h1.ramSize f) .atThisAddr))
      (free.find? (isTrue h1 addr .beforeThisAddr))
      (fun t ht => by
        by_cases h0 : addr + h1.ramSize f = 0
        · simp [h0] at ht
        rw [if_neg h0] at ht
        have hadj := find?_some (mem_def.mp ht)
        have htm := mem_of_find?_eq_some ht
        refine ⟨htm, hp.meets (.inl rfl) (.inr htm) ?_⟩
        simpa [isTrue, hstart1] using hadj)
      (fun t ht => by
        have hadj := find?_some (mem_def.mp ht)
        have htm := mem_of_find?_eq_some ht
        refine ⟨htm, hp.meets (.inr htm) (.inl rfl) (Eq.symm ?_)⟩
        simpa [isTrue, hstart1] using hadj)
    obtain ⟨h3, hadd, hinv⟩ := hp2.add
    rw [hjoin]
    simp only [hadd, bind_some, show NONE_ERR ≠ ERR_OCCUR by decide, if_false]
    exact ⟨NONE_ERR, h3, _, _, _, rfl, by simpa using hinv⟩

/-! ### Allocating -/

/-- Clearing the low ten bits. -/
theorem and_not_1023 (x : BitVec 32) : (x &&& ~~~1023#32).toNat = x.toNat / 1024 * 1024 :=
  Mask.toNat_and_not_mask (k := 10) rfl

/-- The rounding does what it is for, up to the last multiple of 1024. -/
theorem assignedFor1024Byte_spec (hsz : sz.toNat ≤ 2 ^ 32 - 1024) :
    0 < (assignedFor1024Byte sz).toNat ∧ sz ≤ assignedFor1024Byte sz := by
  unfold assignedFor1024Byte
  by_cases h0 : sz = 0
  · rw [if_pos h0, h0]
    decide
  · have hne : sz.toNat ≠ 0 := fun e => h0 (BitVec.eq_of_toNat_eq e)
    rw [if_neg h0, BitVec.le_def, and_not_1023, BitVec.toNat_add,
      show (1023#32).toNat = 1023 from rfl]
    omega

/-- Beyond it the sum wraps and nothing is left. -/
theorem assignedFor1024Byte_wrap (hsz : 2 ^ 32 - 1024 < sz.toNat) :
    assignedFor1024Byte sz = 0 := by
  have h0 : sz ≠ 0 := by
    intro e
    simp [e] at hsz
  refine BitVec.eq_of_toNat_eq ?_
  rw [assignedFor1024Byte, if_neg h0, and_not_1023, BitVec.toNat_add,
    show (1023#32).toNat = 1023 from rfl, show (0 : BitVec 32).toNat = 0 from rfl]
  omega

theorem findFitFrag_eq (hr : Reps h pool free used) (size : BitVec 32) :
    findFitFrag h size = some (free.find? fun tmp => decide (size ≤ h.ramSize tmp)) := by
  have hlen := hr.length_le
  simp only [length_append] at hlen
  exact walk_eq_find? hr.freeList.seg (Nat.lt_succ_of_le (by omega))

theorem allocMemFrag_nil (hr : Reps h [] free used) : allocMemFrag h = (none, h) := by
  have : h.memFragFree = none := hr.poolList.head_eq
  simp [allocMemFrag, this]

/-- `h'` describes the first `size` bytes of the fragment `t` by `n` and the rest
by `t`, and everything else as `h` does. -/
structure Cut (h h' : SieHeap) (n t : Nat) (size : BitVec 32) : Prop where
  ramStart : h'.ramStart =
    Function.update (Function.update h.ramStart n (h.ramStart t)) t (h.ramStart t + size)
  ramSize : h'.ramSize = Function.update (Function.update h.ramSize n size) t (h.ramSize t - size)

section

variable {t : Nat}

section

variable (hi : HeapInv A S h (n :: pool) (l1 ++ t :: l2) used live)

include hi

theorem HeapInv.fresh_ne : n ≠ t := fun e => hi.reps.poolFree (mem_cons_self (a := n)) (by simp [e])

theorem HeapInv.fresh_detached : Detached pool (l1 ++ l2) used n := by
  refine ⟨(nodup_cons.mp hi.reps.poolList.nodup).1, fun e => ?_, fun e => ?_,
    hi.reps.bound n (by simp)⟩
  · refine hi.reps.poolFree (mem_cons_self (a := n)) ?_
    grind
  · exact hi.reps.poolUsed (mem_cons_self (a := n)) e

theorem HeapInv.fit_detached : Detached pool (l1 ++ l2) (n :: used) t := by
  refine ⟨fun e => hi.reps.poolFree (mem_cons_of_mem n e) (by simp),
    (nodup_cons.mp (nodup_middle.mp hi.reps.freeList.nodup)).1, ?_,
    hi.reps.bound t (by simp)⟩
  simp only [mem_cons, not_or]
  exact ⟨hi.fresh_ne.symm, fun e => hi.reps.freeUsed (by simp) e⟩

/-- The part of `sie_malloc` up to the disposal of the old fragment. -/
theorem HeapInv.malloc_cut (hsize : assignedFor1024Byte sz = size)
    (hfind : findFitFrag h size = some (some t)) :
    ∃ h', Cut h h' n t size ∧ Reps h' pool (l1 ++ l2) (n :: used) ∧
      sieMalloc h sz =
        if h'.ramSize t = 0 then
          (some (freeMemFrag h' (some t))).bind fun (rc, h) =>
            if rc = ERR_OCCUR then some (0, h) else some (h.ramStart n, h)
        else
          (addIntoFreeList h' (some t)).bind fun (rc, h) =>
            if rc = ERR_OCCUR then some (0, h) else some (h.ramStart n, h) := by
  have hnt := hi.fresh_ne
  have htb := hi.fit_detached.bound
  obtain ⟨h1, hrun1, hreps1, hstart1, hsize1⟩ := allocMemFrag_spec hi.reps
  set h2 := unlinked .free h1 t with hh2
  have hstart2 : h2.ramStart = h.ramStart := hstart1
  have hsize2 : h2.ramSize = h.ramSize := hsize1
  obtain ⟨h4, hrun4, hreps4, hstart4, hsize4⟩ :=
    addIntoUsedList_spec (h := (h2.setStart n (h2.ramStart t)).setSize n size) (f := n)
      (hreps1.unlinked_free.setStart.setSize) hi.fresh_detached
  refine ⟨(h4.setStart t (h4.ramStart t + size)).setSize t (h4.ramSize t - size), ⟨?_, ?_⟩,
    hreps4.setStart.setSize, ?_⟩
  · simp only [SieHeap.setSize, SieHeap.setStart, hstart4, hstart2]
    simp [Ne.symm hnt]
  · simp only [SieHeap.setSize, SieHeap.setStart, hsize4, hsize2]
    simp [Ne.symm hnt]
  · unfold sieMalloc
    simp only [hsize, hfind, bind_eq_bind, bind_some, hrun1, getOutOfFreeList,
      getOutOfList_eq .free h1 htb, ← hh2, hrun4, show NONE_ERR ≠ ERR_OCCUR by decide, if_false]
    rfl

theorem HeapInv.others_ne (hg : g ∈ l1 ++ l2 ++ used) : g ≠ n ∧ g ≠ t := by
  refine ⟨hi.fresh_detached.ne hg, hi.fit_detached.ne ?_⟩
  grind

/-- What a cut does to the tiling. -/
theorem HeapInv.cut_tiles (hc : Cut h h' n t size) (hAS : A.toNat + S.toNat ≤ 2 ^ 32)
    (hpos : 0 < size.toNat) (hfit : size ≤ h.ramSize t) :
    Tiles (if h'.ramSize t = 0 then (l1 ++ l2 ++ n :: used).map h'.extent
      else h'.extent t :: (l1 ++ l2 ++ n :: used).map h'.extent) (region A S) := by
  have hnt := hi.fresh_ne
  have hbt := hi.extent_bounds (g := t) (by simp)
  have hrest : (l1 ++ l2 ++ used).map h'.extent = (l1 ++ l2 ++ used).map h.extent := by
    refine map_congr_left fun g hg => ?_
    obtain ⟨hgn, hgt⟩ := hi.others_ne hg
    simp [SieHeap.extent, hc.ramStart, hc.ramSize, hgn, hgt]
  have hmid : ((l1 ++ l2 ++ n :: used).map h'.extent).Perm
      (h'.extent n :: (l1 ++ l2 ++ used).map h.extent) := by
    rw [← hrest, ← map_cons]
    exact perm_middle.map h'.extent
  have htiles : Tiles (h.extent t :: (l1 ++ l2 ++ used).map h.extent) (region A S) := by
    refine hi.tiles.perm ?_
    rw [← map_cons, append_assoc, append_assoc]
    exact perm_middle.map h.extent
  have hn : h'.extent n = ((h.ramStart t).toNat, size.toNat) := by
    simp [SieHeap.extent, hc.ramStart, hc.ramSize, hnt]
  have hle := BitVec.le_def.mp hfit
  have hsub : (h.ramSize t - size).toNat = (h.ramSize t).toNat - size.toNat :=
    BitVec.toNat_sub_of_le hfit
  have ht' : h'.ramSize t = h.ramSize t - size := by simp [hc.ramSize]
  by_cases h0 : h'.ramSize t = 0
  · -- The whole fragment is used up.
    rw [if_pos h0]
    have h0' : (h.ramSize t - size).toNat = 0 := by rw [← ht', h0]; rfl
    have hnt' : h'.extent n = h.extent t := by
      rw [hn]
      exact Prod.ext rfl (show size.toNat = (h.ramSize t).toNat by omega)
    rw [hnt'] at hmid
    exact htiles.perm hmid.symm
  · rw [if_neg h0]
    have h0' : (h.ramSize t - size).toNat ≠ 0 := fun e => h0 (ht'.trans (BitVec.eq_of_toNat_eq e))
    have het : h.extent t =
        ((h.ramStart t).toNat, size.toNat + ((h.ramSize t).toNat - size.toNat)) :=
      Prod.ext rfl (show (h.ramSize t).toNat = _ by omega)
    have hett : h'.extent t =
        ((h.ramStart t).toNat + size.toNat, (h.ramSize t).toNat - size.toNat) := by
      simp only [SieHeap.extent, hc.ramStart, hc.ramSize, Function.update_self, hsub]
      refine Prod.ext ?_ rfl
      simp only [BitVec.toNat_add]
      rw [Nat.mod_eq_of_lt (by omega)]
    rw [het] at htiles
    have hsplit := htiles.split hpos (by omega)
    rw [← hn, ← hett] at hsplit
    exact hsplit.perm ((List.Perm.swap _ _ _).trans ((hmid.symm).cons _))

/-- `sie_malloc` when a free fragment `t` fits and the descriptor `n` is at hand. -/
theorem HeapInv.malloc (hAS : A.toNat + S.toNat ≤ 2 ^ 32) (hsize : assignedFor1024Byte sz = size)
    (hfind : findFitFrag h size = some (some t)) (hfit : size ≤ h.ramSize t)
    (hpos : 0 < size.toNat) (hsz : sz ≤ size) :
    ∃ h' pool' free', sieMalloc h sz = some (h.ramStart t, h') ∧
      HeapInv A S h' pool' free' (n :: used) ((h.ramStart t, sz) :: live) := by
  obtain ⟨h', hc, hreps, hrun⟩ := hi.malloc_cut hsize hfind
  have htiles := hi.cut_tiles hc hAS hpos hfit
  have hnt := hi.fresh_ne
  have htotal : ∀ g < TOTAL_RAM_FRAG, g = t ∨ g ∈ pool ++ (l1 ++ l2) ++ (n :: used) := by
    intro g hg
    have := hi.total g hg
    grind
  have hsame : ∀ g ∈ l1 ++ l2 ++ used,
      h'.ramStart g = h.ramStart g ∧ h'.ramSize g = h.ramSize g := by
    intro g hg
    obtain ⟨hgn, hgt⟩ := hi.others_ne hg
    simp [hc.ramStart, hc.ramSize, hgn, hgt]
  have hsorted : (l1 ++ l2).Pairwise (sizeLe h') := by
    have hsub := (sublist_cons_self t l2).append_left l1
    refine (hi.sorted.sublist hsub).imp_of_mem fun {a b} ha hb hab => ?_
    unfold sizeLe at hab ⊢
    rwa [(hsame a (mem_append_left _ ha)).2, (hsame b (mem_append_left _ hb)).2]
  have hn : h'.ramStart n = h.ramStart t ∧ h'.ramSize n = size := by
    simp [hc.ramStart, hc.ramSize, hnt]
  have hans : List.Forall₂ (Answers h') (n :: used) ((h.ramStart t, sz) :: live) := by
    refine .cons ⟨hn.1, by rw [hn.2]; exact hsz⟩ (answers_congr hi.answers ?_ ?_)
    · exact fun g hg => (hsame g (mem_append_right _ hg)).1
    · exact fun g hg => (hsame g (mem_append_right _ hg)).2
  rw [hrun]
  by_cases h0 : h'.ramSize t = 0
  · rw [if_pos h0] at htiles ⊢
    obtain ⟨h7, hrun7, hreps7, hstart7, hsize7⟩ := freeMemFrag_spec hreps hi.fit_detached
    refine ⟨h7, t :: pool, l1 ++ l2, ?_, hreps7, ?_, ?_, ?_, ?_⟩
    · simp [hrun7, show NONE_ERR ≠ ERR_OCCUR by decide, hstart7, hn.1]
    · intro g hg
      have := htotal g hg
      grind
    · have : h7.extent = h'.extent := by
        funext g
        simp [SieHeap.extent, hstart7, hsize7]
      rwa [this]
    · have : sizeLe h7 = sizeLe h' := by
        funext g g'
        simp [sizeLe, hsize7]
      rwa [this]
    · have : Answers h7 = Answers h' := by
        funext g a
        simp [Answers, hstart7, hsize7]
      rwa [this]
  · rw [if_neg h0] at htiles ⊢
    have hp : Pending A S h' pool (l1 ++ l2) (n :: used) ((h.ramStart t, sz) :: live) t :=
      ⟨hreps, hi.fit_detached, htotal, htiles, hsorted, hans⟩
    obtain ⟨h7, hrun7, hinv⟩ := hp.add
    refine ⟨h7, pool, _, ?_, hinv⟩
    -- The pointer returned is read back from the descriptor.
    have hback : h7.ramStart n = h.ramStart t := (forall₂_cons.mp hinv.answers).1.1
    simp [hrun7, show NONE_ERR ≠ ERR_OCCUR by decide, hback]

end

end

/-- A request that the rounding can serve, or one that finds nothing to hand out. -/
def MallocOk (h : SieHeap) (sz : BitVec 32) : Prop :=
  sz.toNat ≤ 2 ^ 32 - 1024 ∨ h.free = none ∨ h.memFragFree = none

theorem sieMalloc_spec (hi : HeapInv A S h pool free used live) (hA : A ≠ 0)
    (hAS : A.toNat + S.toNat ≤ 2 ^ 32) (hok : MallocOk h sz) :
    ∃ p h' pool' free' used', sieMalloc h sz = some (p, h') ∧
      HeapInv A S h' pool' free' used' (if p = 0 then live else (p, sz) :: live) := by
  have hfind := findFitFrag_eq hi.reps (assignedFor1024Byte sz)
  cases hf : free.find? (fun tmp => decide (assignedFor1024Byte sz ≤ h.ramSize tmp)) with
  | none =>
    refine ⟨0, h, pool, free, used, ?_, hi⟩
    simp [sieMalloc, hfind, hf]
  | some t =>
    cases pool with
    | nil =>
      refine ⟨0, h, [], free, used, ?_, hi⟩
      simp [sieMalloc, hfind, hf, allocMemFrag_nil hi.reps]
    | cons n pool =>
      have hsz : sz.toNat ≤ 2 ^ 32 - 1024 := by
        rcases hok with hok | hok | hok
        · exact hok
        · have : free = [] := (hok ▸ hi.reps.freeList).eq_nil
          simp [this] at hf
        · have := (hok ▸ hi.reps.poolList).eq_nil
          simp at this
      obtain ⟨hpos, hle⟩ := assignedFor1024Byte_spec hsz
      have ht := mem_of_find?_eq_some hf
      have hfit : assignedFor1024Byte sz ≤ h.ramSize t := by simpa using find?_some hf
      obtain ⟨l1, l2, rfl⟩ := append_of_mem ht
      obtain ⟨h', pool', free', hrun, hinv⟩ :=
        hi.malloc hAS rfl (hf ▸ hfind) hfit hpos hle
      have hne : h.ramStart t ≠ 0 := by
        have hb := hi.extent_bounds (g := t) (by simp)
        have hA' : A.toNat ≠ 0 := fun e => hA (BitVec.eq_of_toNat_eq e)
        intro e
        rw [e] at hb
        simp at hb
        omega
      exact ⟨_, h', pool', free', _, hrun, by rw [if_neg hne]; exact hinv⟩

end SilanKernel.Dlna
