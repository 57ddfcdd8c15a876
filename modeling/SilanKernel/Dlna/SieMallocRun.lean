import SilanKernel.Data.Run
import SilanKernel.Dlna.SieMallocSound

/-!
# SilanKernel.Dlna.SieMallocRun

Whole runs of the DLNA heap: `init_sie_heap`, then any sequence of `sie_malloc`
and `sie_free` calls with any arguments.
-/

namespace SilanKernel.Dlna

open DList List Run Function SieHeap

/-! ### Initialisation -/

/-- The loop of `init_mem_frag_pool` extends the chain of the first `tmp + 1`
descriptors by `n` more. -/
theorem initMemFragPoolLoop_seg (n : Nat) : ∀ (tmp : Nat) (h : SieHeap),
    Seg h.next h.pre none (some 0) (range (tmp + 1)) (h.next tmp) →
    Seg (initMemFragPoolLoop n tmp h).next (initMemFragPoolLoop n tmp h).pre none (some 0)
        (range (tmp + n + 1)) ((initMemFragPoolLoop n tmp h).next (tmp + n)) ∧
      (0 < n → (initMemFragPoolLoop n tmp h).next (tmp + n) = none) ∧
      (initMemFragPoolLoop n tmp h).memFragFree = h.memFragFree := by
  induction n with
  | zero => exact fun tmp h hs => ⟨hs, by simp, rfl⟩
  | succ n ih =>
    intro tmp h hs
    set h' := ((h.setNext tmp (some (tmp + 1))).setPre (tmp + 1) (some tmp)).setNext
      (tmp + 1) none with hh'
    have hseg : Seg h'.next h'.pre none (some 0) (range (tmp + 1 + 1))
        (h'.next (tmp + 1)) := by
      rw [range_succ, seg_append]
      refine ⟨some (tmp + 1), ?_, rfl, ?_, ?_⟩
      · have : Seg h'.next h'.pre none
            (if range (tmp + 1) = [] then some (tmp + 1) else some 0)
            (range (tmp + 1)) (some (tmp + 1)) := hs.set_after nodup_range
          (fun q hq => by
            have hq' : q ≠ tmp + 1 := by have := mem_range.mp hq; omega
            rw [getLast?_range, if_neg (Nat.succ_ne_zero tmp), Nat.add_sub_cancel]
            by_cases hqt : q = tmp
            · simp [hh', setNext, setPre, hqt]
            · simp [hh', setNext, setPre, hqt, Ne.symm hqt, hq'])
          (fun q hq => by
            have hq' : q ≠ tmp + 1 := by have := mem_range.mp hq; omega
            simp [hh', setNext, setPre, hq'])
        simpa [range_succ] using this
      · simp [hh', setNext, setPre, lastOr_none, getLast?_range]
      · rfl
    obtain ⟨h1, h2, h3⟩ := ih (tmp + 1) h' hseg
    have hstep : initMemFragPoolLoop (n + 1) tmp h = initMemFragPoolLoop n (tmp + 1) h' := rfl
    have hadd : tmp + 1 + n = tmp + (n + 1) := by omega
    rw [hadd] at h1 h2
    rw [hstep]
    refine ⟨h1, fun _ => ?_, h3⟩
    rcases Nat.eq_zero_or_pos n with rfl | hn
    · simp [initMemFragPoolLoop, hh', setNext]
    · exact h2 hn

/-- The pool holds all descriptors, in order. -/
theorem initMemFragPool_list (h : SieHeap) :
    IsList (initMemFragPool h).next (initMemFragPool h).pre (initMemFragPool h).memFragFree
      (range TOTAL_RAM_FRAG) := by
  set h0 := ({ h with memFragFree := some 0 } : SieHeap).setPre 0 none with hh0
  have hs : Seg h0.next h0.pre none (some 0) (range (0 + 1)) (h0.next 0) := by
    simp [hh0, setPre]
  obtain ⟨h1, h2, h3⟩ := initMemFragPoolLoop_seg (TOTAL_RAM_FRAG - 1) 0 h0 hs
  refine ⟨?_, nodup_range⟩
  have hnone := h2 (by decide)
  rw [hnone] at h1
  have hfree : (initMemFragPool h).memFragFree = some 0 := h3
  rw [hfree]
  exact h1

/-- Setting up the first fragment, once descriptor 0 has been taken from the pool. -/
theorem initSieHeap_eq (A S : BitVec 32) (hh0 : initMemFragPool h = h0)
    (hal : allocMemFrag h0 = (some 0, h1)) :
    initSieHeap h A S = (NONE_ERR, { h1 with
      ramStart := update h1.ramStart 0 A
      ramSize := update h1.ramSize 0 S
      next := update h1.next 0 none
      pre := update h1.pre 0 none
      free := some 0
      used := none }) := by
  unfold initSieHeap
  rw [hh0]
  simp only [hal]
  rfl

theorem firstFrag_heapInv {h h' : SieHeap} {pool : List Nat} (hS : S ≠ 0)
    (hpool : IsList h.next h.pre h.memFragFree pool)
    (hmem : ∀ f, f ∈ 0 :: pool ↔ f < TOTAL_RAM_FRAG) (h0 : 0 ∉ pool)
    (hh' : h' = { h with
      ramStart := update h.ramStart 0 A
      ramSize := update h.ramSize 0 S
      next := update h.next 0 none
      pre := update h.pre 0 none
      free := some 0
      used := none }) :
    HeapInv A S h' pool [0] [] [] := by
  refine ⟨⟨?_, ?_, ?_, ?_, ?_, ?_, ?_⟩, ?_, ?_, ?_, ?_⟩
  · rw [hh']
    refine hpool.frame (fun q hq => ?_) fun q hq => ?_
    all_goals
      have hq0 : q ≠ 0 := fun e => h0 (e ▸ hq)
      simp [hq0]
  · rw [hh']
    exact ⟨by simp, by simp⟩
  · rw [hh']
    exact isList_nil
  · simpa using h0
  · simp
  · simp
  · intro f hf
    rw [← hmem f]
    simp only [append_nil, mem_append, mem_cons] at hf ⊢
    exact hf.symm.imp (fun hf => hf.resolve_right (by simp)) id
  · intro f hf
    have hf := (hmem f).mpr hf
    simp only [append_nil, mem_append, mem_cons] at hf ⊢
    exact hf.symm.imp id .inl
  · have hpos : 0 < S.toNat := Nat.pos_of_ne_zero fun e => hS (BitVec.eq_of_toNat_eq e)
    have he : h'.extent 0 = (A.toNat, S.toNat) := by simp [extent, hh']
    rw [append_nil, map_singleton, he]
    exact Tiles.single hpos
  · exact pairwise_singleton _ _
  · exact .nil

/-- `init_sie_heap` over a non-empty region leaves one free fragment, the whole
region, whatever the driver's data held before. -/
theorem initSieHeap_spec (h : SieHeap) (A : BitVec 32) (hS : S ≠ 0) :
    ∃ h' pool, initSieHeap h A S = (NONE_ERR, h') ∧ HeapInv A S h' pool [0] [] [] := by
  obtain ⟨pool, hrange⟩ : ∃ pool, range TOTAL_RAM_FRAG = 0 :: pool :=
    ⟨_, range_succ_eq_map⟩
  have hlist := initMemFragPool_list h
  rw [hrange] at hlist
  refine ⟨_, pool, initSieHeap_eq A S rfl (allocMemFrag_eq hlist.head_eq),
    firstFrag_heapInv hS (popped_isList hlist) (fun f => ?_) (nodup_cons.mp hlist.nodup).1 rfl⟩
  rw [← hrange, mem_range]

/-! ### Runs -/

/-- A call to the allocator. -/
inductive Call
  | malloc (sz : BitVec 32)
  | free (addr : BitVec 32)
  deriving DecidableEq

/-- The heap together with the allocations that have been returned and not yet
freed. -/
structure RunState where
  heap : SieHeap
  live : List Alloc

/-- One call. A pointer returned by `sie_malloc` becomes live; one that `sie_free`
accepts ceases to be. -/
def step (s : RunState) : Call → Option RunState
  | .malloc sz =>
    (sieMalloc s.heap sz).map fun (p, h) =>
      { heap := h, live := if p = 0 then s.live else (p, sz) :: s.live }
  | .free addr =>
    (sieFree s.heap addr).map fun (rc, h) =>
      { heap := h
        live := if rc = NONE_ERR then s.live.eraseP (fun a => a.1 == addr) else s.live }

/-- A `sie_malloc` is one the rounding can serve, or is made when there is no free
fragment or no descriptor left. -/
def CallOk (s : RunState) (c : Call) : Prop := ∀ sz, c = .malloc sz → MallocOk s.heap sz

/-- What the heap promises in a state. -/
def HeapOk (A S : BitVec 32) (s : RunState) : Prop :=
  ∃ pool free used, HeapInv A S s.heap pool free used s.live

variable {A S : BitVec 32}

/-- The first fragment of a list is not empty. -/
theorem HeapOk.head_ne (hs : HeapOk A S s) (hf : s.heap.free = some f ∨ s.heap.used = some f) :
    s.heap.ramSize f ≠ 0 := by
  obtain ⟨pool, free, used, hi⟩ := hs
  have hmem : f ∈ free ++ used := by
    rcases hf with hf | hf
    · exact mem_append_left _ (mem_of_head? (hi.reps.freeList.head_eq ▸ hf))
    · exact mem_append_right _ (mem_of_head? (hi.reps.usedList.head_eq ▸ hf))
  have hpos : 0 < (s.heap.ramSize f).toNat := hi.tiles.pos (s.heap.extent f) (mem_map_of_mem hmem)
  intro e
  simp [e] at hpos

theorem step_heapOk (hs : HeapOk A S s) (hA : A ≠ 0) (hAS : A.toNat + S.toNat ≤ 2 ^ 32)
    (hc : CallOk s c) : ∃ s', step s c = some s' ∧ HeapOk A S s' := by
  obtain ⟨pool, free, used, hi⟩ := hs
  cases c with
  | malloc sz =>
    obtain ⟨p, h', pool', free', used', hrun, hinv⟩ := sieMalloc_spec hi hA hAS (hc sz rfl)
    exact ⟨_, by rw [step, hrun]; rfl, pool', free', used', hinv⟩
  | free addr =>
    obtain ⟨rc, h', pool', free', used', hrun, hinv⟩ := sieFree_spec hi addr
    exact ⟨_, by rw [step, hrun]; rfl, pool', free', used', hinv⟩

/-- A request whose rounding wraps, made while there is a fragment to cut and a
descriptor to describe the piece, puts a fragment of no bytes on the used list. -/
theorem HeapOk.malloc_wrap (hs : HeapOk A S s) (hbad : ¬ MallocOk s.heap sz)
    (hstep : step s (.malloc sz) = some s') :
    ¬ HeapOk A S s' := by
  obtain ⟨pool, free, used, hi⟩ := hs
  unfold MallocOk at hbad
  push Not at hbad
  obtain ⟨hsz, hfree, hpool⟩ := hbad
  rw [hi.reps.freeList.head_eq] at hfree
  rw [hi.reps.poolList.head_eq] at hpool
  obtain _ | ⟨t, free⟩ := free
  · exact absurd rfl hfree
  obtain _ | ⟨n, pool⟩ := pool
  · exact absurd rfl hpool
  have hzero := assignedFor1024Byte_wrap hsz
  have hfind : findFitFrag s.heap 0 = some (some t) := by
    rw [findFitFrag_eq hi.reps]
    simp [BitVec.le_def]
  have hi' : HeapInv A S s.heap (n :: pool) ([] ++ t :: free) used s.live := hi
  obtain ⟨h', hcut, hreps, hrun⟩ := hi'.malloc_cut hzero hfind
  have hn : h'.ramSize n = 0 := by simp [hcut.ramSize, hi'.fresh_ne]
  have ht : h'.ramSize t ≠ 0 := by
    have := HeapOk.head_ne ⟨_, _, _, hi⟩ (.inl hi.reps.freeList.head_eq)
    simpa [hcut.ramSize] using this
  obtain ⟨h7, hadd, hreps7, -, hsize7⟩ := addIntoFreeList_spec hreps hi'.fit_detached
  rw [if_neg ht, hadd] at hrun
  have hs' : s'.heap = h7 := by
    rw [step, hrun] at hstep
    exact (congrArg RunState.heap (Option.some.inj hstep)).symm
  intro hok
  refine hok.head_ne (f := n) (.inr ?_) ?_
  · rw [hs']
    exact hreps7.usedList.head_eq
  · rw [hs', hsize7, hn]

/-- From a good state a run is good throughout exactly if all its calls are. -/
theorem always_heapOk_iff (hA : A ≠ 0) (hAS : A.toNat + S.toNat ≤ 2 ^ 32) (hs : HeapOk A S s)
    (cs : List Call) :
    Always step (HeapOk A S) s cs ↔ Along step CallOk s cs := by
  constructor
  · refine along_of_always fun s c s' hs hstep hs' sz hc => ?_
    by_contra hbad
    exact hs.malloc_wrap hbad (hc ▸ hstep) hs'
  · exact always_of_along (fun s c hs hc => step_heapOk hs hA hAS hc) hs

/-- The state right after `init_sie_heap` over `[A, A + S)`, the driver's data
having held anything before. -/
def initState (h : SieHeap) (A S : BitVec 32) : RunState :=
  { heap := (initSieHeap h A S).2, live := [] }

/-- Over a region that starts at a non-null address and does not wrap, the heap
keeps its promise throughout a run exactly if the region is not empty and no
request is rounded to zero. -/
theorem initState_always_heapOk_iff (h : SieHeap) {A S : BitVec 32} (hA : A ≠ 0)
    (hAS : A.toNat + S.toNat ≤ 2 ^ 32) (cs : List Call) :
    Always step (HeapOk A S) (initState h A S) cs ↔
      S ≠ 0 ∧ Along step CallOk (initState h A S) cs := by
  by_cases hS : S = 0
  · subst hS
    refine ⟨fun halways => ?_, fun hok => absurd rfl hok.1⟩
    have hrun := initSieHeap_eq A 0 rfl (allocMemFrag_eq (initMemFragPool_list h).head_eq)
    refine absurd ?_ (halways.head.head_ne (f := 0) (.inl ?_))
    · rw [initState, hrun]
      simp
    · rw [initState, hrun]
  · obtain ⟨h', pool, hrun, hinv⟩ := initSieHeap_spec h A hS
    have hs : HeapOk A S (initState h A S) := by
      refine ⟨pool, [0], [], ?_⟩
      simpa [initState, hrun] using hinv
    rw [always_heapOk_iff hA hAS hs]
    exact ⟨fun hok => ⟨hS, hok⟩, fun hok => hok.2⟩

/-- The driver's data as the kernel image holds it, all zero. -/
def bss : SieHeap := ⟨fun _ => 0, fun _ => 0, fun _ => none, fun _ => none, none, none, none⟩

theorem initState_always_heapOk_malloc_free :
    Always step (HeapOk 0x1000 0x1000) (initState bss 0x1000 0x1000) [.malloc 1, .free 0x1000] := by
  refine (initState_always_heapOk_iff bss (by decide) (by decide) _).mpr ⟨by decide, ?_⟩
  refine ⟨fun sz hc => .inl ?_, fun _ _ => ⟨fun sz hc => absurd hc (by simp), fun _ _ => trivial⟩⟩
  cases hc
  decide

set_option maxRecDepth 4000 in
/-- A request of `0xFFFFFFFF` bytes on a fresh heap of 4096 bytes is rounded to
zero and succeeds: descriptor 1 goes on the used list with no bytes. -/
theorem malloc_all_ones_not_heapOk :
    ∃ s', step (initState bss 0x1000 0x1000) (.malloc 0xFFFFFFFF) = some s' ∧
      s'.heap.used = some 1 ∧ s'.heap.ramSize 1 = 0 ∧ s'.live = [(0x1000, 0xFFFFFFFF)] ∧
      ¬ HeapOk 0x1000 0x1000 s' :=
  ⟨_, rfl, rfl, rfl, rfl, fun hok => hok.head_ne (f := 1) (.inr rfl) rfl⟩

end SilanKernel.Dlna
