import SilanKernel.Mm.VmaRep

/-!
# SilanKernel.Mm.VmaMergeFail

**A merge that fails.** When `vma_merge` returns NULL its caller goes on with the map it knows.

`vma_adjust` gives up before it changes anything if the VMA that grows cannot take over the
`anon_vma` of the other one. But where it swallows two VMAs (case 6 of mprotect) it does so in two
passes, and the second may give up when the first is done: the first neighbour is unlinked and freed
by then. The main result says that this is the only way a failed merge leaves a trace.
-/

namespace SilanKernel.Mmap

open List Option Prod Nat Function

variable {mm mm' mm₁ : Mm} {l A B : List (Ptr × Area)} {p n q : Ptr} {a b c : Area}
  {vs e addr ve : Nat} {f : Flags} {anon file prev : Option Ptr} {o pgoff : BitVec 32} {err : Int}
  {x : Ptr × Area}

/-- The VMAs, their extents and offsets, the list and the count are the same. -/
structure SameMap (mm mm' : Mm) : Prop where
  area : mm'.area = mm.area
  vmNext : mm'.vmNext = mm.vmNext
  vmPrev : mm'.vmPrev = mm.vmPrev
  mmap : mm'.mmap = mm.mmap
  mapCount : mm'.mapCount = mm.mapCount

theorem SameMap.refl (mm : Mm) : SameMap mm mm := ⟨rfl, rfl, rfl, rfl, rfl⟩

theorem sameMap_importAnonVma : SameMap mm (importAnonVma mm p q).1 := by
  have h : SameMap mm (anonVmaClone mm p q).1 := by
    rw [anonVmaClone]
    split
    · exact SameMap.refl mm
    · split <;> exact ⟨rfl, rfl, rfl, rfl, rfl⟩
  rw [importAnonVma]
  split
  · dsimp only
    split
    · exact h
    · exact ⟨h.area, h.vmNext, h.vmPrev, h.mmap, h.mapCount⟩
  · exact SameMap.refl mm

/-! ### Taking over an `anon_vma` -/

/-- `vma_adjust` has to clone the `anon_vma` of `q` for `p`, and the clone fails. -/
structure CloneFails (mm : Mm) (p q : Ptr) : Prop where
  importer : mm.anonVma p = none
  exporter : mm.anonVma q ≠ none
  chain : mm.anonChain q ≠ []
  clone : mm.clones.headD 0 ≠ 0

/-- Nothing is taken over unless the one VMA has an `anon_vma` and the other has none. -/
theorem importAnonVma_idle (h : ¬ (mm.anonVma q ≠ none ∧ mm.anonVma p = none)) :
    importAnonVma mm p q = (mm, 0) := by
  rw [importAnonVma, if_neg]
  rw [Bool.and_eq_true, isSome_iff_ne_none, isNone_iff_eq_none]
  exact h

theorem importAnonVma_clone (hq : mm.anonVma q ≠ none) (hp : mm.anonVma p = none) :
    importAnonVma mm p q =
      if (anonVmaClone mm p q).2 ≠ 0 then ((anonVmaClone mm p q).1, -ENOMEM)
      else ({ (anonVmaClone mm p q).1 with
        anonVma := update (anonVmaClone mm p q).1.anonVma p ((anonVmaClone mm p q).1.anonVma q) },
        0) := by
  rw [importAnonVma, if_pos]
  rw [Bool.and_eq_true, isSome_iff_ne_none, isNone_iff_eq_none]
  exact ⟨hq, hp⟩

theorem anonVmaClone_fails_iff :
    (anonVmaClone mm p q).2 ≠ 0 ↔ mm.anonChain q ≠ [] ∧ mm.clones.headD 0 ≠ 0 := by
  rw [anonVmaClone]
  by_cases hchain : mm.anonChain q = []
  · rw [if_pos hchain]
    exact iff_of_false (fun h => h rfl) fun h => h.1 hchain
  rw [if_neg hchain]
  by_cases hclone : mm.clones.headD 0 = 0
  · rw [if_pos hclone]
    exact iff_of_false (fun h => h rfl) fun h => h.2 hclone
  · rw [if_neg hclone]
    exact iff_of_true (by decide : -ENOMEM ≠ 0) ⟨hchain, hclone⟩

theorem importAnonVma_fails_iff : (importAnonVma mm p q).2 ≠ 0 ↔ CloneFails mm p q := by
  by_cases h : mm.anonVma q ≠ none ∧ mm.anonVma p = none
  · rw [importAnonVma_clone h.1 h.2]
    by_cases hclone : (anonVmaClone mm p q).2 ≠ 0
    · rw [if_pos hclone]
      obtain ⟨hchain, hfail⟩ := anonVmaClone_fails_iff.mp hclone
      exact iff_of_true (by decide : -ENOMEM ≠ 0) ⟨h.2, h.1, hchain, hfail⟩
    · rw [if_neg hclone]
      exact iff_of_false (fun h => h rfl) fun hf =>
        hclone (anonVmaClone_fails_iff.mpr ⟨hf.chain, hf.clone⟩)
  · rw [importAnonVma_idle h]
    exact iff_of_false (fun h => h rfl) fun hf => h ⟨hf.exporter, hf.importer⟩

/-- A VMA that still has no `anon_vma` had none to take over. -/
theorem importAnonVma_none (hok : (importAnonVma mm p n).2 = 0)
    (h : (importAnonVma mm p n).1.anonVma p = none) :
    (importAnonVma mm p n).1 = mm ∧ mm.anonVma n = none := by
  by_cases hneeds : mm.anonVma n ≠ none ∧ mm.anonVma p = none
  · rw [importAnonVma_clone hneeds.1 hneeds.2] at h hok
    by_cases hclone : (anonVmaClone mm p n).2 ≠ 0
    · rw [if_pos hclone] at hok
      exact absurd hok (by decide : -ENOMEM ≠ 0)
    rw [if_neg hclone] at h
    have hanon : (anonVmaClone mm p n).1.anonVma = mm.anonVma := by
      rw [anonVmaClone]
      split
      · rfl
      · split <;> rfl
    dsimp only at h
    rw [update_self, hanon] at h
    exact absurd h hneeds.1
  · rw [importAnonVma_idle hneeds] at h ⊢
    exact ⟨rfl, by_contra fun hn => hneeds ⟨hn, h⟩⟩

/-! ### The passes -/

theorem vmaUnlink_fields (h : vmaUnlink mm n p = some mm') :
    mm'.vmNext p = mm.vmNext n ∧ mm'.mapCount = mm.mapCount ∧ mm'.anonVma = mm.anonVma ∧
      mm'.anonChain = mm.anonChain ∧ mm'.clones = mm.clones := by
  obtain ⟨next, hnext, hrest⟩ := bind_eq_some_iff.mp h
  obtain ⟨mm₁, h1, hrest1⟩ := bind_eq_some_iff.mp hrest
  obtain ⟨mm2, h2, hrest2⟩ := bind_eq_some_iff.mp hrest1
  obtain ⟨t, -, hrest3⟩ := bind_eq_some_iff.mp hrest2
  obtain ⟨-, -, hnext⟩ := map_eq_some_iff.mp hnext
  obtain ⟨-, -, hmm1⟩ := map_eq_some_iff.mp h1
  have hmm' := some.inj hrest3
  subst hnext hmm1 hmm'
  cases hv : mm.vmNext n with
  | none =>
    rw [hv] at h2
    obtain rfl := some.inj h2
    exact ⟨update_self .., rfl, rfl, rfl, rfl⟩
  | some x =>
    rw [hv] at h2
    obtain ⟨-, -, rfl⟩ := map_eq_some_iff.mp h2
    exact ⟨update_self .., rfl, rfl, rfl, rfl⟩

/-- What a pass that goes through leaves: one VMA less, the list goes on behind it, and the reverse
map is that after the `anon_vma` was taken over. -/
structure Passed (mm : Mm) (p n : Ptr) (mm₁ : Mm) : Prop where
  next : mm₁.vmNext p = mm.vmNext n
  mapCount : mm₁.mapCount = mm.mapCount - 1
  anonVma : mm₁.anonVma = (importAnonVma mm p n).1.anonVma
  anonChain : mm₁.anonChain = (importAnonVma mm p n).1.anonChain
  clones : mm₁.clones = (importAnonVma mm p n).1.clones

/-- **One pass.** It fails before it has changed the map, or it goes through; beyond the end of the
VMA it has removed there is a second one. -/
theorem vmaAdjustRemove_cases (h : vmaAdjustRemove (k + 1) mm p vs ve pgoff n = some (mm', err)) :
    (err ≠ 0 ∧ CloneFails mm p n ∧ SameMap mm mm') ∨
      (¬ CloneFails mm p n ∧ ∃ b mm₁, mm.area n = some b ∧ Passed mm p n mm₁ ∧
        ((¬ b.vmEnd < ve ∧ err = 0) ∨
          (b.vmEnd < ve ∧ ∃ q, mm₁.vmNext p = some q ∧
            vmaAdjustRemove k mm₁ p vs b.vmEnd pgoff q = some (mm', err)))) := by
  rw [vmaAdjustRemove] at h
  obtain ⟨b, hb, h⟩ := bind_eq_some_iff.mp h
  have hsame : SameMap mm (importAnonVma mm p n).1 := sameMap_importAnonVma
  have hiff := @importAnonVma_fails_iff mm p n
  have hpassed (mm₁ : Mm) (hnext : mm₁.vmNext p = mm.vmNext n)
      (hcount : mm₁.mapCount = mm.mapCount - 1) :=
    Passed.mk (n := n) hnext hcount
  rcases himport : importAnonVma mm p n with ⟨mm0, err0⟩
  rw [himport] at h hsame hiff hpassed
  dsimp only at h
  by_cases hfail : err0 ≠ 0
  · rw [if_pos hfail] at h
    obtain ⟨rfl, rfl⟩ := mk.inj (some.inj h)
    exact .inl ⟨hfail, hiff.mp hfail, hsame⟩
  rw [if_neg hfail] at h
  refine .inr ⟨mt hiff.mpr hfail, b, ?_⟩
  obtain ⟨mm2, h2, hunlink⟩ := bind_eq_some_iff.mp h
  obtain ⟨mm3, h3, hrest⟩ := bind_eq_some_iff.mp hunlink
  obtain ⟨_, -, hset⟩ := bind_eq_some_iff.mp h2
  obtain rfl := some.inj hset
  obtain ⟨hnext, hcount, hanon, hchain, hclones⟩ := vmaUnlink_fields h3
  refine ⟨_, hb, hpassed ({ mm3 with mapCount := mm3.mapCount - 1 }.free n)
    (hnext.trans (congrFun hsame.vmNext n)) (congrArg (· - 1) (hcount.trans hsame.mapCount)) hanon
    hchain hclones, ?_⟩
  by_cases hend : ve > b.vmEnd
  · rw [if_pos hend] at hrest
    obtain ⟨next, hn, hagain⟩ := bind_eq_some_iff.mp hrest
    obtain ⟨_, -, hq⟩ := map_eq_some_iff.mp hn
    cases next with
    | none => exact nomatch hagain
    | some q => exact .inr ⟨hend, q, hq, hagain⟩
  · rw [if_neg hend] at hrest
    exact .inl ⟨hend, (mk.inj (some.inj hrest)).2.symm⟩

/-- The second pass of `vma_adjust` for `p` fails: the range goes beyond the VMA `n` after `p`,
neither has an `anon_vma`, and that of the VMA `q` after them cannot be cloned. -/
structure FailsSecond (mm : Mm) (p : Ptr) (ve : Nat) (n q : Ptr) (b : Area) :
    Prop extends CloneFails mm p q where
  next : mm.vmNext p = some n
  area : mm.area n = some b
  beyond : b.vmEnd < ve
  after : mm.vmNext n = some q
  none : mm.anonVma n = none

/-- A second pass that fails has lost a VMA; one that does not get that far has not. -/
theorem vmaAdjustRemove_sameMap_iff (hnext : mm.vmNext p = some n)
    (h : vmaAdjustRemove 2 mm p vs ve pgoff n = some (mm', err)) (herr : err ≠ 0) :
    SameMap mm mm' ↔ ¬ ∃ n q b, FailsSecond mm p ve n q b := by
  rcases vmaAdjustRemove_cases h with ⟨-, hclone, hsame⟩ | ⟨hnot, b, mm₁, hb, hpassed, hrest⟩
  · refine iff_of_true hsame fun ⟨n', q, b, hf⟩ => hclone.exporter ?_
    rw [some.inj (hnext.symm.trans hf.next)]
    exact hf.none
  rcases hrest with ⟨-, hzero⟩ | ⟨hend, q, hq, hsecond⟩
  · exact absurd hzero herr
  have hok : (importAnonVma mm p n).2 = 0 := by_contra (mt importAnonVma_fails_iff.mp hnot)
  rcases vmaAdjustRemove_cases hsecond with ⟨-, hclone, hsame⟩ | ⟨-, c, mm2, -, -, hdone⟩
  · have hanon : (importAnonVma mm p n).1.anonVma p = none := hpassed.anonVma ▸ hclone.importer
    obtain ⟨hidle, hn⟩ := importAnonVma_none hok hanon
    have hclone' : CloneFails mm p q :=
      ⟨hidle ▸ hanon, by rw [← hidle, ← hpassed.anonVma]; exact hclone.exporter,
        by rw [← hidle, ← hpassed.anonChain]; exact hclone.chain,
        by rw [← hidle, ← hpassed.clones]; exact hclone.clone⟩
    refine iff_of_false (fun hmap => ?_) fun hnone =>
      hnone ⟨n, q, b, ⟨hclone', hnext, hb, hend, hpassed.next.symm.trans hq, hn⟩⟩
    have hcount := hsame.mapCount.symm.trans hmap.mapCount
    rw [hpassed.mapCount] at hcount
    omega
  · rcases hdone with ⟨-, hzero⟩ | ⟨-, x, -, hthird⟩
    · exact absurd hzero herr
    · exact nomatch hthird

/-- Moving a boundary fails before anything has changed. -/
theorem vmaAdjustShift_sameMap
    (h : vmaAdjustShift mm p vs ve pgoff n importer exporter ns d = some (mm', err))
    (herr : err ≠ 0) :
    SameMap mm mm' := by
  have hsame : SameMap mm (importAnonVma mm importer exporter).1 := sameMap_importAnonVma
  rw [vmaAdjustShift] at h
  rcases himport : importAnonVma mm importer exporter with ⟨mm0, err0⟩
  rw [himport] at h hsame
  dsimp only at h
  by_cases hfail : err0 ≠ 0
  · rw [if_pos hfail] at h
    obtain ⟨rfl, -⟩ := mk.inj (some.inj h)
    exact hsame
  · rw [if_neg hfail] at h
    obtain ⟨mm₁, -, h1⟩ := bind_eq_some_iff.mp h
    obtain ⟨b, -, h2⟩ := bind_eq_some_iff.mp h1
    obtain ⟨mm2, -, h3⟩ := bind_eq_some_iff.mp h2
    exact absurd (mk.inj (some.inj h3)).2.symm herr

theorem vmaAdjust_sameMap_iff (h : vmaAdjust mm p vs ve pgoff none = some (mm', err))
    (herr : err ≠ 0) :
    SameMap mm mm' ↔ ¬ ∃ n q b, FailsSecond mm p ve n q b := by
  have hdone {mm₁ : Mm} (hset : (setExtent mm₁ p vs ve pgoff >>= fun mm => some (mm, (0 : Int))) =
      some (mm', err)) :
      err = 0 := by
    obtain ⟨mm2, -, h2⟩ := bind_eq_some_iff.mp hset
    exact (mk.inj (some.inj h2)).2.symm
  rw [vmaAdjust] at h
  obtain ⟨a, -, h⟩ := bind_eq_some_iff.mp h
  cases hnext : mm.vmNext p with
  | none =>
    rw [hnext] at h
    exact absurd (hdone h) herr
  | some n =>
    rw [hnext] at h
    obtain ⟨b, hb, h⟩ := bind_eq_some_iff.mp h
    by_cases hremove : ve ≥ b.vmEnd
    · rw [if_pos hremove] at h
      exact vmaAdjustRemove_sameMap_iff hnext h herr
    rw [if_neg hremove] at h
    -- a range that ends inside the next VMA needs no second pass
    have hnone : ¬ ∃ n q b, FailsSecond mm p ve n q b := by
      intro ⟨n', q, b', hf⟩
      obtain rfl := some.inj (hnext.symm.trans hf.next)
      obtain rfl := some.inj (hb.symm.trans hf.area)
      exact hremove (le_of_lt hf.beyond)
    refine iff_of_true ?_ hnone
    by_cases hup : ve > b.vmStart
    · rw [if_pos hup] at h
      exact vmaAdjustShift_sameMap h herr
    rw [if_neg hup] at h
    by_cases hdown : ve < a.vmEnd
    · rw [if_pos hdown] at h
      exact vmaAdjustShift_sameMap h herr
    · rw [if_neg hdown] at h
      exact absurd (hdone h) herr

/-! ### The calls of `vma_merge` -/

/-- A call that `mmap_region`, `do_brk` or `mprotect_fixup` makes: for a gap between two VMAs, for a
range at the start of a VMA, or for one further inside, with that VMA as `prev`. -/
inductive CallOf (l : List (Ptr × Area)) : Option Ptr → Nat → Nat → Prop
  | gap {A B : List (Ptr × Area)} {addr e : Nat} (hl : l = A ++ B) (hA : ∀ x ∈ A, x.2.vmEnd ≤ addr)
      (hB : ∀ x ∈ B, e ≤ x.2.vmStart) (he : addr < e) : CallOf l (A.getLast?.map Prod.fst) addr e
  | start {A B : List (Ptr × Area)} {v : Ptr} {a : Area} {e : Nat} (hl : l = A ++ (v, a) :: B)
      (he : a.vmStart < e) (hend : e ≤ a.vmEnd) : CallOf l (A.getLast?.map Prod.fst) a.vmStart e
  | within {A B : List (Ptr × Area)} {v : Ptr} {a : Area} {addr e : Nat} (hl : l = A ++ (v, a) :: B)
      (hstart : a.vmStart < addr) (he : addr < e) (hend : e ≤ a.vmEnd) : CallOf l (some v) addr e

/-- The VMA `first` behind `prev` does not end before the range, and the one after it starts behind
it. -/
structure Behind (mm : Mm) (e : Nat) (first : Option Ptr) : Prop where
  ends : ∀ {n b}, first = some n → mm.area n = some b → e ≤ b.vmEnd
  after : ∀ {n b q c}, first = some n → mm.area n = some b → mm.vmNext n = some q →
    mm.area q = some c → b.vmEnd ≤ c.vmStart ∧ c.vmStart < c.vmEnd

/-- At a cut of the list behind which no VMA ends before the range. -/
theorem behind_cut (h : Rep mm (A ++ B)) (hs : Sorted (A ++ B)) (hB : ∀ x ∈ B, e ≤ x.2.vmEnd) :
    mm.nextOrFirst (A.getLast?.map fst) = some (B.head?.map fst) ∧
      Behind mm e (B.head?.map fst) := by
  refine ⟨nextOrFirst_eq h, ?_⟩
  cases B with
  | nil => exact ⟨nofun, nofun⟩
  | cons x B =>
    obtain ⟨n, b⟩ := x
    refine ⟨fun hn hb => ?_, fun hn hb hq hc => ?_⟩
    · obtain rfl := some.inj hn
      obtain rfl := some.inj (h.area_mem.symm.trans hb)
      exact hB _ mem_cons_self
    obtain rfl := some.inj hn
    obtain rfl := some.inj (h.area_mem.symm.trans hb)
    have hnext := h.links.2.symm.trans hq
    cases B with
    | nil => exact nomatch hnext
    | cons y B =>
      obtain ⟨q', c'⟩ := y
      obtain rfl := some.inj hnext
      have hy : (q', c') ∈ A ++ (n, b) :: (q', c') :: B := by simp
      obtain rfl := some.inj ((h.area _ hy).symm.trans hc)
      exact ⟨hs.around.2 _ mem_cons_self, hs.nonempty _ hy⟩

theorem CallOf.behind (h : CallOf l prev addr e) (hr : Rep mm l) (hs : Sorted l) :
    addr < e ∧ ∃ first, mm.nextOrFirst prev = some first ∧ Behind mm e first := by
  cases h with
  | gap hl hA hB he =>
    subst hl
    refine ⟨he, _, behind_cut hr hs fun x hx => ?_⟩
    exact le_trans (hB x hx) (le_of_lt (hs.nonempty x (mem_append_right _ hx)))
  | start hl he hend =>
    subst hl
    refine ⟨he, _, behind_cut hr hs (forall_mem_cons.mpr ⟨hend, fun x hx => ?_⟩)⟩
    have hmem := hs.nonempty x (mem_append_right _ (mem_cons_of_mem _ hx))
    exact le_trans hend (le_trans (hs.around.2 x hx) (le_of_lt hmem))
  | @within A B v a addr e hl hstart he hend =>
    subst hl
    have hlater : ∀ x ∈ B, e ≤ x.2.vmEnd := fun x hx => by
      have hmem := hs.nonempty x (mem_append_right _ (mem_cons_of_mem _ hx))
      exact le_trans hend (le_trans (hs.around.2 x hx) (le_of_lt hmem))
    rw [List.append_cons] at hr hs
    have hcut := behind_cut hr hs hlater
    rw [getLast?_concat] at hcut
    exact ⟨he, _, hcut⟩

/-! ### A merge that fails -/

/-- Case 6 of mprotect, with the failure that comes too late: `prev` can be merged with the range,
which is all of the VMA after it, and with the VMA after that, and the second pass of `vma_adjust`
fails. -/
structure LateFailure (mm : Mm) (prev : Option Ptr) (addr e : Nat) (f : Flags)
    (anon file : Option Nat) (o : BitVec 32) (p n q : Ptr) (a b c : Area) :
    Prop extends CloneFails mm p q where
  special : f &&& VM_SPECIAL = 0
  prev_eq : prev = some p
  areas : mm.area p = some a ∧ mm.area n = some b ∧ mm.area q = some c
  links : mm.vmNext p = some n ∧ mm.vmNext n = some q
  ends : a.vmEnd = addr ∧ b.vmEnd = e ∧ c.vmStart = e
  mergesAfter : canVmaMergeAfter mm p a f anon file o = true
  mergesBefore : canVmaMergeBefore mm q c f anon file (o + pgoffOf (e - addr)) = true
  none : mm.anonVma n = none

theorem derefOpt_eq_some (h : derefOpt mm ptr = some (some x)) :
    ptr = some x.1 ∧ mm.area x.1 = some x.2 := by
  cases ptr with
  | none => exact nomatch some.inj h
  | some p =>
    obtain ⟨a, ha, hx⟩ := map_eq_some_iff.mp h
    obtain rfl := some.inj hx
    exact ⟨rfl, ha⟩

/-- The VMA after the range, and where it comes from. -/
theorem mergeNext_eq_some (h : mergeNext mm area e = some (some x)) :
    ∃ n b, area = some (n, b) ∧
      ((b.vmEnd = e ∧ mm.vmNext n = some x.1 ∧ mm.area x.1 = some x.2) ∨
      (b.vmEnd ≠ e ∧ x = (n, b))) := by
  cases area with
  | none => exact nomatch some.inj h
  | some y =>
    obtain ⟨n, b⟩ := y
    refine ⟨n, b, rfl, ?_⟩
    rw [mergeNext] at h
    by_cases hend : b.vmEnd = e
    · rw [if_pos hend] at h
      exact .inl ⟨hend, derefOpt_eq_some h⟩
    · rw [if_neg hend] at h
      exact .inr ⟨hend, (some.inj (some.inj h)).symm⟩

section

variable {first : Option Ptr} {area next pr : Option (Ptr × Area)}

/-- What `vma_merge` has looked up before its tests. -/
structure Looked (mm : Mm) (prev : Option Ptr) (e : Nat) (first : Option Ptr)
    (area next pr : Option (Ptr × Area)) :
    Prop where
  first_eq : mm.nextOrFirst prev = some first
  area_eq : derefOpt mm first = some area
  next_eq : mergeNext mm area e = some next
  prev_eq : derefOpt mm prev = some pr

theorem Looked.vmNext (h : Looked mm prev e first area next (some (p, a))) :
    mm.vmNext p = first := by
  obtain ⟨hprev, hp⟩ := derefOpt_eq_some h.prev_eq
  have hfirst := h.first_eq
  rw [hprev, Mm.nextOrFirst, Mm.next, hp, map_some] at hfirst
  exact some.inj hfirst

section

variable (hl : LateFailure mm prev addr e f anon file o p n q a b c)
  (h : Looked mm prev e first area next pr)

include hl h

/-- Where a late failure is possible, both tests succeed. -/
theorem LateFailure.looked : first = some n ∧ pr = some (p, a) ∧ next = some (q, c) := by
  obtain ⟨hp, hn, hq⟩ := hl.areas
  have hprev := h.prev_eq
  rw [hl.prev_eq, derefOpt, hp, map_some] at hprev
  obtain rfl := some.inj hprev
  have hfirst : first = some n := h.vmNext.symm.trans hl.links.1
  have harea := h.area_eq
  rw [hfirst, derefOpt, hn, map_some] at harea
  have hnext := h.next_eq
  rw [← some.inj harea, mergeNext, if_pos hl.ends.2.1, hl.links.2, derefOpt, hq, map_some] at hnext
  exact ⟨hfirst, rfl, (some.inj hnext).symm⟩

theorem LateFailure.tests :
    (pr.filter fun (p, a) => a.vmEnd == addr && canVmaMergeAfter mm p a f anon file o) =
      some (p, a) ∧
      (next.filter fun (q, b) => e == b.vmStart && canVmaMergeBefore mm q b f anon file
      (o + pgoffOf (e - addr))) =
        some (q, c) := by
  obtain ⟨-, hpr, hnext⟩ := hl.looked h
  refine ⟨filter_eq_some_iff.mpr ⟨hpr, ?_⟩, filter_eq_some_iff.mpr ⟨hnext, ?_⟩⟩
  · rw [Bool.and_eq_true, beq_iff_eq]
    exact ⟨hl.ends.1, hl.mergesAfter⟩
  · rw [Bool.and_eq_true, beq_iff_eq]
    exact ⟨hl.ends.2.2.symm, hl.mergesBefore⟩

end

/-- The second pass that fails is that of case 6. -/
theorem failsSecond_iff (hbehind : Behind mm e first) (h : Looked mm prev e first area next pr)
    (hspecial : f &&& VM_SPECIAL = 0) (hpr : pr = some (p, a)) (hnext : next = some (q, c))
    (haddr : a.vmEnd = addr) (hafter : canVmaMergeAfter mm p a f anon file o = true)
    (hstart : e = c.vmStart)
    (hbefore : canVmaMergeBefore mm q c f anon file (o + pgoffOf (e - addr)) = true) :
    (∃ n q' b, FailsSecond mm p
        (if isMergeableAnonVma (mm.anonVma p) (mm.anonVma q) none then c.vmEnd else e) n q' b) ↔
      ∃ p n q a b c, LateFailure mm prev addr e f anon file o p n q a b c := by
  obtain ⟨hprev, hp⟩ := derefOpt_eq_some (hpr ▸ h.prev_eq)
  constructor
  · intro ⟨n, q', b, hf⟩
    have hfirst : first = some n := (Looked.vmNext (hpr ▸ h)).symm.trans hf.next
    have hend := hbehind.ends hfirst hf.area
    have hbeyond := hf.beyond
    have harea := h.area_eq
    rw [hfirst, derefOpt, hf.area, map_some] at harea
    obtain ⟨n', b', hn', hcases⟩ := mergeNext_eq_some (hnext ▸ h.next_eq)
    obtain ⟨rfl, rfl⟩ := mk.inj (some.inj ((some.inj harea).trans hn'))
    rcases hcases with ⟨hb, hq, hc⟩ | ⟨hb, hqc⟩
    · obtain rfl := some.inj (hf.after.symm.trans hq)
      exact ⟨p, n, q', a, b, c, hf.toCloneFails, hspecial, hprev, ⟨hp, hf.area, hc⟩,
        ⟨hf.next, hf.after⟩, ⟨haddr, hb, hstart.symm⟩, hafter, hbefore, hf.none⟩
    · obtain ⟨-, rfl⟩ := mk.inj hqc
      split at hbeyond <;> omega
  · intro ⟨p', n, q', a', b, c', hl⟩
    obtain ⟨hfirst, hpr', hnext'⟩ := hl.looked h
    obtain ⟨rfl, rfl⟩ := mk.inj (some.inj (hpr.symm.trans hpr'))
    obtain ⟨rfl, rfl⟩ := mk.inj (some.inj (hnext.symm.trans hnext'))
    obtain ⟨-, hn, hq⟩ := hl.areas
    have hlt := (hbehind.after hfirst hn hl.links.2 hq).2
    refine ⟨n, q, b, hl.toCloneFails, hl.links.1, hn, ?_, hl.links.2, hl.none⟩
    rw [isMergeableAnonVma, hl.importer]
    simpa only [isNone_none, Bool.true_or, Bool.true_and, if_true, hl.ends.2.1, hl.ends.2.2]
      using hlt

/-- A call of `vma_adjust` whose range ends with the VMA behind it at the latest has no second
pass. -/
theorem not_failsSecond (hbehind : Behind mm e first) (hfirst : mm.vmNext p = first)
    (hve : ve ≤ e) :
    ¬ ∃ n q b, FailsSecond mm p ve n q b := by
  intro ⟨n, q, b, hf⟩
  have hend := hbehind.ends (hfirst.symm.trans hf.next) hf.area
  have hbeyond := hf.beyond
  omega

/-- Growing the VMA behind `prev` down over the range, and up over the next one in case 8, has none
either. -/
theorem not_failsSecond_area (hbehind : Behind mm e first)
    (h : Looked mm prev e first (some (n, b)) (some (q, c)) pr) :
    ¬ ∃ n' q' b', FailsSecond mm n c.vmEnd n' q' b' := by
  intro ⟨n', q', b', hf⟩
  obtain ⟨hfirst, hb⟩ := derefOpt_eq_some h.area_eq
  have hafter := hbehind.after hfirst hb hf.next hf.area
  have hbeyond := hf.beyond
  obtain ⟨n1, b1, hn1, hcases⟩ := mergeNext_eq_some h.next_eq
  obtain ⟨rfl, rfl⟩ := mk.inj (some.inj hn1)
  rcases hcases with ⟨-, hq, hc⟩ | ⟨-, hqc⟩
  · obtain rfl := some.inj (hf.next.symm.trans hq)
    obtain rfl := some.inj (hf.area.symm.trans hc)
    exact lt_irrefl _ hbeyond
  · obtain ⟨-, rfl⟩ := mk.inj hqc
    dsimp only at hafter
    omega

/-- The end of a branch of `vma_merge` that returns NULL: its call of `vma_adjust` has failed. -/
theorem adjust_failed {x : Ptr} (h : (vmaAdjust mm p vs ve pgoff none >>= fun (mm, err) =>
      some (mm, if err ≠ 0 then none else some x)) = some (mm', none)) :
    SameMap mm mm' ↔ ¬ ∃ n q b, FailsSecond mm p ve n q b := by
  obtain ⟨⟨mm₁, err⟩, hadjust, h1⟩ := bind_eq_some_iff.mp h
  obtain ⟨rfl, hnone⟩ := mk.inj (some.inj h1)
  refine vmaAdjust_sameMap_iff hadjust fun hzero => ?_
  rw [if_neg (not_not_intro hzero)] at hnone
  exact nomatch hnone

theorem vmaMerge_sameMap_iff (hbehind : Behind mm e first)
    (hfirst : mm.nextOrFirst prev = some first) (he : addr < e)
    (h : vmaMerge mm prev addr e f anon file o = some (mm', none)) :
    SameMap mm mm' ↔ ¬ ∃ p n q a b c, LateFailure mm prev addr e f anon file o p n q a b c := by
  rw [vmaMerge] at h
  by_cases hspecial : f &&& VM_SPECIAL ≠ 0
  · rw [if_pos hspecial] at h
    obtain ⟨rfl, -⟩ := mk.inj (some.inj h)
    exact iff_of_true (SameMap.refl mm) fun ⟨_, _, _, _, _, _, hl⟩ => hspecial hl.special
  rw [if_neg hspecial] at h
  obtain ⟨first', hfirst', h⟩ := bind_eq_some_iff.mp h
  obtain rfl := some.inj (hfirst.symm.trans hfirst')
  obtain ⟨area, harea, h⟩ := bind_eq_some_iff.mp h
  obtain ⟨next, hnext, h⟩ := bind_eq_some_iff.mp h
  obtain ⟨pr, hprev, h⟩ := bind_eq_some_iff.mp h
  have hlooked : Looked mm prev e first area next pr := ⟨hfirst, harea, hnext, hprev⟩
  have hspecial : f &&& VM_SPECIAL = 0 := not_not.mp hspecial
  cases hA : pr.filter fun (p, a) => a.vmEnd == addr && canVmaMergeAfter mm p a f anon file o with
  | some x =>
    obtain ⟨hpr, htest⟩ := filter_eq_some_iff.mp hA
    rw [Bool.and_eq_true, beq_iff_eq] at htest
    cases hB : next.filter fun (q, b) =>
        e == b.vmStart && canVmaMergeBefore mm q b f anon file (o + pgoffOf (e - addr)) with
    | some y =>
      obtain ⟨hq, htest'⟩ := filter_eq_some_iff.mp hB
      rw [Bool.and_eq_true, beq_iff_eq] at htest'
      simp only [hA, hB] at h
      rw [adjust_failed h, failsSecond_iff hbehind hlooked hspecial hpr hq htest.1 htest.2
        htest'.1 htest'.2]
    | none =>
      simp only [hA, hB] at h
      subst hpr
      refine (adjust_failed h).trans
        (iff_of_true (not_failsSecond hbehind hlooked.vmNext (le_refl e)) ?_)
      intro ⟨_, _, _, _, _, _, hl⟩
      exact nomatch hB.symm.trans (hl.tests hlooked).2
  | none =>
    have hlate : ¬ ∃ p n q a b c, LateFailure mm prev addr e f anon file o p n q a b c := by
      intro ⟨_, _, _, _, _, _, hl⟩
      exact nomatch hA.symm.trans (hl.tests hlooked).1
    cases hB : next.filter fun (q, b) =>
        e == b.vmStart && canVmaMergeBefore mm q b f anon file (o + pgoffOf (e - addr)) with
    | none =>
      simp only [hA, hB] at h
      obtain ⟨rfl, -⟩ := mk.inj (some.inj h)
      exact iff_of_true (SameMap.refl mm) hlate
    | some y =>
      obtain ⟨rfl, -⟩ := filter_eq_some_iff.mp hB
      simp only [hA, hB] at h
      obtain ⟨⟨n, b⟩, rfl, hbody⟩ := bind_eq_some_iff.mp h
      have hgrow := not_failsSecond_area hbehind hlooked
      cases pr with
      | none => exact (adjust_failed hbody).trans (iff_of_true hgrow hlate)
      | some w =>
        dsimp only at hbody
        by_cases hlt : addr < w.2.vmEnd
        · rw [if_pos hlt] at hbody
          exact (adjust_failed hbody).trans
            (iff_of_true (not_failsSecond hbehind hlooked.vmNext (le_of_lt he)) hlate)
        · rw [if_neg hlt] at hbody
          exact (adjust_failed hbody).trans (iff_of_true hgrow hlate)

end

/-- **A merge that fails.** Whatever the clones of `anon_vma`s do, a call of `vma_merge` as its
callers make it that returns NULL has left the VMAs, the list and the count as they were, if and
only if it is not case 6 of mprotect with a second pass that fails. -/
theorem vmaMerge_null_sameMap_iff (mm mm' : Mm) (l : List (Ptr × Area)) (hr : Rep mm l)
    (hs : Sorted l) (prev : Option Ptr) (addr e : Nat) (hcall : CallOf l prev addr e) (f : Flags)
    (anon file : Option Nat) (o : BitVec 32)
    (h : vmaMerge mm prev addr e f anon file o = some (mm', none)) :
    SameMap mm mm' ↔ ¬ ∃ p n q a b c, LateFailure mm prev addr e f anon file o p n q a b c := by
  obtain ⟨he, first, hfirst, hbehind⟩ := hcall.behind hr hs
  exact vmaMerge_sameMap_iff hbehind hfirst he h

/-! ### Three pages -/

theorem callOf_threeAreas : CallOf threeAreas (some 1) 0x2000 0x3000 :=
  CallOf.start (A := [(1, onePage 1 VM_WRITE)]) (a := onePage 2 VM_READ) rfl (by decide) (by decide)

/-- A page between two VMAs that both can be merged with: the clone for the second one fails in the
first pass, and nothing has changed. -/
theorem vmaMerge_null_sameMap_gap :
    ∃ mm', vmaMerge (twoPagesMm 1 3) (some 1) 0x2000 0x3000 VM_WRITE none none 2 =
      some (mm', none) ∧ SameMap (twoPagesMm 1 3) mm' := by
  have hcall : CallOf (twoAreas 1 3) (some 1) 0x2000 0x3000 :=
    CallOf.gap (A := [(1, onePage 1 VM_WRITE)]) rfl (by decide) (by decide) (by decide)
  refine ⟨_, rfl, (vmaMerge_null_sameMap_iff _ _ _ (rep_twoPagesMm 1 3)
    ⟨by decide, by decide, by decide, by decide⟩
    _ _ _ hcall VM_WRITE none none 2 rfl).mpr ?_⟩
  intro ⟨p, n, q, a, b, c, hl⟩
  obtain rfl := some.inj hl.prev_eq
  obtain rfl := some.inj hl.links.1
  exact nomatch hl.links.2

/-- Making the middle page writable: the pages before and after it can be merged with it. The middle
VMA is unlinked and freed, then the clone for the last one fails, and the caller that is told NULL
still holds the middle VMA. -/
theorem vmaMerge_null_frees_vma :
    Rep threePagesMm threeAreas ∧ Sorted threeAreas ∧ CallOf threeAreas (some 1) 0x2000 0x3000 ∧
      ∃ mm', vmaMerge threePagesMm (some 1) 0x2000 0x3000 VM_WRITE none none 2 = some (mm', none) ∧
        mm'.area 2 = none ∧ mm'.mapCount = 2 ∧ ¬ SameMap threePagesMm mm' := by
  refine ⟨rep_threePagesMm, sorted_threeAreas, callOf_threeAreas, _, rfl, rfl, rfl, fun h => ?_⟩
  exact absurd h.mapCount (by decide)

end SilanKernel.Mmap
