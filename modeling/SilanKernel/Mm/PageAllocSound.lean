import SilanKernel.Mm.PageAlloc

/-!
# SilanKernel.Mm.PageAllocSound

The page allocator **refines the buddy system**.

The free blocks of a zone are read off its lists (`Zone.free`). `ListsOk` says that
lists and page marks describe one set of blocks, `Counted` that the counts agree with
the lists. Each list operation of the allocator is one change of the set of free
blocks; with that, the loop of `__free_one_page` is a sequence of merges, `expand` a
sequence of splits, and what `move_freepages` does to the lists does not show at all.
A block in the hands of one of these functions is neither free nor out (`HandOk`).
-/

namespace SilanKernel.Mm

open Block Function List Nat Zone Partitioned

/-- The free blocks of a zone. -/
def Zone.free (z : Zone) : Set Block := {b | ∃ m, b.1 ∈ z.freeList b.2 m}

/-- The total length of the lists of an order. -/
def Zone.areaLength (z : Zone) (o : Nat) : Nat :=
  (z.freeList o .unmovable).length + (z.freeList o .reclaimable).length +
    (z.freeList o .movable).length + (z.freeList o .reserve).length +
    (z.freeList o .isolate).length

/-- Lists and page marks agree. -/
structure ListsOk (c : ZoneCfg) (z : Zone) : Prop where
  nodup : ∀ o m, (z.freeList o m).Nodup
  unique : ∀ {p o m o' m'}, p ∈ z.freeList o m → p ∈ z.freeList o' m' → o = o' ∧ m = m'
  inZone : ∀ {p o m}, p ∈ z.freeList o m → c.pageZone p = c.zoneId
  /-- `PageBuddy` marks the pages on the lists. -/
  marked : ∀ p, c.pageZone p = c.zoneId → (z.pageBuddy p = true ↔ ∃ o m, p ∈ z.freeList o m)
  /-- `page_order` is the order of the list. -/
  order : ∀ {p o m}, p ∈ z.freeList o m → z.pagePrivate p = o

/-- Each count is the total length of the lists of its order. -/
def Counted (z : Zone) : Prop := ∀ o, z.nrFree o = z.areaLength o

variable {c : ZoneCfg} {z z' : Zone} {p o : Nat} {m : MigrateType} {U : Set Nat}
  {out : Set Block} {b : Block}

/-! ### One list operation -/

theorem areaLength_add
    (h : ∀ m', (z'.freeList o m').length = (z.freeList o m').length + if m' = m then d else 0) :
    z'.areaLength o = z.areaLength o + d := by
  simp only [Zone.areaLength, h]
  cases m <;> simp <;> omega

theorem areaLength_congr (h : ∀ m', (z'.freeList o m').length = (z.freeList o m').length) :
    z'.areaLength o = z.areaLength o := by
  simp only [Zone.areaLength, h]

theorem mem_listDel (hok : ListsOk c z) :
    q ∈ (z.listDel p).freeList o' m' ↔ q ≠ p ∧ q ∈ z.freeList o' m' :=
  (hok.nodup o' m').mem_erase_iff

/-- `list_del` and `rmv_page_order` take one block out of the zone. -/
theorem ListsOk.unlink (hok : ListsOk c z) (hp : p ∈ z.freeList o m) :
    ListsOk c ((z.listDel p).rmvPageOrder p) ∧
      ((z.listDel p).rmvPageOrder p).free = z.free \ {(p, o)} := by
  refine ⟨⟨fun o' m' => (hok.nodup o' m').erase p, ?_, ?_, ?_, ?_⟩, ?_⟩
  · intro q o1 m1 o2 m2 h1 h2
    exact hok.unique ((mem_listDel hok).mp h1).2 ((mem_listDel hok).mp h2).2
  · intro q o' m' hq
    exact hok.inZone ((mem_listDel hok).mp hq).2
  · intro q hq
    show update z.pageBuddy p false q = true ↔ ∃ o m, q ∈ (z.listDel p).freeList o m
    simp only [mem_listDel hok]
    by_cases heq : q = p
    · rw [heq, update_self]
      simp
    · rw [update_of_ne heq, hok.marked q hq]
      simp [heq]
  · intro q o' m' hq
    obtain ⟨hne, hq⟩ := (mem_listDel hok).mp hq
    show update z.pagePrivate p 0 q = o'
    rw [update_of_ne hne]
    exact hok.order hq
  · ext ⟨q, o'⟩
    show (∃ m', q ∈ (z.listDel p).freeList o' m') ↔ (∃ m', q ∈ z.freeList o' m') ∧ ¬(q, o') = (p, o)
    simp only [mem_listDel hok]
    constructor
    · rintro ⟨m', hne, hq⟩
      exact ⟨⟨m', hq⟩, fun h => hne (Prod.ext_iff.mp h).1⟩
    · rintro ⟨⟨m', hq⟩, hne⟩
      refine ⟨m', fun heq => hne ?_, hq⟩
      subst heq
      rw [(hok.unique hq hp).1]

theorem areaLength_unlink (hok : ListsOk c z) (hp : p ∈ z.freeList o m) (o' : Nat) :
    z.areaLength o' = ((z.listDel p).rmvPageOrder p).areaLength o' + if o' = o then 1 else 0 := by
  by_cases ho : o' = o
  · rw [if_pos ho, ho]
    refine areaLength_add (m := m) fun m' => ?_
    show _ = ((z.freeList o m').erase p).length + _
    by_cases hm : m' = m
    · rw [if_pos hm, hm, length_erase_of_mem hp]
      have := length_pos_of_mem hp
      omega
    · rw [if_neg hm, erase_of_not_mem fun h => hm (hok.unique h hp).2]
      rfl
  · rw [if_neg ho]
    refine areaLength_congr fun m' => ?_
    show _ = ((z.freeList o' m').erase p).length
    rw [erase_of_not_mem fun h => ho (hok.unique h hp).1]

theorem mem_setList (hl : l.Perm (p :: z.freeList o m)) :
    q ∈ (z.setList o m l).freeList o' m' ↔ (q = p ∧ o' = o ∧ m' = m) ∨ q ∈ z.freeList o' m' := by
  show q ∈ (if o' = o ∧ m' = m then l else z.freeList o' m') ↔ _
  by_cases h : o' = o ∧ m' = m
  · rw [if_pos h, hl.mem_iff, h.1, h.2]
    simp
  · rw [if_neg h]
    grind

/-- Adding a page to a list, at its head or its tail, with `set_page_order`, makes one
more block free. -/
theorem ListsOk.link (hok : ListsOk c z) (hzone : c.pageZone p = c.zoneId)
    (hp : ∀ o m, p ∉ z.freeList o m) (hl : l.Perm (p :: z.freeList o m)) :
    ListsOk c ((z.setList o m l).setPageOrder p o) ∧
      ((z.setList o m l).setPageOrder p o).free = insert (p, o) z.free := by
  refine ⟨⟨?_, ?_, ?_, ?_, ?_⟩, ?_⟩
  · intro o' m'
    show (if o' = o ∧ m' = m then l else z.freeList o' m').Nodup
    split
    · exact hl.nodup_iff.mpr (nodup_cons.mpr ⟨hp o m, hok.nodup o m⟩)
    · exact hok.nodup o' m'
  · intro q o1 m1 o2 m2 h1 h2
    rcases (mem_setList hl).mp h1 with ⟨rfl, rfl, rfl⟩ | hq1
    · rcases (mem_setList hl).mp h2 with ⟨-, rfl, rfl⟩ | hq2
      · exact ⟨rfl, rfl⟩
      · exact absurd hq2 (hp o2 m2)
    · rcases (mem_setList hl).mp h2 with ⟨rfl, -, -⟩ | hq2
      · exact absurd hq1 (hp o1 m1)
      · exact hok.unique hq1 hq2
  · intro q o' m' hq
    rcases (mem_setList hl).mp hq with ⟨rfl, -, -⟩ | hq
    · exact hzone
    · exact hok.inZone hq
  · intro q hq
    show update z.pageBuddy p true q = true ↔ ∃ o' m', q ∈ (z.setList o m l).freeList o' m'
    simp only [mem_setList hl]
    by_cases heq : q = p
    · rw [heq, update_self]
      exact ⟨fun _ => ⟨o, m, .inl ⟨rfl, rfl, rfl⟩⟩, fun _ => rfl⟩
    · rw [update_of_ne heq, hok.marked q hq]
      simp [heq]
  · intro q o' m' hq
    show update z.pagePrivate p o q = o'
    rcases (mem_setList hl).mp hq with ⟨rfl, rfl, -⟩ | hq
    · rw [update_self]
    · have hne : q ≠ p := fun heq => hp o' m' (heq ▸ hq)
      rw [update_of_ne hne]
      exact hok.order hq
  · ext ⟨q, o'⟩
    show (∃ m', q ∈ (z.setList o m l).freeList o' m') ↔
      (q, o') = (p, o) ∨ ∃ m', q ∈ z.freeList o' m'
    simp only [mem_setList hl, Prod.mk.injEq]
    constructor
    · rintro ⟨m', ⟨rfl, rfl, -⟩ | hq⟩
      · exact .inl ⟨rfl, rfl⟩
      · exact .inr ⟨m', hq⟩
    · rintro (⟨rfl, rfl⟩ | ⟨m', hq⟩)
      · exact ⟨m, .inl ⟨rfl, rfl, rfl⟩⟩
      · exact ⟨m', .inr hq⟩

theorem areaLength_setList (hl : l.Perm (p :: z.freeList o m)) (o' : Nat) :
    (z.setList o m l).areaLength o' = z.areaLength o' + if o' = o then 1 else 0 := by
  by_cases ho : o' = o
  · rw [if_pos ho, ho]
    refine areaLength_add (m := m) fun m' => ?_
    show (if o = o ∧ m' = m then l else z.freeList o m').length = _
    by_cases hm : m' = m
    · rw [if_pos ⟨rfl, hm⟩, if_pos hm, hl.length_eq, length_cons, hm]
    · rw [if_neg fun h => hm h.2, if_neg hm, add_zero]
  · rw [if_neg ho]
    refine areaLength_congr fun m' => ?_
    show (if o' = o ∧ m' = m then l else z.freeList o' m').length = _
    rw [if_neg fun h => ho h.1]

/-! ### Zones with a block in hand -/

/-- What holds of a zone whatever its blocks are. -/
structure ZoneOk (c : ZoneCfg) (U : Set Nat) (z : Zone) : Prop where
  lists : ListsOk c z
  counted : Counted z
  /-- The pages managed lie in the span of the zone. -/
  span : ∀ x ∈ U, c.zoneStartPfn ≤ x ∧ x < c.zoneStartPfn + c.spannedPages

/-- A zone between two calls, with the blocks `out` handed out. -/
structure BuddyOk (c : ZoneCfg) (U : Set Nat) (z : Zone) (out : Set Block) : Prop
    extends ZoneOk c U z where
  sys : BuddySystem c.maxOrder U z.free out

/-- A zone while a function of the allocator has the block `b` in hand. -/
structure HandOk (c : ZoneCfg) (U : Set Nat) (z : Zone) (out : Set Block) (b : Block) : Prop
    extends ZoneOk c U z where
  hand : BuddyHand c.maxOrder U z.free out b

theorem ZoneOk.pageZone (h : ZoneOk c U z) (hx : x ∈ U) : c.pageZone x = c.zoneId :=
  c.linked x (h.span x hx).1 (h.span x hx).2

/-- Two zones with the same blocks: what differs is on which list of its order a block is
and of which type a pageblock is. -/
structure SameBlocks (c : ZoneCfg) (z z' : Zone) : Prop where
  lists : ListsOk c z'
  free : z'.free = z.free
  areaLength : ∀ o, z'.areaLength o = z.areaLength o
  nrFree : z'.nrFree = z.nrFree

theorem SameBlocks.refl (h : ListsOk c z) : SameBlocks c z z := ⟨h, rfl, fun _ => rfl, rfl⟩

theorem SameBlocks.trans (h1 : SameBlocks c z1 z2) (h2 : SameBlocks c z2 z3) :
    SameBlocks c z1 z3 :=
  ⟨h2.lists, h2.free.trans h1.free, fun o => (h2.areaLength o).trans (h1.areaLength o),
    h2.nrFree.trans h1.nrFree⟩

theorem HandOk.same (h : HandOk c U z out b) (hsame : SameBlocks c z z') : HandOk c U z' out b := by
  refine ⟨⟨hsame.lists, fun o => ?_, h.span⟩, hsame.free ▸ h.hand⟩
  rw [hsame.nrFree, hsame.areaLength]
  exact h.counted o

/-- Taking a block off the lists. The count may have been changed before, and the blocks
moved between lists since. -/
theorem ZoneOk.unlink (h : ZoneOk c U z) (hsame : SameBlocks c (z.addFree o (-1)) z')
    (hp : p ∈ z.freeList o m) :
    ZoneOk c U ((z'.listDel p).rmvPageOrder p) ∧
      ((z'.listDel p).rmvPageOrder p).free = z.free \ {(p, o)} := by
  have hfree : z'.free = z.free := hsame.free
  have hmem : (p, o) ∈ z'.free := hfree ▸ ⟨m, hp⟩
  obtain ⟨m', hp'⟩ : ∃ m', p ∈ z'.freeList o m' := hmem
  obtain ⟨hlists, hfree'⟩ := hsame.lists.unlink hp'
  refine ⟨⟨hlists, fun o' => ?_, h.span⟩, hfree ▸ hfree'⟩
  have hlen := areaLength_unlink hsame.lists hp' o'
  rw [hsame.areaLength o'] at hlen
  have hcount := h.counted o'
  show z'.nrFree o' = _
  rw [hsame.nrFree]
  show update z.nrFree o (z.nrFree o + -1) o' = _
  by_cases ho : o' = o
  · subst ho
    rw [update_self, hcount]
    rw [if_pos rfl] at hlen
    change z.areaLength o' = _ at hlen
    omega
  · rw [update_of_ne ho, hcount]
    rw [if_neg ho] at hlen
    change z.areaLength o' = _ at hlen
    omega

theorem ZoneOk.link (h : ZoneOk c U z) (hzone : c.pageZone p = c.zoneId)
    (hp : ∀ o m, p ∉ z.freeList o m) (hl : l.Perm (p :: z.freeList o m)) :
    ZoneOk c U (((z.setList o m l).addFree o 1).setPageOrder p o) ∧
      (((z.setList o m l).addFree o 1).setPageOrder p o).free = insert (p, o) z.free := by
  obtain ⟨hlists, hfree⟩ := h.lists.link hzone hp hl
  refine ⟨⟨⟨hlists.1, hlists.2, hlists.3, hlists.4, hlists.5⟩, fun o' => ?_, h.span⟩, hfree⟩
  have hlen := areaLength_setList hl o'
  have hcount := h.counted o'
  show update z.nrFree o (z.nrFree o + 1) o' = ((z.setList o m l).areaLength o' : Int)
  rw [hlen]
  by_cases ho : o' = o
  · subst ho
    rw [update_self, hcount, if_pos rfl]
    omega
  · rw [update_of_ne ho, hcount, if_neg ho]
    omega

/-- The head of the block in hand is on no list. -/
theorem HandOk.not_listed (h : HandOk c U z out b) (hq : (extent b).Covers q) :
    ∀ o m, q ∉ z.freeList o m := by
  intro o m hmem
  have hfree : (q, o) ∈ z.free := ⟨m, hmem⟩
  have heq := h.hand.sys.part.eq_of_covers (.inl hfree) (.inr (.inl rfl))
    (covers_start (q, o)) hq
  exact h.hand.sys.disjoint _ hfree (heq ▸ .inl rfl)

/-- `page_is_buddy` decides whether that block is free. -/
theorem pageIsBuddy_iff (h : ListsOk c z) {page buddy : Nat} (hpage : c.pageZone page = c.zoneId) :
    pageIsBuddy c z page buddy o = true ↔ (buddy, o) ∈ z.free := by
  unfold pageIsBuddy
  rw [hpage]
  constructor
  · intro hb
    by_cases hzone : c.zoneId ≠ c.pageZone buddy
    · rw [if_pos hzone] at hb
      exact absurd hb Bool.false_ne_true
    · rw [if_neg hzone, Bool.and_eq_true, beq_iff_eq] at hb
      obtain ⟨o', m, hmem⟩ := (h.marked buddy (not_not.mp hzone).symm).mp hb.1
      have ho : o' = o := (h.order hmem).symm.trans hb.2
      exact ⟨m, ho ▸ hmem⟩
  · rintro ⟨m, hmem⟩
    have hzone := h.inZone hmem
    rw [if_neg (not_not.mpr hzone.symm), Bool.and_eq_true, beq_iff_eq]
    exact ⟨(h.marked buddy hzone).mpr ⟨o, m, hmem⟩, h.order hmem⟩

/-! ### Freeing -/

/-- The page index counts from a multiple of the largest block, so that its bit
operations find the buddy and the parent of the page. -/
theorem findBuddyIndex_spec {page M : Nat} (hal : 2 ^ o ∣ page) (ho : o < M)
    (hidx : idx = page % 2 ^ M) :
    page + findBuddyIndex idx o - idx = buddy page o ∧
      page + (findBuddyIndex idx o &&& idx) - idx = parent page o ∧
      findBuddyIndex idx o &&& idx = parent page o % 2 ^ M := by
  have hdvd : 2 ^ o ∣ idx := hidx ▸ (dvd_mod_iff (pow_dvd_pow 2 (le_of_lt ho))).mpr hal
  have hlt : idx < 2 ^ M := hidx ▸ Nat.mod_lt _ (Nat.two_pow_pos M)
  have hpage := div_add_mod page (2 ^ M)
  obtain ⟨hbuddy, hparent⟩ := buddy_add_mul (p := idx) (page / 2 ^ M) ho
  rw [hidx, hpage, ← hidx] at hbuddy hparent
  have hxor : findBuddyIndex idx o = buddy idx o := xor_two_pow hdvd
  have hle : parent idx o ≤ idx := by
    unfold parent
    split <;> omega
  rw [hxor, buddy_and hdvd]
  refine ⟨by omega, by omega, ?_⟩
  rw [hparent, mul_add_mod, mod_eq_of_lt (lt_of_le_of_lt hle hlt)]

/-- The block in hand, once nothing more can be merged. -/
def Merged (c : ZoneCfg) (U : Set Nat) (out : Set Block) (m : Merge) : Prop :=
  HandOk c U m.zone out (m.page, m.order) ∧
    (m.order + 1 < c.maxOrder → (buddy m.page m.order, m.order) ∉ m.zone.free ∧
      m.buddyIdx = findBuddyIndex m.pageIdx m.order)

/-- The loop of `__free_one_page` merges as long as it can. -/
theorem mergeLoop_spec (n : Nat) (m : Merge) (h : HandOk c U m.zone out (m.page, m.order))
    (hidx : m.pageIdx = m.page % 2 ^ c.maxOrder) (hn : m.order + n + 1 = c.maxOrder) :
    Merged c U out (mergeLoop c n m) := by
  induction n generalizing m with
  | zero =>
    refine ⟨h, fun hlt => ?_⟩
    change m.order + 1 < c.maxOrder at hlt
    omega
  | succ n ih =>
    have hpage : c.pageZone m.page = c.zoneId :=
      h.pageZone (h.hand.mem (covers_start _))
    obtain ⟨hbuddy, hparent, hmod⟩ := findBuddyIndex_spec h.hand.aligned h.hand.lt hidx
    have hiff := @pageIsBuddy_iff c m.zone m.order h.lists m.page (buddy m.page m.order) hpage
    unfold mergeLoop
    dsimp only
    rw [hbuddy, hparent]
    cases hb : pageIsBuddy c m.zone m.page (buddy m.page m.order) m.order with
    | false =>
      refine ⟨h, fun _ => ⟨fun hmem => ?_, rfl⟩⟩
      rw [hiff.mpr hmem] at hb
      exact Bool.noConfusion hb
    | true =>
      obtain ⟨t, ht⟩ := hiff.mp hb
      have hfree : (buddy m.page m.order, m.order) ∈ m.zone.free := ⟨t, ht⟩
      obtain ⟨hzone, heq⟩ := h.toZoneOk.unlink (.refl ⟨h.lists.1, h.lists.2, h.lists.3,
        h.lists.4, h.lists.5⟩) ht
      have hhand := h.hand.merge (by omega) hfree
      exact ih _ ⟨hzone, heq ▸ hhand⟩ hmod (by dsimp only; omega)

theorem freeOnePage_spec (h : BuddyOk c U z out) (hb : (p, o) ∈ out) (t : MigrateType) :
    BuddyOk c U (freeOnePage c z p o t) (out \ {(p, o)}) := by
  have ho : o < c.maxOrder := h.sys.part.lt (p, o) (.inr hb)
  let m0 : Merge :=
    { zone := z, page := p, pageIdx := p % 2 ^ c.maxOrder, buddyIdx := 0, order := o }
  have h0 : HandOk c U m0.zone (out \ {(p, o)}) (m0.page, m0.order) :=
    ⟨h.toZoneOk, h.sys.giveBack hb⟩
  obtain ⟨hm, hlone⟩ := mergeLoop_spec (c.maxOrder - 1 - o) m0 h0 rfl (by dsimp only [m0]; omega)
  unfold freeOnePage
  dsimp only
  generalize mergeLoop c (c.maxOrder - 1 - o) m0 = m at hm hlone
  have hcov := covers_start (m.page, m.order)
  have hzone : c.pageZone m.page = c.zoneId := hm.pageZone (hm.hand.mem hcov)
  have hput := hm.hand.put fun hlt => (hlone hlt).1
  -- At the head or at the tail, the list gains the page.
  split
  · obtain ⟨hok, hfree⟩ := hm.toZoneOk.link hzone (hm.not_listed hcov)
      (perm_append_singleton m.page (m.zone.freeList m.order t))
    exact ⟨hok, hfree ▸ hput⟩
  · obtain ⟨hok, hfree⟩ := hm.toZoneOk.link hzone (hm.not_listed hcov)
      (List.Perm.refl (m.page :: m.zone.freeList m.order t))
    exact ⟨hok, hfree ▸ hput⟩

/-! ### Allocating -/

/-- `expand` splits the block in hand down to the order asked for. -/
theorem expand_spec {low : Nat} (t : MigrateType) (high : Nat) (h : HandOk c U z out (p, high))
    (hle : low ≤ high) :
    HandOk c U (expand z p low high t) out (p, low) := by
  induction high generalizing z with
  | zero =>
    obtain rfl : low = 0 := le_zero.mp hle
    exact h
  | succ high ih =>
    unfold expand
    by_cases hlow : high + 1 > low
    · rw [if_pos hlow]
      have hcov : (extent (p, high + 1)).Covers (p + 2 ^ high) := by
        have := Nat.two_pow_pos high
        exact ⟨le_add_right _ _, by dsimp only [extent]; omega⟩
      obtain ⟨hok, hfree⟩ := h.toZoneOk.link (h.pageZone (h.hand.mem hcov)) (h.not_listed hcov)
        (List.Perm.refl ((p + 2 ^ high) :: z.freeList high t))
      exact ih ⟨hok, hfree ▸ h.hand.split⟩ (le_of_lt_succ hlow)
    · rw [if_neg hlow]
      obtain rfl : low = high + 1 := by omega
      exact h

/-- What a call that asks for a block of order `order` leaves behind. -/
def Allocated (c : ZoneCfg) (U : Set Nat) (out : Set Block) (order : Nat) :
    Zone × Option Nat → Prop
  | (z, none) => BuddyOk c U z out
  | (z, some page) => HandOk c U z out (page, order)

/-- The first block of a list comes into the hands of the allocator. -/
theorem BuddyOk.pick (h : BuddyOk c U z out) (hsame : SameBlocks c (z.addFree o (-1)) z')
    (hp : p ∈ z.freeList o m) : HandOk c U ((z'.listDel p).rmvPageOrder p) out (p, o) := by
  obtain ⟨hok, hfree⟩ := h.toZoneOk.unlink hsame hp
  have hmem : (p, o) ∈ z.free := ⟨m, hp⟩
  exact ⟨hok, hfree ▸ h.sys.pick hmem⟩

theorem ListsOk.addFree (h : ListsOk c z) (o : Nat) (d : Int) : ListsOk c (z.addFree o d) :=
  ⟨h.1, h.2, h.3, h.4, h.5⟩

theorem rmqueueSmallestLoop_spec (t : MigrateType) (h : BuddyOk c U z out) (n cur : Nat)
    (hle : order ≤ cur) :
    Allocated c U out order (rmqueueSmallestLoop z order t n cur) := by
  induction n generalizing cur with
  | zero => exact h
  | succ n ih =>
    unfold rmqueueSmallestLoop
    cases hl : z.freeList cur t with
    | nil => exact ih (cur + 1) (le_succ_of_le hle)
    | cons page rest =>
      have hmem : page ∈ z.freeList cur t := hl ▸ mem_cons_self
      exact expand_spec t cur (h.pick (.refl (h.lists.addFree cur (-1))) hmem) hle

theorem rmqueueSmallest_spec (order : Nat) (t : MigrateType) (h : BuddyOk c U z out) :
    Allocated c U out order (rmqueueSmallest c z order t) :=
  rmqueueSmallestLoop_spec t h _ order (le_refl order)

/-- To move a block to another list of its order is to take it off the lists and to put
it back: the marks it loses and gains are the same. -/
theorem listMove_eq (h : ListsOk c z) (hp : p ∈ z.freeList o m) (t : MigrateType) :
    z.listMove p o t =
      (((z.listDel p).rmvPageOrder p).setList o t (p :: (z.listDel p).freeList o t)).setPageOrder
        p o := by
  have hmark : z.pageBuddy p = true := (h.marked p (h.inZone hp)).mpr ⟨o, m, hp⟩
  have hbuddy : update (update z.pageBuddy p false) p true = z.pageBuddy := by
    rw [update_idem, ← hmark, update_eq_self]
  have hpriv : update (update z.pagePrivate p 0) p o = z.pagePrivate := by
    rw [update_idem, ← h.order hp, update_eq_self]
  simp only [listMove, listAdd, setList, setPageOrder, rmvPageOrder,
    listDel, hbuddy, hpriv]

theorem listMove_same (h : ListsOk c z) (hp : p ∈ z.freeList o m) (t : MigrateType) :
    SameBlocks c z (z.listMove p o t) := by
  obtain ⟨hdel, hfree⟩ := h.unlink hp
  have hnot : ∀ o m, p ∉ ((z.listDel p).rmvPageOrder p).freeList o m :=
    fun o m hmem => ((mem_listDel h).mp hmem).1 rfl
  have hl := List.Perm.refl (p :: ((z.listDel p).rmvPageOrder p).freeList o t)
  obtain ⟨hadd, hfree'⟩ := hdel.link (h.inZone hp) hnot hl
  have hmem : (p, o) ∈ z.free := ⟨m, hp⟩
  rw [listMove_eq h hp t]
  refine ⟨hadd, ?_, fun o' => ?_, rfl⟩
  · rw [hfree, Set.insert_sdiff_singleton, Set.insert_eq_of_mem hmem] at hfree'
    exact hfree'
  · rw [areaLength_unlink h hp o']
    exact areaLength_setList hl o'

theorem moveLoop_spec (t : MigrateType) (n : Nat) (page moved : Nat) (h : ListsOk c z)
    (hzone : ∀ x, page ≤ x → x ≤ endPage → c.pageZone x = c.zoneId) :
    SameBlocks c z (moveLoop endPage t n z page moved).1 := by
  induction n generalizing z page moved with
  | zero => exact .refl h
  | succ n ih =>
    unfold moveLoop
    by_cases hle : page ≤ endPage
    · rw [if_pos hle]
      cases hmark : z.pageBuddy page with
      | false => exact ih (page + 1) moved h fun x hx => hzone x (le_of_succ_le hx)
      | true =>
        obtain ⟨o, m, hmem⟩ := (h.marked page (hzone page (le_refl _) hle)).mp hmark
        have hmove := listMove_same h hmem t
        have hrest := ih (page + 2 ^ o) (moved + 2 ^ o) hmove.lists
          fun x hx => hzone x (le_of_add_right_le hx)
        dsimp only
        rw [h.order hmem]
        exact hmove.trans hrest
    · rw [if_neg hle]
      exact .refl h

/-- The check of `move_freepages` does not fail: both ends are in the span of the zone. -/
theorem moveFreepagesBlock_spec (h : ListsOk c z) (t : MigrateType)
    (hstart : c.zoneStartPfn ≤ page) :
    ∃ r, moveFreepagesBlock c z page t = some r ∧ SameBlocks c z r.1 := by
  unfold moveFreepagesBlock
  dsimp only
  split
  · exact ⟨_, rfl, .refl h⟩
  rename_i hend
  generalize hs : (if page - page % 2 ^ c.pageblockOrder < c.zoneStartPfn then page
    else page - page % 2 ^ c.pageblockOrder) = startPage
  generalize he : page - page % 2 ^ c.pageblockOrder + 2 ^ c.pageblockOrder - 1 = endPage
  rw [he] at hend
  have hbounds : c.zoneStartPfn ≤ startPage ∧ startPage ≤ endPage := by
    split at hs <;> omega
  have hzone : ∀ x, startPage ≤ x → x ≤ endPage → c.pageZone x = c.zoneId := by
    intro x hx hx'
    exact c.linked x (by omega) (by omega)
  have hsame : c.pageZone startPage = c.pageZone endPage := by
    rw [hzone startPage (le_refl _) hbounds.2, hzone endPage hbounds.2 (le_refl _)]
  unfold moveFreepages
  rw [if_neg (not_not.mpr hsame)]
  exact ⟨_, rfl, moveLoop_spec t _ startPage 0 h hzone⟩

/-- The types of the pageblocks do not show in the blocks. -/
theorem SameBlocks.pageblock (h : ListsOk c z) (pb : Nat → MigrateType) :
    SameBlocks c z { z with pageblock := pb } :=
  ⟨⟨h.1, h.2, h.3, h.4, h.5⟩, rfl, fun _ => rfl, rfl⟩

theorem changePageblockRange_same (t : MigrateType) (n : Nat) (page : Nat) (h : ListsOk c z) :
    SameBlocks c z (changePageblockRange c t n z page) := by
  induction n generalizing z page with
  | zero => exact .refl h
  | succ n ih =>
    have hstep := SameBlocks.pageblock h (setPageblockMigratetype c z page t).pageblock
    exact hstep.trans (ih _ hstep.lists)

theorem stealFallback_spec (start : MigrateType) (h : BuddyOk c U z out)
    (hmem : page ∈ z.freeList cur t) (hle : order ≤ cur) :
    ∃ r, stealFallback c z order cur page start t = some r ∧ Allocated c U out order r := by
  have hfree : (page, cur) ∈ z.free := ⟨t, hmem⟩
  have hU : page ∈ U :=
    (h.sys.part.cover page).mpr ⟨_, .inl hfree, covers_start (page, cur)⟩
  -- Once the rest of the pageblock has been moved, the block is taken and split.
  have htake : ∀ z' t', SameBlocks c (z.addFree cur (-1)) z' → Allocated c U out order
      (expand (if c.pageblockOrder ≤ cur then
        changePageblockRange c start (2 ^ (cur - c.pageblockOrder))
          ((z'.listDel page).rmvPageOrder page) page
        else (z'.listDel page).rmvPageOrder page) page order cur t', some page) := by
    intro z' t' hsame
    have hpick := h.pick hsame hmem
    refine expand_spec t' cur ?_ hle
    split
    · exact hpick.same (changePageblockRange_same start _ page hpick.lists)
    · exact hpick
  have hadd := h.lists.addFree cur (-1)
  unfold stealFallback
  dsimp only
  split
  · obtain ⟨r, hr, hsame⟩ := moveFreepagesBlock_spec hadd start (h.span page hU).1
    rw [hr]
    refine ⟨_, rfl, htake _ start (hsame.trans ?_)⟩
    split
    · exact SameBlocks.pageblock hsame.lists _
    · exact .refl hsame.lists
  · exact ⟨_, rfl, htake _ t (.refl hadd)⟩

theorem findFallback_mem (h : findFallback z cur row = some (page, t))
    : page ∈ z.freeList cur t := by
  induction row with
  | nil => exact absurd h (Option.some_ne_none _).symm
  | cons t' rest ih =>
    unfold findFallback at h
    split at h
    · exact ih h
    split at h
    · exact ih h
    · rename_i page' _ hl
      obtain ⟨rfl, rfl⟩ := Prod.ext_iff.mp (Option.some.inj h)
      exact hl ▸ mem_cons_self

theorem rmqueueFallbackLoop_spec (order : Nat) (start : MigrateType) (h : BuddyOk c U z out)
    (n : Nat) :
    ∃ r, rmqueueFallbackLoop c z order start n = some r ∧ Allocated c U out order r := by
  induction n with
  | zero => exact ⟨_, rfl, h⟩
  | succ n ih =>
    unfold rmqueueFallbackLoop
    cases hf : findFallback z (order + n) (fallbacks start) with
    | none => exact ih
    | some found =>
      exact stealFallback_spec start h (findFallback_mem hf) (le_add_right order n)

/-- `__rmqueue` hands out a block that was free, or leaves the zone with all its blocks. -/
theorem rmqueue_spec (order : Nat) (t : MigrateType) (h : BuddyOk c U z out) :
    ∃ r, rmqueue c z order t = some r ∧ Allocated c U out order r := by
  unfold rmqueue
  have hsmall := rmqueueSmallest_spec order t h
  rcases hs : rmqueueSmallest c z order t with ⟨z1, _ | page⟩
  · rw [hs] at hsmall
    dsimp only
    split
    · exact ⟨_, rfl, hsmall⟩
    obtain ⟨⟨z2, res⟩, hr, hfall⟩ :=
      rmqueueFallbackLoop_spec order t hsmall (c.maxOrder - order)
    have hr' : rmqueueFallback c z1 order t = some (z2, res) := hr
    rw [hr']
    cases res with
    | none => exact ⟨_, rfl, rmqueueSmallest_spec order .reserve hfall⟩
    | some page => exact ⟨_, rfl, hfall⟩
  · rw [hs] at hsmall
    exact ⟨_, rfl, hsmall⟩

/-! ### Runs of the allocator -/

/-- A zone and the blocks its callers hold. -/
structure AllocState where
  zone : Zone
  out : List Block

/-- The calls made under `zone->lock`. -/
inductive Call where
  | rmqueue (order : Nat) (migratetype : MigrateType)
  | freeOnePage (page order : Nat) (migratetype : MigrateType)

/-- What callers keep to: orders below `MAX_ORDER`, and only blocks that were handed out
are freed. -/
def Call.Legal (c : ZoneCfg) (s : AllocState) : Call → Prop
  | .rmqueue order _ => order < c.maxOrder
  | .freeOnePage page order _ => (page, order) ∈ s.out

/-- One call; `none` where the kernel stops at a failed check. -/
def allocStep (c : ZoneCfg) (s : AllocState) : Call → Option AllocState
  | .rmqueue order migratetype =>
    match rmqueue c s.zone order migratetype with
    | none => none
    | some (z, none) => some { s with zone := z }
    | some (z, some page) => some { zone := z, out := (page, order) :: s.out }
  | .freeOnePage page order migratetype =>
    some { zone := freeOnePage c s.zone page order migratetype, out := s.out.erase (page, order) }

/-- The zone and the blocks held form a buddy system over the pages `U`. -/
structure AllocState.Ok (c : ZoneCfg) (U : Set Nat) (s : AllocState) : Prop where
  buddy : BuddyOk c U s.zone {b | b ∈ s.out}
  nodup : s.out.Nodup

theorem allocStep_ok (s : AllocState) (call : Call) (h : s.Ok c U) (hlegal : call.Legal c s) :
    ∃ s', allocStep c s call = some s' ∧ s'.Ok c U := by
  cases call with
  | rmqueue order t =>
    obtain ⟨⟨z, res⟩, hr, hres⟩ := rmqueue_spec order t h.buddy
    unfold allocStep
    dsimp only
    rw [hr]
    cases res with
    | none => exact ⟨_, rfl, hres, h.nodup⟩
    | some page =>
      have hset : {b | b ∈ (page, order) :: s.out} = insert (page, order) {b | b ∈ s.out} := by
        ext b
        simp
      have hhand : HandOk c U z {b | b ∈ s.out} (page, order) := hres
      refine ⟨_, rfl, ⟨hhand.toZoneOk, ?_⟩, ?_⟩
      · dsimp only
        rw [hset]
        exact hhand.hand.sys
      · exact nodup_cons.mpr ⟨hhand.hand.notMem, h.nodup⟩
  | freeOnePage page order t =>
    have hset : {b | b ∈ s.out.erase (page, order)} = {b | b ∈ s.out} \ {(page, order)} := by
      ext b
      simp [h.nodup.mem_erase_iff, and_comm]
    refine ⟨_, rfl, ?_, h.nodup.erase _⟩
    dsimp only
    rw [hset]
    exact freeOnePage_spec h.buddy hlegal t

/-- **The buddy invariant.** From any zone whose free blocks, together with the blocks that
are out, form a buddy system, every sequence of allocations and frees goes through and keeps
it one: lists, marks and counts agree, no page is in two blocks, none is lost, and no two
buddies are both free. -/
theorem alloc_always_ok (c : ZoneCfg) (U : Set Nat) (s : AllocState) (calls : List Call)
    (hs : s.Ok c U) (hlegal : Run.Along (allocStep c) (fun s call => call.Legal c s) s calls) :
    Run.Always (allocStep c) (AllocState.Ok c U) s calls :=
  Run.always_of_along allocStep_ok hs hlegal

/-- `zone_init_free_lists`: no page is free. -/
def emptyZone : Zone where
  freeList := fun _ _ => []
  nrFree := fun _ => 0
  pageBuddy := fun _ => false
  pagePrivate := fun _ => 0
  pageblock := fun _ => .movable

/-- At boot all pages are out, in whatever blocks the boot allocator will free. -/
theorem emptyZone_ok (c : ZoneCfg) (U : Set Nat) (out : List Block) (hnodup : out.Nodup)
    (hspan : ∀ x ∈ U, c.zoneStartPfn ≤ x ∧ x < c.zoneStartPfn + c.spannedPages)
    (hpart : Partitioned c.maxOrder U {b | b ∈ out}) :
    AllocState.Ok c U { zone := emptyZone, out := out } := by
  have hfree : emptyZone.free = ∅ := by
    ext b
    simp [Zone.free, emptyZone]
  refine ⟨⟨⟨⟨?_, ?_, ?_, ?_, ?_⟩, fun _ => rfl, hspan⟩, ?_⟩, hnodup⟩
  · exact fun _ _ => nodup_nil
  · exact fun h => absurd h not_mem_nil
  · exact fun h => absurd h not_mem_nil
  · intro p _
    simp [emptyZone]
  · exact fun h => absurd h not_mem_nil
  · dsimp only
    rw [hfree]
    refine ⟨by rwa [Set.empty_union], ?_, ?_⟩
    · exact fun b hb => absurd hb (Set.notMem_empty b)
    · exact fun b hb => absurd hb (Set.notMem_empty b)

/-- A zone of eight pages. -/
def smallZone : ZoneCfg where
  maxOrder := 3
  pageblockOrder := 2
  mobilityDisabled := false
  zoneStartPfn := 0
  spannedPages := 8
  pageZone := fun p => if p < 8 then 1 else 0
  zoneId := 1
  maxOrder_pos := by decide
  linked := fun p _ h => if_pos (by simpa using h)

theorem smallZone_ok {l : List Block} (hnodup : l.Nodup) (hal : ∀ b ∈ l, b.2 < 3 ∧ 2 ^ b.2 ∣ b.1)
    (hapart : ∀ b ∈ l, ∀ c ∈ l, b ≠ c → Extent.Apart (extent b) (extent c))
    (hcover : ∀ x, x < 8 ↔ ∃ b ∈ l, (extent b).Covers x) :
    AllocState.Ok smallZone {x | x < 8} { zone := emptyZone, out := l } :=
  emptyZone_ok _ _ _ hnodup (fun x hx => ⟨zero_le x, by simpa [smallZone] using hx⟩)
    ⟨fun b hb => (hal b hb).1, fun b hb => (hal b hb).2, hapart, hcover⟩

theorem smallZone_boot_ok :
    AllocState.Ok smallZone {x | x < 8} { zone := emptyZone, out := [(0, 2), (4, 2)] } :=
  smallZone_ok (by decide) (by decide) (by unfold Extent.Apart; decide) fun x => by
    simp [extent, Extent.Covers]; omega

/-- Both halves of the zone are freed, a page is taken from the list of another type and a
block of two pages after it, and the page is given back. -/
def smallCalls : List Call :=
  [.freeOnePage 0 2 .movable, .freeOnePage 4 2 .movable, .rmqueue 0 .unmovable,
    .rmqueue 1 .movable, .freeOnePage 4 0 .reclaimable]

theorem alloc_always_ok_small :
    Run.Always (allocStep smallZone) (AllocState.Ok smallZone {x | x < 8})
      { zone := emptyZone, out := [(0, 2), (4, 2)] } smallCalls := by
  refine alloc_always_ok _ _ _ _ smallZone_boot_ok ?_
  refine ⟨by unfold Call.Legal; decide, ?_⟩
  rintro _ ⟨⟩
  refine ⟨by unfold Call.Legal; decide, ?_⟩
  rintro _ ⟨⟩
  refine ⟨by unfold Call.Legal; decide, ?_⟩
  rintro _ ⟨⟩
  refine ⟨by unfold Call.Legal; decide, ?_⟩
  rintro _ ⟨⟩
  refine ⟨by unfold Call.Legal; decide, ?_⟩
  rintro _ ⟨⟩
  trivial

end SilanKernel.Mm
