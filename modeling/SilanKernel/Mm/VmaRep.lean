import SilanKernel.Data.DList
import SilanKernel.Data.Run
import SilanKernel.Data.SegMap
import SilanKernel.Lib.RbtreeSound
import SilanKernel.Mm.Mmap

/-!
# SilanKernel.Mm.VmaRep

**The list of areas an `mm_struct` stands for**, and what the searches find in it.

`Rep mm l` says that the VMA list, the tree, `map_count` and the cache of `mm` all describe
the list `l` of VMAs with their areas, and `Sorted l` is the order of the list. The searches
are specified by what they find in `l`.
-/

namespace SilanKernel.Mmap

open DList List Rbtree SegMap Prod

/-- The segment of a VMA. -/
def seg (x : Ptr × Area) : Seg where
  lo := x.2.vmStart
  hi := x.2.vmEnd

/-- The VMAs are non-empty, page-aligned, in order and pairwise disjoint. -/
abbrev Sorted (l : List (Ptr × Area)) : Prop := SegMap.Sorted seg PAGE_SIZE l

/-- The VMAs of a list. -/
abbrev ptrs (l : List (Ptr × Area)) : List Ptr := l.map Prod.fst

/-- All structures of `mm` describe the list `l`. -/
structure Rep (mm : Mm) (l : List (Ptr × Area)) : Prop where
  area : ∀ x ∈ l, mm.area x.1 = some x.2
  list : IsList mm.vmNext mm.vmPrev mm.mmap (ptrs l)
  tree : mm.mmRb.toList = ptrs l
  valid : Valid mm.mmRb
  count : mm.mapCount = l.length
  cache : ∀ p, mm.mmapCache = some p → p ∈ ptrs l

variable {mm : Mm} {l l1 l2 : List (Ptr × Area)} {p : Ptr} {a : Area} {addr : Nat} {x : Ptr × Area}

/-! ### Members of the list -/

theorem Rep.area_mem (h : Rep mm (l1 ++ (p, a) :: l2)) : mm.area p = some a :=
  h.area (p, a) (by simp)

theorem Rep.links (h : Rep mm (l1 ++ (p, a) :: l2)) :
    mm.vmPrev p = l1.getLast?.map fst ∧ mm.vmNext p = l2.head?.map fst := by
  have hl := h.list
  simp only [ptrs, map_append, map_cons] at hl
  have := hl.links
  rwa [getLast?_map, head?_map] at this

theorem Rep.mmap_eq (h : Rep mm l) : mm.mmap = l.head?.map fst := by
  rw [h.list.head_eq, ptrs, head?_map]

/-! ### Searches -/

/-- The first VMA of a list that ends above an address. -/
def firstAbove (addr : Nat) (l : List (Ptr × Area)) : Option (Ptr × Area) :=
  l.find? fun x => addr < x.2.vmEnd

theorem firstAbove_eq_none (h : ∀ x ∈ l, x.2.vmEnd ≤ addr) : firstAbove addr l = none := by
  refine find?_eq_none.mpr fun x hx => ?_
  simpa using h x hx

theorem firstAbove_eq_some (h : firstAbove addr l = some x) :
    ∃ A B, l = A ++ x :: B ∧ addr < x.2.vmEnd ∧ ∀ y ∈ A, y.2.vmEnd ≤ addr := by
  obtain ⟨hx, A, B, hl, hA⟩ := find?_eq_some_iff_append.mp h
  exact ⟨A, B, hl, by simpa using hx, fun y hy => by simpa using hA y hy⟩

/-- What a node of a search tree says about the search. -/
theorem firstAbove_node (h : Sorted (l1 ++ x :: l2)) :
    firstAbove addr (l1 ++ x :: l2) =
      if addr < x.2.vmEnd then (firstAbove addr l1).or (some x) else firstAbove addr l2 := by
  by_cases hx : addr < x.2.vmEnd
  · simp [firstAbove, hx]
  have hnone : firstAbove addr l1 = none := firstAbove_eq_none fun y hy => by
    have h1 : y.2.vmEnd ≤ x.2.vmStart := h.around.1 y hy
    have h2 : x.2.vmStart < x.2.vmEnd := h.nonempty x (by simp)
    omega
  rw [firstAbove] at hnone
  simp [firstAbove, hx, hnone]

/-- The list of VMAs around the root of a tree that holds them. -/
theorem ptrs_eq_node (h : L ++ p :: R = ptrs l) :
    ∃ A a B, l = A ++ (p, a) :: B ∧ ptrs A = L ∧ ptrs B = R := by
  obtain ⟨A, B', rfl, hA, hB'⟩ := map_eq_append_iff.mp h.symm
  obtain ⟨⟨q, a⟩, B, rfl, rfl, hB⟩ := map_eq_cons_iff.mp hB'
  exact ⟨A, a, B, rfl, hA, hB⟩

/-- The VMAs of a list are live, with the areas the list gives them. -/
abbrev AreasOf (mm : Mm) (l : List (Ptr × Area)) : Prop := ∀ x ∈ l, mm.area x.1 = some x.2

theorem AreasOf.node (h : AreasOf mm (l1 ++ (p, a) :: l2)) :
    AreasOf mm l1 ∧ mm.area p = some a ∧ AreasOf mm l2 :=
  ⟨fun x hx => h x (by simp [hx]), h (p, a) (by simp), fun x hx => h x (by simp [hx])⟩

theorem findVmaLoop_eq (ha : AreasOf mm l) (hs : Sorted l) (ht : t.toList = ptrs l) :
    findVmaLoop mm addr t vma = some (((firstAbove addr l).map fst).or vma) := by
  induction t generalizing l vma with
  | leaf =>
    obtain rfl : l = [] := map_eq_nil_iff.mp ht.symm
    rfl
  | node c lt p rt ihl ihr =>
    obtain ⟨A, a, B, rfl, hA, hB⟩ := ptrs_eq_node ht
    obtain ⟨haA, hp, haB⟩ := ha.node
    obtain ⟨hsA, hsB, -⟩ := sorted_append.mp hs
    simp only [findVmaLoop, hp, Option.bind_eq_bind, Option.bind_some, firstAbove_node hs]
    by_cases hend : addr < a.vmEnd
    · rw [if_pos hend, if_pos hend]
      by_cases hstart : a.vmStart ≤ addr
      · -- The address is inside this VMA, so none before it ends above.
        have hnone : firstAbove addr A = none := firstAbove_eq_none fun y hy => by
          have : y.2.vmEnd ≤ a.vmStart := hs.around.1 y hy
          omega
        rw [if_pos hstart, hnone]
        rfl
      · rw [if_neg hstart, ihl haA hsA hA.symm]
        cases firstAbove addr A <;> rfl
    · rw [if_neg hend, if_neg hend]
      exact ihr haB (sorted_cons.mp hsB).2.1 hB.symm

/-- `find_vma` finds the first VMA that ends above the address, whatever is cached. -/
theorem findVma_spec (h : Rep mm l) (hs : Sorted l) :
    Ends (findVma mm addr) fun r => Rep r.1 l ∧ r.2 = (firstAbove addr l).map fst := by
  have htree : Ends (findVmaTree mm addr) fun r => Rep r.1 l ∧
      r.2 = (firstAbove addr l).map fst := by
    refine .bind_eq (findVmaLoop_eq h.area hs h.tree) ?_
    cases hf : firstAbove addr l with
    | none => exact .ret ⟨h, rfl⟩
    | some x =>
      obtain ⟨A, B, rfl, -, -⟩ := firstAbove_eq_some hf
      refine .ret ⟨⟨h.area, h.list, h.tree, h.valid, h.count, ?_⟩, rfl⟩
      intro p hp
      obtain rfl := Option.some.inj hp
      simp [ptrs]
  rw [findVma]
  cases hc : mm.mmapCache with
  | none => exact htree
  | some p =>
    obtain ⟨⟨q, a⟩, hmem, rfl⟩ := mem_map.mp (h.cache p hc)
    refine .bind_eq (h.area _ hmem) (.ite (fun hhit => ?_) fun _ => htree)
    refine .ret ⟨h, ?_⟩
    obtain ⟨A, B, rfl⟩ := append_of_mem hmem
    have hnone : firstAbove addr A = none := firstAbove_eq_none fun y hy => by
      have : y.2.vmEnd ≤ a.vmStart := hs.around.1 y hy
      have := hhit.2
      simp only at this
      omega
    rw [firstAbove_node hs, if_pos hhit.1, hnone]
    rfl

/-- `prev ? prev->vm_next : mm->mmap` is the VMA at a cut of the list. -/
theorem nextOrFirst_eq (h : Rep mm (A ++ B)) :
    mm.nextOrFirst (A.getLast?.map fst) = some (B.head?.map fst) := by
  rcases eq_nil_or_concat A with rfl | ⟨A, ⟨p, a⟩, rfl⟩
  · simpa [Mm.nextOrFirst] using h.mmap_eq
  · rw [concat_eq_append, append_assoc, singleton_append] at h
    simp [Mm.nextOrFirst, Mm.next, h.area_mem, h.links.2]

theorem next_eq (h : mm.area p = some a) : mm.next p = some (mm.vmNext p) := by
  rw [Mm.next, h]
  rfl

/-! ### Three pages -/

/-- A page of private memory, the `i`-th. -/
def onePage (i : Nat) (f : Flags) : Area :=
  { vmStart := i * PAGE_SIZE, vmEnd := (i + 1) * PAGE_SIZE, vmPgoff := BitVec.ofNat 32 i,
    vmFlags := f, vmFile := none, vmClose := false }

def threeAreas : List (Ptr × Area) :=
  [(1, onePage 1 VM_WRITE), (2, onePage 2 VM_READ), (3, onePage 3 VM_WRITE)]

/-- Three VMAs of a page each. Only the last has an `anon_vma`, and the next clone fails. -/
def threePagesMm : Mm :=
  { Mm.empty with
    area := fun p => threeAreas.lookup p
    vmNext := fun p => if p = 1 then some 2 else if p = 2 then some 3 else none
    vmPrev := fun p => if p = 2 then some 1 else if p = 3 then some 2 else none
    anonVma := fun p => if p = 3 then some 7 else none
    anonChain := fun p => if p = 3 then [7] else []
    mmap := some 1
    mmRb := .node .black (.node .red .leaf 1 .leaf) 2 (.node .red .leaf 3 .leaf)
    mapCount := 3
    clones := [1] }

theorem rep_threePagesMm : Rep threePagesMm threeAreas where
  area := by decide
  list := ⟨⟨rfl, rfl, rfl, rfl, rfl, rfl, rfl⟩, by decide⟩
  tree := rfl
  valid := ⟨1, .black (.red .leaf .leaf) (.red .leaf .leaf)⟩
  count := rfl
  cache := nofun

theorem sorted_threeAreas : Sorted threeAreas := ⟨by decide, by decide, by decide, by decide⟩

/-! ### Two pages with a gap -/

def twoAreas (i j : Nat) : List (Ptr × Area) := [(1, onePage i VM_WRITE), (2, onePage j VM_WRITE)]

/-- Two VMAs of a page each. Only the second has an `anon_vma`, and the next clone fails. -/
def twoPagesMm (i j : Nat) : Mm :=
  { Mm.empty with
    area := fun p => (twoAreas i j).lookup p
    vmNext := fun p => if p = 1 then some 2 else none
    vmPrev := fun p => if p = 2 then some 1 else none
    anonVma := fun p => if p = 2 then some 7 else none
    anonChain := fun p => if p = 2 then [7] else []
    mmap := some 1
    mmRb := .node .black .leaf 1 (.node .red .leaf 2 .leaf)
    mapCount := 2
    clones := [1] }

theorem rep_twoPagesMm (i j : Nat) : Rep (twoPagesMm i j) (twoAreas i j) where
  area := List.forall_mem_cons.mpr ⟨rfl, List.forall_mem_singleton.mpr rfl⟩
  list := ⟨⟨rfl, rfl, rfl, rfl, rfl⟩, (by decide : [1, 2].Nodup)⟩
  tree := rfl
  valid := ⟨1, .black .leaf (.red .leaf .leaf)⟩
  count := rfl
  cache := nofun

end SilanKernel.Mmap
