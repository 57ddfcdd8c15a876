import SilanKernel.Mm.VmaRep

/-!
# SilanKernel.Mm.VmaFind

The searches **`find_vma_prev` and `find_vma_prepare`**, and linking a VMA where the second says.

An address cuts the list of VMAs into those that end at or below it and those that end above
it. Both searches are specified by the parts on either side of the cut. If the address is in
no VMA, the place in the tree that `find_vma_prepare` returns is the one between the parts,
and `vma_link` puts a VMA there, in the list and in the tree.
-/

namespace SilanKernel.Mmap

open DList Function Rbtree SegMap Prod

variable {mm : Mm} {l A B : List (Ptr × Area)} {p x : Ptr} {a : Area} {addr : Nat} {path : Path Ptr}
  {o : Option Ptr} {t : Rbtree.Tree Ptr}

/-- The VMAs before the first that ends above an address. -/
def upTo (addr : Nat) (l : List (Ptr × Area)) : List (Ptr × Area) :=
  l.takeWhile fun x => x.2.vmEnd ≤ addr

/-- The list is cut in two by an address. -/
theorem exists_cut (hs : Sorted l) (addr : Nat) :
    ∃ B, l = upTo addr l ++ B ∧ (∀ y ∈ upTo addr l, y.2.vmEnd ≤ addr) ∧
      (∀ y ∈ B, addr < y.2.vmEnd) ∧ firstAbove addr l = B.head? := by
  induction l with
  | nil => exact ⟨[], rfl, by simp [upTo], by simp, rfl⟩
  | cons y l ih =>
    obtain ⟨⟨hy, -, -⟩, hs', hafter⟩ := sorted_cons.mp hs
    by_cases hend : y.2.vmEnd ≤ addr
    · obtain ⟨B, hl, hA, hB, hfirst⟩ := ih hs'
      have hcons : upTo addr (y :: l) = y :: upTo addr l := by simp [upTo, hend]
      rw [hcons]
      refine ⟨B, by rw [List.cons_append, ← hl], List.forall_mem_cons.mpr ⟨hend, hA⟩, hB, ?_⟩
      rw [← hfirst]
      simp [firstAbove, hend]
    · have hnil : upTo addr (y :: l) = [] := by simp [upTo, hend]
      rw [hnil]
      refine ⟨y :: l, rfl, by simp, List.forall_mem_cons.mpr ⟨by omega, fun z hz => ?_⟩, ?_⟩
      · have h1 : y.2.vmEnd ≤ z.2.vmStart := hafter z hz
        have h2 : z.2.vmStart < z.2.vmEnd := hs'.nonempty z hz
        omega
      · simp [firstAbove, Nat.lt_of_not_le hend]

/-- A member of a list cut in two is in the second part or in the first. -/
theorem mem_half {α : Type} {A B M N : List α} {x : α} (h : A ++ B = M ++ x :: N) :
    (∃ k, M = A ++ k ∧ B = k ++ x :: N) ∨ ∃ k, A = M ++ x :: k ∧ N = k ++ B := by
  rcases List.append_eq_append_iff.mp h with ⟨k, hM, hB⟩ | ⟨k, hA, hN⟩
  · exact .inl ⟨k, hM, hB⟩
  cases k with
  | nil =>
    rw [List.append_nil] at hA
    exact .inl ⟨[], by simp [hA], hN.symm⟩
  | cons y k =>
    simp only [List.cons_append, List.cons.injEq] at hN
    obtain ⟨rfl, rfl⟩ := hN
    exact .inr ⟨k, hA, rfl⟩

/-! ### Searches -/

/-- The loop of `find_vma_prepare` finds the VMA after the cut and, where the address is in no
VMA, the one before it and the place in the tree between them. -/
theorem findVmaPrepareLoop_spec {vma prev : Option Ptr} (ha : AreasOf mm (A ++ B))
    (hs : Sorted (A ++ B)) (ht : t.toList = ptrs (A ++ B)) (hA : ∀ y ∈ A, y.2.vmEnd ≤ addr)
    (hB : ∀ y ∈ B, addr < y.2.vmEnd) :
    Ends (findVmaPrepareLoop mm addr t path vma prev) fun r =>
      r.1 = (B.head?.map fst).or vma ∧
        ((∀ y ∈ B, addr < y.2.vmStart) → r.2.1 = (A.getLast?.map fst).or prev ∧
          plug r.2.2 .leaf = plug path t ∧ before r.2.2 = before path ++ ptrs A ∧
          after r.2.2 = ptrs B ++ after path) := by
  induction t generalizing A B path vma prev with
  | leaf =>
    have hnil : A ++ B = [] := List.map_eq_nil_iff.mp ht.symm
    obtain ⟨rfl, rfl⟩ := List.append_eq_nil_iff.mp hnil
    exact .ret ⟨rfl, fun _ => ⟨rfl, rfl, by simp [ptrs], by simp [ptrs]⟩⟩
  | node c lt p rt ihl ihr =>
    obtain ⟨M, a, N, hl, hM, hN⟩ := ptrs_eq_node ht
    rw [hl] at ha hs
    obtain ⟨haM, hp, haN⟩ := ha.node
    obtain ⟨hsM, hsN, -⟩ := sorted_append.mp hs
    rcases mem_half hl with ⟨k, rfl, rfl⟩ | ⟨k, rfl, rfl⟩
    · -- The root is after the cut.
      have hend : addr < a.vmEnd := hB (p, a) (by simp)
      refine .bind_eq hp ?_
      rw [if_pos hend]
      refine .ite (fun hstart => .ret ⟨?_, fun hgap => ?_⟩) fun hstart => ?_
      · cases k with
        | nil => rfl
        | cons y k =>
          have h1 := hB y (by simp)
          have h2 : y.2.vmEnd ≤ a.vmStart := hs.around.1 y (by simp)
          omega
      · have : addr < a.vmStart := hgap (p, a) (by simp)
        omega
      · refine (ihl haM hsM hM.symm hA fun y hy => hB y (by simp [hy])).mono ?_
        rintro r ⟨hfound, hplace⟩
        refine ⟨?_, fun hgap => ?_⟩
        · rw [hfound]
          cases k <;> rfl
        · obtain ⟨hprev, hplug, hbefore, hafter⟩ := hplace fun y hy => hgap y (by simp [hy])
          refine ⟨hprev, hplug, hbefore, ?_⟩
          rw [hafter]
          simp [after, ptrs, ← hN]
    · have hend : ¬ a.vmEnd > addr := Nat.not_lt.mpr (hA (p, a) (by simp))
      refine .bind_eq hp ?_
      rw [if_neg hend]
      refine (ihr haN (sorted_cons.mp hsN).2.1 hN.symm (fun y hy => hA y (by simp [hy])) hB).mono ?_
      rintro r ⟨hfound, hplace⟩
      refine ⟨hfound, fun hgap => ?_⟩
      obtain ⟨hprev, hplug, hbefore, hafter⟩ := hplace hgap
      refine ⟨?_, hplug, ?_, hafter⟩
      · rw [hprev, List.getLast?_append, List.getLast?_cons]
        cases k.getLast? <;> rfl
      · rw [hbefore]
        simp [before, ptrs, ← hM]

/-- The loop of `find_vma_prev`: `A` is what the search has passed, `K` and `L` are the
VMAs of the subtree on both sides of the address, `C` is what is left of it to the right. -/
theorem findVmaPrevLoop_eq {K L C : List (Ptr × Area)}
    (h : Rep mm (A ++ (K ++ (L ++ C)))) (ht : t.toList = ptrs (K ++ L))
    (hK : ∀ y ∈ K, y.2.vmEnd ≤ addr) (hC : ∀ y ∈ L ++ C, addr < y.2.vmEnd) :
    findVmaPrevLoop mm addr t (A.getLast?.map fst) = some ((A ++ K).getLast?.map fst) := by
  induction t generalizing A K L C with
  | leaf =>
    have hnil : K ++ L = [] := List.map_eq_nil_iff.mp ht.symm
    obtain ⟨rfl, rfl⟩ := List.append_eq_nil_iff.mp hnil
    simp [findVmaPrevLoop]
  | node c lt p rt ihl ihr =>
    obtain ⟨M, a, N, hl, hM, hN⟩ := ptrs_eq_node ht
    have hp : mm.area p = some a := by
      refine h.area (p, a) ?_
      have hmem : (p, a) ∈ K ++ L := by simp [hl]
      rcases List.mem_append.mp hmem with hmem | hmem <;> simp [hmem]
    simp only [findVmaPrevLoop, hp, Option.bind_eq_bind, Option.bind_some]
    rcases mem_half hl with ⟨k, rfl, rfl⟩ | ⟨k, rfl, rfl⟩
    · have hend : addr < a.vmEnd := hC (p, a) (by simp)
      rw [if_pos hend]
      refine ihl (L := k) (C := (p, a) :: (N ++ C)) (by simpa using h) hM.symm hK ?_
      intro y hy
      exact hC y (by simpa [or_assoc] using hy)
    have hend : ¬ addr < a.vmEnd := Nat.not_lt.mpr (hK (p, a) (by simp))
    have h' : Rep mm ((A ++ M) ++ (p, a) :: (k ++ (L ++ C))) := by simpa using h
    have hlast : (A ++ (M ++ [(p, a)])).getLast?.map fst = some p := by
      simp [← List.append_assoc]
    rw [if_neg hend, h'.links.2]
    cases k with
    | nil =>
      -- The next VMA, if any, ends above the address.
      rw [hlast]
      cases hy : L ++ C with
      | nil => rfl
      | cons y rest =>
        have harea : mm.area y.1 = some y.2 := h'.area y (by simp [hy])
        simp [List.head?_cons, harea, if_pos (hC y (by simp [hy]))]
    | cons y k =>
      have harea : mm.area y.1 = some y.2 := h'.area y (by simp)
      have hyend : ¬ addr < y.2.vmEnd := Nat.not_lt.mpr (hK y (by simp))
      simp only [List.cons_append, List.head?_cons, Option.map_some, harea, Option.bind_some,
        if_neg hyend]
      have hrest := ihr (A := A ++ (M ++ [(p, a)])) (K := y :: k) (by simpa using h) hN.symm
        (fun z hz => hK z (by simp [List.mem_cons.mp hz])) hC
      rw [hlast] at hrest
      rw [hrest]
      simp

/-- `find_vma_prev` finds the VMAs on both sides of a cut. -/
theorem findVmaPrev_eq (h : Rep mm (A ++ B)) (hA : ∀ y ∈ A, y.2.vmEnd ≤ addr)
    (hB : ∀ y ∈ B, addr < y.2.vmEnd) :
    findVmaPrev mm addr = some (B.head?.map fst, A.getLast?.map fst) := by
  have hloop : findVmaPrevLoop mm addr mm.mmRb none = some (A.getLast?.map fst) := by
    have := findVmaPrevLoop_eq (t := mm.mmRb) (A := []) (K := A) (L := B) (C := [])
      (by simpa using h) h.tree hA (by simpa using hB)
    simpa using this
  simp [findVmaPrev, hloop, nextOrFirst_eq h]

/-! ### Linking -/

theorem setNext_eq (h : mm.area p = some a) :
    mm.setNext p o = some { mm with vmNext := update mm.vmNext p o } := by
  rw [Mm.setNext, h]
  rfl

theorem setPrev_eq (h : mm.area p = some a) :
    mm.setPrev p o = some { mm with vmPrev := update mm.vmPrev p o } := by
  rw [Mm.setPrev, h]
  rfl

theorem setPrev?_eq (h : ∀ q, o = some q → ∃ b, mm.area q = some b) :
    mm.setPrev? o v = some
      { mm with vmPrev := fun q => if o = some q then v else mm.vmPrev q } := by
  cases o with
  | none => simp [Mm.setPrev?]
  | some p =>
    obtain ⟨b, hb⟩ := h p rfl
    rw [Mm.setPrev?, setPrev_eq hb]
    congr 2
    funext q
    simp [update_apply, eq_comm]

/-- The head of a part of the list is live. -/
theorem Rep.live_head (h : Rep mm (A ++ B)) (q : Ptr) (hq : B.head?.map fst = some q) :
    ∃ b, mm.area q = some b := by
  obtain ⟨y, hy, rfl⟩ := Option.map_eq_some_iff.mp hq
  exact ⟨y.2, h.area y (by simp [List.mem_of_head? hy])⟩

/-- The parent of the first place of a tree is its first node. -/
theorem head?_after (h : before path = []) : (after path).head? = path.head?.map Frame.entry := by
  cases path with
  | nil => rfl
  | cons f path =>
    cases hd : f.dir with
    | left => simp [after, hd]
    | right => simp [before, hd] at h

/-- `__vma_link_list` between two parts of the list. -/
theorem vmaLinkList_spec (h : Rep mm (A ++ B)) (hx : mm.area x = some a)
    (hfresh : x ∉ ptrs (A ++ B)) (hbefore : before path = ptrs A) (hafter : after path = ptrs B) :
    Ends (vmaLinkList mm x (A.getLast?.map fst) path) fun mm' =>
      IsList mm'.vmNext mm'.vmPrev mm'.mmap (ptrs A ++ x :: ptrs B) ∧
        mm' = { mm with vmNext := mm'.vmNext, vmPrev := mm'.vmPrev, mmap := mm'.mmap } := by
  have hlist : IsList mm.vmNext mm.vmPrev mm.mmap (ptrs A ++ ptrs B) := by
    rw [← List.map_append]
    exact h.list
  have hne : ∀ q ∈ ptrs A ++ ptrs B, q ≠ x := fun q hq e =>
    hfresh (by rw [ptrs, List.map_append, ← e]; exact hq)
  have hfirst : B.head?.map fst ≠ some x := fun e => by
    rw [← List.head?_map] at e
    exact hne x (List.mem_append_right _ (List.mem_of_head? e)) rfl
  -- The links of `x` back and of the VMA after it are set alike in both branches.
  have hback : ∀ q ∈ ptrs A ++ ptrs B,
      (if B.head?.map fst = some q then some x
        else update mm.vmPrev x (A.getLast?.map fst) q) =
      if (ptrs B).head? = some q then some x else mm.vmPrev q := fun q hq => by
    rw [update_of_ne (hne q hq), List.head?_map]
  have hnext := nextOrFirst_eq h
  refine .bind_eq (setPrev_eq hx) ?_
  rcases List.eq_nil_or_concat A with rfl | ⟨A', ⟨p, b⟩, rfl⟩
  · have hhead : path.head?.map Frame.entry = B.head?.map fst := by
      rw [← head?_after hbefore, hafter, List.head?_map]
    dsimp only [List.getLast?_nil, Option.map_none]
    rw [hhead]
    refine .bind_eq (setNext_eq (a := a) hx) ⟨_, setPrev?_eq (by exact h.live_head), ?_, rfl⟩
    dsimp only
    refine hlist.insert (fun hmem => hne x hmem rfl) ?_ ?_ (fun q hq => ?_) hback
    · rw [update_self, List.head?_map]
    · rw [if_neg hfirst, update_self]
      rfl
    · rw [update_of_ne (hne q hq)]
      rfl
  · rw [List.concat_eq_append] at h hback hlist hnext hne ⊢
    simp only [List.getLast?_concat, Option.map_some, Mm.nextOrFirst] at hback hnext ⊢
    have hp : mm.area p = some b := h.area (p, b) (by simp)
    rw [next_eq hp] at hnext
    have hnext := Option.some.inj hnext
    refine .bind_eq (next_eq hp) (.bind_eq (setNext_eq hp) (.bind_eq (setNext_eq hx) ?_))
    dsimp only
    rw [hnext]
    refine ⟨_, setPrev?_eq (by exact h.live_head), ?_, rfl⟩
    dsimp only
    have hhd : mm.mmap = if ptrs (A' ++ [(p, b)]) = [] then some x else mm.mmap := by simp [ptrs]
    rw [hhd]
    refine hlist.insert (fun hmem => hne x hmem rfl) ?_ ?_ (fun q hq => ?_) hback
    · rw [update_self, List.head?_map]
    · rw [if_neg hfirst, update_self]
      simp [ptrs]
    · rw [update_of_ne (hne q hq), update_apply]
      simp [ptrs, eq_comm]

/-- **Linking a VMA** between two parts of the list, at the place in the tree between them. -/
theorem vmaLink_spec (h : Rep mm (A ++ B)) (hx : mm.area x = some a) (hfresh : x ∉ ptrs (A ++ B))
    (hplug : plug path .leaf = mm.mmRb) (hbefore : before path = ptrs A)
    (hafter : after path = ptrs B) :
    Ends (vmaLink mm x (A.getLast?.map fst) path) fun mm' => Rep mm' (A ++ (x, a) :: B) := by
  obtain ⟨t, ht, hv, htl⟩ := rbInsert_spec (x := x) (p := path) (by rw [hplug]; exact h.valid)
  have hptrs : ptrs (A ++ (x, a) :: B) = ptrs A ++ x :: ptrs B := by simp [ptrs]
  refine .bind (vmaLinkList_spec h hx hfresh hbefore hafter) ?_
  rintro mm1 ⟨hlist, hmm1⟩
  obtain ⟨next, prev, first, rfl⟩ : ∃ next prev first,
      mm1 = { mm with vmNext := next, vmPrev := prev, mmap := first } := ⟨_, _, _, hmm1⟩
  simp only [vmaLinkRb, guard, if_pos hplug, ht, Option.bind_eq_bind, Option.bind_some, pure_bind]
  refine .ret ⟨fun y hy => ?_, by rwa [hptrs], ?_, hv, ?_, fun p hp => ?_⟩
  · rcases List.mem_append.mp hy with hy | hy
    · exact h.area y (by simp [hy])
    · rcases List.mem_cons.mp hy with rfl | hy
      · exact hx
      · exact h.area y (by simp [hy])
  · rw [hptrs, htl, hbefore, hafter]
  · have := h.count
    simp only [List.length_append, List.length_cons] at this ⊢
    push_cast at this ⊢
    omega
  · have := h.cache p hp
    rw [hptrs]
    simp only [ptrs, List.map_append, List.mem_append, List.mem_cons] at this ⊢
    exact this.imp_right .inr

/-- The VMA `x` can be linked: it is live, not in the list, a range of pages, and no VMA of the
list overlaps it. -/
structure Linkable (mm : Mm) (l : List (Ptr × Area)) (x : Ptr) (a : Area) : Prop where
  area : mm.area x = some a
  fresh : x ∉ ptrs l
  range : a.vmStart < a.vmEnd ∧ PAGE_SIZE ∣ a.vmStart ∧ PAGE_SIZE ∣ a.vmEnd
  apart : ∀ y ∈ l, y.2.vmEnd ≤ a.vmStart ∨ a.vmEnd ≤ y.2.vmStart

/-- **The three searches agree.** Whatever the cache holds, `find_vma` and `find_vma_prev` return
the first VMA that ends above the address, and the second the VMA before it. `find_vma_prepare`
returns it too, with a place at which any VMA that starts at the address and overlaps no other
can be linked, so that list and tree are in order afterwards. -/
theorem vma_searches (mm : Mm) (l : List (Ptr × Area)) (h : Rep mm l) (hs : Sorted l) (addr : Nat) :
    (∃ mm', findVma mm addr = some (mm', (firstAbove addr l).map Prod.fst) ∧ Rep mm' l) ∧
      findVmaPrev mm addr =
        some ((firstAbove addr l).map Prod.fst, (upTo addr l).getLast?.map Prod.fst) ∧
      ∃ prev path, findVmaPrepare mm addr = some ((firstAbove addr l).map Prod.fst, prev, path) ∧
        ∀ x a, Linkable mm l x a → a.vmStart = addr →
          ∃ mm', vmaLink mm x prev path = some mm' ∧ ∃ B, l = upTo addr l ++ B ∧
            Rep mm' (upTo addr l ++ (x, a) :: B) ∧ Sorted (upTo addr l ++ (x, a) :: B) := by
  obtain ⟨B, hl, hA, hB, hfirst⟩ := exists_cut hs addr
  have h' : Rep mm (upTo addr l ++ B) := hl ▸ h
  have hs' : Sorted (upTo addr l ++ B) := hl ▸ hs
  rw [hfirst]
  refine ⟨?_, findVmaPrev_eq h' hA hB, ?_⟩
  · obtain ⟨⟨mm', vma⟩, hfind, hrep, hvma⟩ : Ends (findVma mm addr) _ := findVma_spec h hs
    exact ⟨mm', by rw [hfind, ← hfirst, ← hvma], hrep⟩
  obtain ⟨⟨vma, prev, path⟩, hprep, hvma, hplace⟩ : Ends (findVmaPrepare mm addr) _ :=
    findVmaPrepareLoop_spec h'.area hs' h'.tree hA hB
  rw [Option.or_none] at hvma
  obtain rfl := hvma
  refine ⟨prev, path, hprep, fun x a hx hstart => ?_⟩
  have hbehind : ∀ y ∈ B, a.vmEnd ≤ y.2.vmStart := fun y hy => by
    have := hB y hy
    exact (hx.apart y (by rw [hl]; simp [hy])).resolve_left (by omega)
  obtain ⟨hprev, hplug, hbefore, hafter⟩ := hplace fun y hy => by
    have h1 := hx.range.1
    have h2 := hbehind y hy
    omega
  rw [Option.or_none] at hprev
  obtain rfl := hprev
  obtain ⟨mm', hlink, hrep⟩ := vmaLink_spec h' hx.area (hl ▸ hx.fresh) hplug
    (by simpa [before] using hbefore) (by simpa [after] using hafter)
  obtain ⟨hsA, hsB, hcross⟩ := sorted_append.mp hs'
  refine ⟨mm', hlink, B, hl, hrep, ?_⟩
  refine sorted_append.mpr ⟨hsA, sorted_cons.mpr ⟨hx.range, hsB, hbehind⟩, fun y hy z hz => ?_⟩
  rcases List.mem_cons.mp hz with rfl | hz
  · show y.2.vmEnd ≤ a.vmStart
    rw [hstart]
    exact hA y hy
  · exact hcross y hy z hz

theorem vma_searches_threePages : Rep threePagesMm threeAreas ∧ Sorted threeAreas ∧
    findVmaPrev threePagesMm 0x2800 = some (some 2, some 1) :=
  ⟨rep_threePagesMm, sorted_threeAreas,
    (vma_searches threePagesMm threeAreas rep_threePagesMm sorted_threeAreas 0x2800).2.1⟩

end SilanKernel.Mmap
