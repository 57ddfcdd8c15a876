import SilanKernel.Data.Mask
import SilanKernel.Mm.VmaRep

/-!
# SilanKernel.Csky.UnmappedArea

A model of `arch_get_unmapped_area` of `arch/csky/mm/mmap.c`, **the search for a free range of
user addresses**, and what it returns.

The search walks the VMA list from the first VMA that ends above the lower bound of the
search. For mappings that may share cache lines it moves every candidate up to an address
with the colour of the page offset, which can take it past the next VMA. So it is not true
that the candidate lies below the end of the VMA at hand, as the comment in the code has it;
what holds is that every VMA before it ends at or before the candidate.
-/

namespace SilanKernel.Csky.UnmappedArea

open List Mmap SegMap BitVec

abbrev Word := BitVec 32

def MAP_SHARED : Word := 0x01
def MAP_FIXED : Word := 0x10

def TASK_UNMAPPED_BASE : Word := 0x7fff8000#32 / 3

/-- `SHMLBA`, four pages. -/
def SHMLBA : Nat := 4 * PAGE_SIZE

def shmAlignMask : Word := BitVec.ofNat 32 (SHMLBA - 1)

/-- `COLOUR_ALIGN` -/
def colourAlign (addr pgoff : Word) : Word :=
  ((addr + shmAlignMask) &&& ~~~shmAlignMask) + ((pgoff <<< 12) &&& shmAlignMask)

/-- `PAGE_ALIGN` -/
def pageAlignWord (addr : Word) : Word := (addr + 4095#32) &&& ~~~4095#32

/-- `TASK_SIZE - len` -/
def highest (len : Word) : Word := BitVec.ofNat 32 TASK_SIZE - len

/-- A negative error number as an address. -/
def errno (e : Int) : Word := BitVec.ofInt 32 (-e)

/-- The loop over the VMAs. A loop that has not come to an end after `fuel` turns gives
`none`. -/
def searchLoop (mm : Mm) (doColorAlign : Bool) (len pgoff : Word) : Nat → Option Ptr →
    Word → Option Word
  | 0, _, _ => none
  | fuel + 1, vmm, addr =>
    if highest len < addr then
      some (errno Mmap.ENOMEM)
    else
      match vmm with
      | none => some addr
      | some p => do
        let a ← mm.area p
        if (addr + len).toNat ≤ a.vmStart then
          some addr
        else do
          let addr := BitVec.ofNat 32 a.vmEnd
          let addr := if doColorAlign then colourAlign addr pgoff else addr
          let next ← mm.next p
          searchLoop mm doColorAlign len pgoff fuel next addr

/-- The search from `TASK_UNMAPPED_BASE` on. -/
def searchFromBase (fuel : Nat) (mm : Mm) (doColorAlign : Bool) (len pgoff : Word) :
    Option (Mm × Word) := do
  let addr :=
    if doColorAlign then colourAlign TASK_UNMAPPED_BASE pgoff else pageAlignWord TASK_UNMAPPED_BASE
  let (mm, vmm) ← findVma mm addr.toNat
  let r ← searchLoop mm doColorAlign len pgoff fuel vmm addr
  some (mm, r)

/-- `arch_get_unmapped_area` -/
def archGetUnmappedArea (fuel : Nat) (mm : Mm) (filp : Option Nat) (addr len pgoff flags : Word) :
    Option (Mm × Word) :=
  if flags &&& MAP_FIXED ≠ 0 then
    if flags &&& MAP_SHARED ≠ 0 ∧ (addr - (pgoff <<< 12)) &&& shmAlignMask ≠ 0 then
      some (mm, errno Mmap.EINVAL)
    else some (mm, addr)
  else if len.toNat > TASK_SIZE then
    some (mm, errno Mmap.ENOMEM)
  else
    let doColorAlign := filp.isSome || flags &&& MAP_SHARED ≠ 0
    if addr ≠ 0 then do
      let addr := if doColorAlign then colourAlign addr pgoff else pageAlignWord addr
      let (mm, vmm) ← findVma mm addr.toNat
      if highest len ≥ addr then
        match vmm with
        | none => some (mm, addr)
        | some p => do
          let a ← mm.area p
          if (addr + len).toNat ≤ a.vmStart then some (mm, addr)
          else searchFromBase fuel mm doColorAlign len pgoff
      else searchFromBase fuel mm doColorAlign len pgoff
    else
      searchFromBase fuel mm doColorAlign len pgoff

/-! ### Alignment -/

variable {mm : Mm} {l : List (Ptr × Area)} {fuel : Nat} {addr len pgoff flags : Word}

/-- An address on a page boundary that has the colour of the offset if it must. -/
structure Placed (c : Bool) (pgoff addr : Word) : Prop where
  page : PAGE_SIZE ∣ addr.toNat
  colour : c = true → addr.toNat % SHMLBA = pgoff.toNat * PAGE_SIZE % SHMLBA

theorem toNat_colour (pgoff : Word) :
    ((pgoff <<< 12) &&& shmAlignMask).toNat = pgoff.toNat * PAGE_SIZE % SHMLBA := by
  rw [Mask.toNat_and_mask (k := 14) rfl, toNat_shiftLeft, Nat.shiftLeft_eq]
  show pgoff.toNat * 4096 % 4294967296 % 16384 = pgoff.toNat * 4096 % 16384
  omega

theorem toNat_colourAlign (addr pgoff : Word) : (colourAlign addr pgoff).toNat =
      ((addr.toNat + 16383) % 2 ^ 32 / 16384 * 16384 + pgoff.toNat * PAGE_SIZE % SHMLBA)
      % 2 ^ 32 := by
  rw [colourAlign, toNat_add, toNat_colour, Mask.toNat_and_not_mask (k := 14) rfl, toNat_add]
  rfl

theorem placed_colourAlign (addr pgoff : Word) : Placed c pgoff (colourAlign addr pgoff) := by
  have heq := toNat_colourAlign addr pgoff
  rw [PAGE_SIZE, SHMLBA, PAGE_SIZE] at heq
  constructor
  · rw [PAGE_SIZE]
    omega
  · intro _
    rw [PAGE_SIZE, SHMLBA, PAGE_SIZE]
    omega

theorem toNat_pageAlignWord (addr : Word) : (pageAlignWord addr).toNat =
    (addr.toNat + 4095) % 2 ^ 32 / 4096 * 4096 := by
  rw [pageAlignWord, Mask.toNat_and_not_mask (k := 12) rfl, toNat_add]
  rfl

theorem placed_pageAlignWord (addr pgoff : Word) : Placed false pgoff (pageAlignWord addr) := by
  refine ⟨?_, by simp⟩
  rw [toNat_pageAlignWord, PAGE_SIZE]
  exact Nat.dvd_mul_left _ _

/-- Moving a user address to its colour does not take it down. -/
theorem le_colourAlign (h : addr.toNat ≤ TASK_SIZE) :
    addr.toNat ≤ (colourAlign addr pgoff).toNat := by
  have heq := toNat_colourAlign addr pgoff
  rw [PAGE_SIZE, SHMLBA, PAGE_SIZE] at heq
  rw [TASK_SIZE] at h
  omega

/-! ### The search -/

/-- A range that the search may return. -/
structure Free (l : List (Ptr × Area)) (c : Bool) (len pgoff r : Word) :
    Prop extends Placed c pgoff r where
  below : r.toNat + len.toNat ≤ TASK_SIZE
  apart : ∀ x ∈ l, r.toNat + len.toNat ≤ x.2.vmStart ∨ x.2.vmEnd ≤ r.toNat

theorem toNat_highest (hlen : len.toNat ≤ TASK_SIZE) :
    (highest len).toNat = TASK_SIZE - len.toNat := by
  rw [highest, toNat_sub_of_le (by rw [le_def]; exact hlen)]
  rfl

/-- A candidate that fits before the VMA at hand. -/
theorem free_of_fits (hs : Sorted (A ++ B)) (hplaced : Placed c pgoff addr)
    (hlen : len.toNat ≤ TASK_SIZE) (hhigh : ¬ highest len < addr)
    (hA : ∀ x ∈ A, x.2.vmEnd ≤ addr.toNat)
    (hB : ∀ x, B.head? = some x → (addr + len).toNat ≤ x.2.vmStart) :
    Free (A ++ B) c len pgoff addr := by
  rw [lt_def, toNat_highest hlen] at hhigh
  have hsum : (addr + len).toNat = addr.toNat + len.toNat := by
    rw [toNat_add]
    exact Nat.mod_eq_of_lt (by rw [TASK_SIZE] at hlen hhigh; omega)
  refine ⟨hplaced, by omega, fun x hx => ?_⟩
  rcases mem_append.mp hx with hx | hx
  · exact .inr (hA x hx)
  left
  cases B with
  | nil => nomatch hx
  | cons y B =>
    have hy := hB y rfl
    rw [hsum] at hy
    rcases mem_cons.mp hx with rfl | hx
    · exact hy
    · have hlt : y.2.vmStart < y.2.vmEnd := hs.nonempty y (by simp)
      have hle : y.2.vmEnd ≤ x.2.vmStart := hs.around.2 x hx
      omega

/-- The loop, from a candidate that all VMAs before the one at hand end below. It makes at
most one turn for each VMA. -/
theorem searchLoop_spec (h : Rep mm (A ++ B)) (hs : Sorted (A ++ B))
    (hmax : ∀ x ∈ A ++ B, x.2.vmEnd ≤ TASK_SIZE) (hlen : len.toNat ≤ TASK_SIZE)
    (hplaced : Placed c pgoff addr) (hA : ∀ x ∈ A, x.2.vmEnd ≤ addr.toNat)
    (hfuel : B.length < fuel) :
    Ends (searchLoop mm c len pgoff fuel (B.head?.map Prod.fst) addr) fun r =>
      r = errno Mmap.ENOMEM ∨ Free (A ++ B) c len pgoff r := by
  induction fuel generalizing A B addr with
  | zero => exact absurd hfuel (Nat.not_lt_zero _)
  | succ fuel ih =>
    rw [searchLoop.eq_def]
    refine .ite (fun _ => .ret (.inl rfl)) fun hhigh => ?_
    cases B with
    | nil => exact .ret (.inr (free_of_fits hs hplaced hlen hhigh hA nofun))
    | cons x B =>
      obtain ⟨p, a⟩ := x
      refine .bind_eq h.area_mem (.ite (fun hfits => ?_) fun _ => ?_)
      · refine .ret (.inr (free_of_fits hs hplaced hlen hhigh hA fun x hx => ?_))
        obtain rfl := Option.some.inj hx
        exact hfits
      -- the next candidate is at the end of this VMA, or above it
      have ha : a.vmEnd ≤ TASK_SIZE := hmax (p, a) (by simp)
      have hend : (BitVec.ofNat 32 a.vmEnd).toNat = a.vmEnd := by
        rw [BitVec.toNat_ofNat]
        exact Nat.mod_eq_of_lt (by rw [TASK_SIZE] at ha; omega)
      have hbefore : ∀ x ∈ A ++ [(p, a)], x.2.vmEnd ≤ a.vmEnd := by
        intro x hx
        rcases mem_append.mp hx with hx | hx
        · have hle : x.2.vmEnd ≤ a.vmStart := hs.around.1 x hx
          have hlt : a.vmStart < a.vmEnd := hs.nonempty (p, a) (by simp)
          omega
        · rw [mem_singleton.mp hx]
      have hpage : PAGE_SIZE ∣ a.vmEnd := hs.dvd_hi (p, a) (by simp)
      refine .bind_eq ((next_eq h.area_mem).trans (congrArg some h.links.2)) ?_
      rw [show A ++ (p, a) :: B = (A ++ [(p, a)]) ++ B by simp] at h hs hmax ⊢
      refine ih h hs hmax ?_ (fun x hx => ?_) (Nat.lt_of_succ_lt_succ hfuel)
      · cases c with
        | true => exact placed_colourAlign _ pgoff
        | false => exact ⟨by rwa [if_neg Bool.false_ne_true, hend], by simp⟩
      · refine Nat.le_trans (hbefore x hx) ?_
        split
        · exact Nat.le_trans hend.ge (le_colourAlign (by rwa [hend]))
        · exact hend.ge

/-- The VMAs that end at or below an address, and the others. -/
theorem firstAbove_split (addr : Nat) (l : List (Ptr × Area)) :
    ∃ A B, l = A ++ B ∧ firstAbove addr l = B.head? ∧ ∀ x ∈ A, x.2.vmEnd ≤ addr := by
  cases hf : firstAbove addr l with
  | none =>
    refine ⟨l, [], by simp, rfl, fun x hx => ?_⟩
    simpa using find?_eq_none.mp hf x hx
  | some x =>
    obtain ⟨A, B, hl, -, hA⟩ := firstAbove_eq_some hf
    exact ⟨A, x :: B, hl, rfl, hA⟩

theorem placed_start (c : Bool) (addr pgoff : Word) :
    Placed c pgoff (if c then colourAlign addr pgoff else pageAlignWord addr) := by
  cases c with
  | true => exact placed_colourAlign addr pgoff
  | false => exact placed_pageAlignWord addr pgoff

section

variable (h : Rep mm l) (hs : Sorted l) (hmax : ∀ x ∈ l, x.2.vmEnd ≤ TASK_SIZE)
  (hlen : len.toNat ≤ TASK_SIZE) (hfuel : l.length < fuel)
include h hs hmax hlen hfuel

theorem searchFromBase_spec : Ends (searchFromBase fuel mm c len pgoff) fun s =>
      Rep s.1 l ∧ (s.2 = errno Mmap.ENOMEM ∨ Free l c len pgoff s.2) := by
  rw [searchFromBase]
  have hplaced := placed_start c TASK_UNMAPPED_BASE pgoff
  generalize (if c then colourAlign TASK_UNMAPPED_BASE pgoff else pageAlignWord TASK_UNMAPPED_BASE)
    = addr at hplaced
  refine (findVma_spec h hs).bind fun ⟨mm, vmm⟩ ⟨h, hvmm⟩ => ?_
  obtain ⟨A, B, rfl, hfirst, hA⟩ := firstAbove_split addr.toNat l
  rw [hfirst] at hvmm
  subst hvmm
  rw [length_append] at hfuel
  refine (searchLoop_spec h hs hmax hlen hplaced hA (by omega)).bind fun r hr => ?_
  exact .ret ⟨h, hr⟩

/-- The part for an address that is asked for. -/
theorem hint_spec (hplaced : Placed c pgoff addr) : Ends (do
      let (mm, vmm) ← findVma mm addr.toNat
      if highest len ≥ addr then
        match vmm with
        | none => some (mm, addr)
        | some p => do
          let a ← mm.area p
          if (addr + len).toNat ≤ a.vmStart then some (mm, addr)
          else searchFromBase fuel mm c len pgoff
      else searchFromBase fuel mm c len pgoff) fun s =>
      Rep s.1 l ∧ (s.2 = errno Mmap.ENOMEM ∨ Free l c len pgoff s.2) := by
  refine (findVma_spec h hs).bind fun ⟨mm, vmm⟩ ⟨h, hvmm⟩ => ?_
  have hbase : Ends (searchFromBase fuel mm c len pgoff) _ :=
    searchFromBase_spec h hs hmax hlen hfuel
  refine .ite (fun hhigh => ?_) fun _ => hbase
  obtain ⟨A, B, rfl, hfirst, hA⟩ := firstAbove_split addr.toNat l
  rw [hfirst] at hvmm
  subst hvmm
  have hfits := free_of_fits hs hplaced hlen (BitVec.not_lt.mpr hhigh) hA
  cases B with
  | nil => exact .ret ⟨h, .inr (hfits nofun)⟩
  | cons x B =>
    refine .bind_eq h.area_mem (.ite (fun hlt => .ret ⟨h, .inr (hfits fun x hx => ?_)⟩)
      fun _ => hbase)
    obtain rfl := Option.some.inj hx
    exact hlt

end

/-- `arch_get_unmapped_area` without `MAP_FIXED` comes to an end, with a turn of its loop for
every VMA at most. It returns `-ENOMEM`, or a range of user addresses that is free, on a page
boundary, and of the right colour if the mapping is of a file or shared. -/
theorem archGetUnmappedArea_free (mm : Mm) (l : List (Ptr × Area)) (filp : Option Nat)
    (addr len pgoff flags : Word) (fuel : Nat) (h : Rep mm l) (hs : Sorted l)
    (hmax : ∀ x ∈ l, x.2.vmEnd ≤ TASK_SIZE) (hfixed : flags &&& MAP_FIXED = 0)
    (hfuel : l.length < fuel) :
    Ends (archGetUnmappedArea fuel mm filp addr len pgoff flags) fun s =>
      Rep s.1 l ∧
      (s.2 = errno Mmap.ENOMEM ∨ PAGE_SIZE ∣ s.2.toNat ∧ s.2.toNat + len.toNat ≤ TASK_SIZE ∧
        (∀ x ∈ l, s.2.toNat + len.toNat ≤ x.2.vmStart ∨ x.2.vmEnd ≤ s.2.toNat) ∧
        (filp.isSome ∨ flags &&& MAP_SHARED ≠ 0 →
          s.2.toNat % SHMLBA = pgoff.toNat * PAGE_SIZE % SHMLBA)) := by
  rw [archGetUnmappedArea, if_neg (not_not.mpr hfixed)]
  refine .ite (fun _ => .ret ⟨h, .inl rfl⟩) fun hle => ?_
  have hle : len.toNat ≤ TASK_SIZE := Nat.not_lt.mp hle
  refine .mono (R := fun s => Rep s.1 l ∧ (s.2 = errno Mmap.ENOMEM ∨
    Free l (filp.isSome || decide (flags &&& MAP_SHARED ≠ 0)) len pgoff s.2))
    (.ite (fun _ => ?_) fun _ => ?_) fun s ⟨hrep, hr⟩ => ?_
  · exact hint_spec h hs hmax hle hfuel (placed_start _ addr pgoff)
  · exact searchFromBase_spec h hs hmax hle hfuel
  · refine ⟨hrep, hr.imp_right fun hr => ⟨hr.page, hr.below, hr.apart, fun hcolour => hr.colour ?_⟩⟩
    rw [Bool.or_eq_true, decide_eq_true_iff]
    exact hcolour

/-- A page of a file with offset 1: the first address with its colour is taken by one VMA, and
the next lies behind the other VMA. -/
theorem archGetUnmappedArea_free_twoAreas : MAP_SHARED &&& MAP_FIXED = 0 ∧
      Ends (archGetUnmappedArea 3 (twoPagesMm 0x2aaa9 0x2aaab) (some 7) 0 0x1000 1 MAP_SHARED)
      fun s =>
        Rep s.1 (twoAreas 0x2aaa9 0x2aaab) ∧
        (s.2 = errno Mmap.ENOMEM ∨ PAGE_SIZE ∣ s.2.toNat ∧ s.2.toNat + 0x1000 ≤ TASK_SIZE ∧
          (∀ x ∈ twoAreas 0x2aaa9 0x2aaab,
            s.2.toNat + 0x1000 ≤ x.2.vmStart ∨ x.2.vmEnd ≤ s.2.toNat) ∧
          ((some 7).isSome ∨ MAP_SHARED &&& MAP_SHARED ≠ 0 →
            s.2.toNat % SHMLBA = 1 * PAGE_SIZE % SHMLBA)) :=
  ⟨by decide, archGetUnmappedArea_free _ _ (some 7) 0 0x1000 1 MAP_SHARED 3 (rep_twoPagesMm _ _)
    ⟨by decide, by decide, by decide, by decide⟩ (by decide) (by decide) (by decide)⟩

end SilanKernel.Csky.UnmappedArea
