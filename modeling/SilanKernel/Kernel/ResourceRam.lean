import Mathlib.Data.List.Sort
import SilanKernel.Data.FirstIn
import SilanKernel.Kernel.ResourceInsert

/-!
# SilanKernel.Kernel.ResourceRam

`walk_system_ram_range` of `kernel/resource.c`: **the pages of a range that are RAM**.

The walk only reads the children of `iomem_resource`, so it is a function of the chain of siblings;
flags and names come from a table. `resource_size_t` and `unsigned long` have 32 bits on csky. The
walk goes wrong in two ways. Its variable `ret` is -1 before the first call of the callback, so
that a first hit without a whole page ends it, and in the last page of the address space the next
start and the first page wrap around to zero.
-/

namespace SilanKernel.ResourceTree

open List Memory Nat

def IORESOURCE_MEM : BitVec 32 := 0x00000200
def IORESOURCE_BUSY : BitVec 32 := 0x80000000

def PAGE_SIZE : Nat := 4096

/-- The fields of `struct resource` that the tree does without. -/
structure Marks where
  flags : BitVec 32
  name : String

/-- Busy `System RAM`. -/
def Marks.ram (m : Marks) : Bool :=
  m.flags = IORESOURCE_MEM ||| IORESOURCE_BUSY ∧ m.name = "System RAM"

section

variable (marks : Ptr → Marks) (func : Nat → Nat → Int)

/-- `find_next_system_ram`, from a resource on: `res->start` and `res->end` as it leaves them. -/
def findNextSystemRam (start end_ : Nat) : Forest → Option (Nat × Nat)
  | .nil => none
  | .cons p s e _ siblings =>
    if (marks p).ram = false then findNextSystemRam start end_ siblings
    else if end_ < s then none
    else if start ≤ e ∧ s < end_ then
      some (if start < s then s else start, if e < end_ then e else end_)
    else findNextSystemRam start end_ siblings

/-- The loop of `walk_system_ram_range`, with the calls of the callback so far. -/
def walkLoop (kids : Forest) (origEnd : Nat) :
    Nat → Nat → Int → List (Nat × Nat) → Option (Int × List (Nat × Nat))
  | 0, _, _, _ => none
  | fuel + 1, start, ret, calls =>
    if start < origEnd then
      match findNextSystemRam marks start origEnd kids with
      | none => some (ret, calls)
      | some (start, end_) =>
        let pfn := (start + PAGE_SIZE - 1) % 2 ^ 32 / PAGE_SIZE
        let endPfn := (end_ + 1) % 2 ^ 32 / PAGE_SIZE
        let ret := if pfn < endPfn then func pfn (endPfn - pfn) else ret
        let calls := if pfn < endPfn then calls ++ [(pfn, endPfn - pfn)] else calls
        if ret ≠ 0 then some (ret, calls)
        else walkLoop kids origEnd fuel ((end_ + 1) % 2 ^ 32) ret calls
    else some (ret, calls)

/-- `walk_system_ram_range`: what it returns and the calls it makes. -/
def walkSystemRamRange (kids : Forest) (startPfn nrPages : Nat) : Option (Int × List (Nat × Nat)) :=
  let end_ := ((startPfn + nrPages) % 2 ^ 32 * PAGE_SIZE + 2 ^ 64 - 1) % 2 ^ 32
  walkLoop marks func kids end_ loopBound (startPfn * PAGE_SIZE % 2 ^ 32) (-1) []

/-- The page lies wholly inside a single resource of the chain that is RAM. -/
def ramPage (p : Nat) : Forest → Bool
  | .nil => false
  | .cons x s e _ siblings =>
    (marks x).ram && decide (s ≤ p * PAGE_SIZE ∧ p * PAGE_SIZE + PAGE_SIZE ≤ e + 1) ||
      ramPage p siblings

/-- The parts of the range from `start` to `end_` that are RAM. One that begins with the last byte
does not count. -/
def ramParts (start end_ : Nat) : Forest → List (Nat × Nat)
  | .nil => []
  | .cons p s e _ siblings =>
    if (marks p).ram = true ∧ start ≤ e ∧ s < end_ then
      (max s start, min e end_) :: ramParts start end_ siblings
    else ramParts start end_ siblings

end

/-- A part has a whole page. -/
def HasPage (part : Nat × Nat) : Prop :=
  (part.1 + PAGE_SIZE - 1) / PAGE_SIZE < (part.2 + 1) / PAGE_SIZE

/-- A part begins inside the last page of the address space, or ends with it. -/
def AtTop (part : Nat × Nat) : Prop := 2 ^ 32 < part.1 + PAGE_SIZE ∨ part.2 + 1 = 2 ^ 32

/-- The parts that the walk gets right: none has a page, and the first, at which it ends, does not
begin inside the last page of the address space and end before it; or the first has a page, and
no sum wraps around at any. -/
def Walkable (parts : List (Nat × Nat)) : Prop :=
  ((∀ part ∈ parts, ¬HasPage part) ∧
    ∀ part ∈ parts.head?, 2 ^ 32 < part.1 + PAGE_SIZE → part.2 + 1 = 2 ^ 32) ∨
  (∀ part ∈ parts.head?, HasPage part) ∧ ∀ part ∈ parts, ¬AtTop part

/-- The pages that the callback is called for. -/
def visited (calls : List (Nat × Nat)) : List Nat := calls.flatMap fun c => range' c.1 c.2

variable {marks : Ptr → Marks} {func : Nat → Nat → Int} {f kids c siblings : Forest} {x : Ptr}
  {a b E N lo hi p u v s e fuel : Nat} {parts rest calls calls' : List (Nat × Nat)}

/-! ### The parts -/

theorem ramPage_iff (hlo : a ≤ p * PAGE_SIZE) (hhi : p * PAGE_SIZE + PAGE_SIZE ≤ E + 1) :
    ramPage marks p f = true ↔
      ∃ part ∈ ramParts marks a E f,
        part.1 ≤ p * PAGE_SIZE ∧ p * PAGE_SIZE + PAGE_SIZE ≤ part.2 + 1 := by
  induction f with
  | nil => simp [ramPage, ramParts]
  | cons x s e c siblings _ ih =>
    rw [ramPage, ramParts, Bool.or_eq_true, ih, Bool.and_eq_true, decide_eq_true_eq]
    clear ih
    simp only [PAGE_SIZE] at hlo hhi ⊢
    by_cases h : (marks x).ram = true ∧ a ≤ e ∧ s < E
    · rw [if_pos h]
      simp only [mem_cons, or_and_right, exists_or, exists_eq_left, h.1, true_and]
      refine or_congr_left ?_
      omega
    · rw [if_neg h]
      exact or_iff_right fun ⟨hram, hx⟩ => h ⟨hram, by omega⟩

/-- The parts are in order, from `a` on. -/
def PartsOk (E : Nat) : Nat → List (Nat × Nat) → Prop
  | _, [] => True
  | a, (u, v) :: parts => a ≤ u ∧ u ≤ v ∧ v ≤ E ∧ u < E ∧ PartsOk E (v + 1) parts

theorem ramParts_ok (hf : f.Ok lo hi) (ha : a < E) (hb : b ≤ max a lo) :
    PartsOk E b (ramParts marks a E f) := by
  induction f generalizing lo b with
  | nil => trivial
  | cons x s e c siblings _ ih =>
    obtain ⟨hlo, hse, -, -, hs⟩ := hf
    rw [ramParts]
    split
    · exact ⟨by omega, by omega, by omega, by omega, ih hs (by omega)⟩
    · exact ih hs (by omega)

/-- Where the range begins in front of the resources does not matter. -/
theorem ramParts_start (hf : f.Ok lo hi) (ha : a ≤ lo) (hb : b ≤ lo) :
    ramParts marks a E f = ramParts marks b E f := by
  induction f generalizing lo with
  | nil => rfl
  | cons x s e c siblings _ ih =>
    obtain ⟨hlo, hse, -, -, hs⟩ := hf
    have hcond : (a ≤ e ∧ s < E) ↔ (b ≤ e ∧ s < E) := by omega
    rw [ramParts, ramParts, ih hs (by omega) (by omega), max_eq_left (by omega : a ≤ s),
      max_eq_left (by omega : b ≤ s)]
    simp only [hcond]

theorem ramParts_eq_nil (hf : f.Ok lo hi) (hE : E ≤ lo) : ramParts marks a E f = [] := by
  induction f generalizing lo with
  | nil => rfl
  | cons x s e c siblings _ ih =>
    obtain ⟨hlo, hse, -, -, hs⟩ := hf
    rw [ramParts, if_neg (by omega), ih hs (by omega)]

theorem exists_mem_ramParts (hba : b ≤ a) (h : (u, v) ∈ ramParts marks a E f) :
    ∃ u', (u', v) ∈ ramParts marks b E f := by
  induction f with
  | nil => cases h
  | cons x s e c siblings _ ih =>
    rw [ramParts] at h ⊢
    split at h
    case isTrue hc =>
      rw [if_pos ⟨hc.1, by omega⟩]
      rcases mem_cons.mp h with heq | h
      · exact ⟨_, mem_cons.mpr (.inl (by rw [(Prod.mk.inj heq).2]))⟩
      · exact (ih h).imp fun _ => mem_cons_of_mem _
    case isFalse hc =>
      obtain ⟨u', hu'⟩ := ih h
      split
      · exact ⟨u', mem_cons_of_mem _ hu'⟩
      · exact ⟨u', hu'⟩

/-- The search finds the first part. -/
theorem findNextSystemRam_eq (hf : f.Ok lo hi) :
    findNextSystemRam marks a E f = (ramParts marks a E f).head? := by
  induction f generalizing lo with
  | nil => rfl
  | cons x s e c siblings _ ih =>
    obtain ⟨-, hse, -, -, hs⟩ := hf
    rw [findNextSystemRam, ramParts, ih hs]
    cases (marks x).ram with
    | false => rfl
    | true =>
      rw [if_neg (by decide)]
      by_cases hafter : E < s
      · rw [if_pos hafter, if_neg (by omega), ramParts_eq_nil hs (by omega)]
        rfl
      rw [if_neg hafter]
      simp only [true_and]
      split
      · simp only [head?_cons, Option.some.injEq, Prod.mk.injEq]
        constructor
        · split <;> omega
        · split <;> omega
      · rfl

/-! ### The loop -/

/-- The parts that are left for a walk from `start` on. -/
def partsFrom (marks : Ptr → Marks) (kids : Forest) (end_ start : Nat) : List (Nat × Nat) :=
  if start < end_ then ramParts marks start end_ kids else []

theorem partsFrom_eq_cons (h : partsFrom marks kids E a = (u, v) :: rest) :
    a < E ∧ ramParts marks a E kids = (u, v) :: rest := by
  rw [partsFrom] at h
  split at h
  · exact ⟨‹_›, h⟩
  · cases h

section

variable (hkids : kids.Ok lo hi)

include hkids

theorem partsFrom_ok (h : partsFrom marks kids E a = parts) : PartsOk E a parts := by
  rw [← h, partsFrom]
  split
  · exact ramParts_ok hkids ‹_› (le_max_left ..)
  · trivial

/-- After a part the search goes on with the next. -/
theorem partsFrom_next (h : partsFrom marks kids E a = (u, v) :: rest) :
    partsFrom marks kids E (v + 1) = rest := by
  have hok := partsFrom_ok hkids h
  obtain ⟨ha, hram⟩ := partsFrom_eq_cons h
  rw [partsFrom]
  by_cases hv : v + 1 < E
  · rw [if_pos hv]
    clear hok h
    induction kids generalizing lo with
    | nil => cases hram
    | cons x s e c siblings _ ih =>
      obtain ⟨hlo, hse, -, -, hs⟩ := hkids
      rw [ramParts] at hram ⊢
      split at hram
      · cases hram
        rw [if_neg (by omega)]
        exact ramParts_start hs (by omega) (by omega)
      · have hafter : PartsOk E (e + 1) (ramParts marks a E siblings) :=
          ramParts_ok hs ha (le_max_right ..)
        rw [hram] at hafter
        obtain ⟨hu, huv, -⟩ := hafter
        rw [if_neg (by omega)]
        exact ih hs hram
  · rw [if_neg hv]
    cases rest with
    | nil => rfl
    | cons part rest =>
      obtain ⟨-, -, -, -, hu, -, -, hE, -⟩ := hok
      omega

/-- One turn of the loop. -/
theorem walkLoop_eq (ret : Int) (calls : List (Nat × Nat)) :
    walkLoop marks func kids E (fuel + 1) a ret calls =
      match partsFrom marks kids E a with
      | [] => some (ret, calls)
      | (u, v) :: _ =>
        let pfn := (u + PAGE_SIZE - 1) % 2 ^ 32 / PAGE_SIZE
        let endPfn := (v + 1) % 2 ^ 32 / PAGE_SIZE
        let ret := if pfn < endPfn then func pfn (endPfn - pfn) else ret
        let calls := if pfn < endPfn then calls ++ [(pfn, endPfn - pfn)] else calls
        if ret ≠ 0 then some (ret, calls)
        else walkLoop marks func kids E fuel ((v + 1) % 2 ^ 32) ret calls := by
  rw [walkLoop, findNextSystemRam_eq hkids, partsFrom]
  split
  · cases ramParts marks a E kids <;> rfl
  · rfl

end

theorem walkLoop_prefix {ret ret' : Int}
    (hrun : walkLoop marks func kids E fuel a ret calls = some (ret', calls')) :
    calls <+: calls' := by
  induction fuel generalizing a ret calls with
  | zero => cases hrun
  | succ fuel ih =>
    rw [walkLoop] at hrun
    split at hrun
    · split at hrun
      · cases hrun
        exact prefix_rfl
      · dsimp only at hrun
        split at hrun
        · split at hrun
          · cases hrun
            exact prefix_append ..
          · exact (prefix_append ..).trans (ih hrun)
        · split at hrun
          · cases hrun
            exact prefix_rfl
          · exact ih hrun
    · cases hrun
      exact prefix_rfl

/-- The pages of a part. -/
def pagesOf (part : Nat × Nat) : List Nat :=
  range' ((part.1 + PAGE_SIZE - 1) / PAGE_SIZE)
    ((part.2 + 1) / PAGE_SIZE - (part.1 + PAGE_SIZE - 1) / PAGE_SIZE)

section

variable (hkids : kids.Ok lo hi) (hfunc : ∀ pfn n, func pfn n = 0) (hE : E < 2 ^ 32)

include hkids hfunc hE

/-- One turn after a call, for a part that no sum wraps around at. -/
theorem walkLoop_part (fuel : Nat) (calls : List (Nat × Nat))
    (hparts : partsFrom marks kids E a = (u, v) :: rest) (htop : ¬AtTop (u, v)) :
    ∃ calls', visited calls' = visited calls ++ pagesOf (u, v) ∧
      walkLoop marks func kids E (fuel + 1) a 0 calls = walkLoop marks func kids E fuel
      (v + 1) 0 calls' := by
  obtain ⟨hu, huv, hv, hlt, -⟩ := partsFrom_ok hkids hparts
  rw [AtTop, not_or] at htop
  have hpfn : (u + PAGE_SIZE - 1) % 2 ^ 32 = u + PAGE_SIZE - 1 :=
    mod_eq_of_lt (by simp only [PAGE_SIZE] at *; omega)
  have hend : (v + 1) % 2 ^ 32 = v + 1 := mod_eq_of_lt (by omega)
  rw [walkLoop_eq hkids, hparts]
  dsimp only
  rw [hpfn, hend, hfunc, ite_self, if_neg (not_not.mpr rfl)]
  refine ⟨_, ?_, rfl⟩
  rw [pagesOf]
  split
  · rw [visited, flatMap_append, flatMap_singleton, visited]
  case isFalse h => rw [Nat.sub_eq_zero_of_le (Nat.le_of_not_lt h), range'_zero, append_nil]

/-- **The loop visits the parts** that are left. -/
theorem walkLoop_visits (hparts : partsFrom marks kids E a = parts)
    (htop : ∀ part ∈ parts, ¬AtTop part) (hfuel : E + 1 - a < fuel) :
    ∃ calls', walkLoop marks func kids E fuel a 0 calls = some (0, calls') ∧
      visited calls' = visited calls ++ parts.flatMap pagesOf := by
  induction fuel generalizing a parts calls with
  | zero => omega
  | succ fuel ih =>
    cases parts with
    | nil =>
      rw [walkLoop_eq hkids, hparts]
      exact ⟨calls, rfl, by simp⟩
    | cons part rest =>
      obtain ⟨hu, huv, -, hlt, -⟩ := partsFrom_ok hkids hparts
      obtain ⟨calls1, hcalls, hturn⟩ := walkLoop_part hkids hfunc hE fuel calls hparts
        (htop _ mem_cons_self)
      rw [hturn, flatMap_cons, ← append_assoc, ← hcalls]
      exact ih (partsFrom_next hkids hparts)
        (fun part h => htop part (mem_cons_of_mem _ h)) (by omega)

/-- Where a sum wraps around the walk goes on from page 0. -/
theorem walkLoop_wraps {ret' : Int} (hcalls : visited calls ≠ [])
    (hwraps : ∃ part ∈ partsFrom marks kids E a, AtTop part)
    (hrun : walkLoop marks func kids E fuel a 0 calls = some (ret', calls')) :
    ¬(visited calls').Pairwise (· < ·) := by
  induction fuel generalizing a calls with
  | zero => cases hrun
  | succ fuel ih =>
    obtain ⟨part, hmem, htop⟩ := hwraps
    cases hparts : partsFrom marks kids E a with
    | nil => exact absurd (hparts ▸ hmem) not_mem_nil
    | cons first rest =>
      obtain ⟨u, v⟩ := first
      by_cases hfirst : AtTop (u, v)
      swap
      · obtain ⟨calls1, hcalls1, hturn⟩ := walkLoop_part hkids hfunc hE fuel calls hparts hfirst
        rw [hparts] at hmem
        refine ih (hcalls1 ▸ append_ne_nil_of_left_ne_nil hcalls _) ⟨part, ?_, htop⟩ (hturn ▸ hrun)
        rw [partsFrom_next hkids hparts]
        exact (mem_cons.mp hmem).resolve_left fun h => hfirst (h ▸ htop)
      obtain ⟨-, huv, hv, -⟩ := partsFrom_ok hkids hparts
      rw [walkLoop_eq hkids, hparts] at hrun
      dsimp only at hrun
      rw [hfunc, ite_self, if_neg (not_not.mpr rfl)] at hrun
      by_cases hlast : v + 1 = 2 ^ 32
      · obtain ⟨ha, hram⟩ := partsFrom_eq_cons hparts
        obtain ⟨u', hmem'⟩ := exists_mem_ramParts (zero_le a) (hram ▸ mem_cons_self)
        rw [hlast, Nat.mod_self, Nat.zero_div, if_neg (Nat.not_lt_zero _)] at hrun
        refine ih hcalls ⟨(u', v), ?_, .inr hlast⟩ hrun
        rwa [partsFrom, if_pos (zero_lt_of_lt ha)]
      have hpfn : (u + PAGE_SIZE - 1) % 2 ^ 32 / PAGE_SIZE = 0 := by
        simp only [AtTop, PAGE_SIZE] at *
        omega
      have hend : 0 < (v + 1) % 2 ^ 32 / PAGE_SIZE := by
        simp only [AtTop, PAGE_SIZE] at *
        omega
      rw [hpfn, if_pos hend] at hrun
      obtain ⟨more, rfl⟩ := walkLoop_prefix hrun
      obtain ⟨x, hx⟩ := exists_mem_of_ne_nil _ hcalls
      intro hsorted
      rw [visited, append_assoc, flatMap_append, pairwise_append] at hsorted
      refine absurd (hsorted.2.2 x hx 0 ?_) (not_lt_zero x)
      rw [flatMap_append, flatMap_singleton, mem_append, mem_range'_1]
      exact .inl ⟨le_refl 0, by simpa using hend⟩

end

/-! ### The walk -/

theorem mem_pagesOf : p ∈ pagesOf (u, v) ↔ u ≤ p * PAGE_SIZE ∧
    p * PAGE_SIZE + PAGE_SIZE ≤ v + 1 := by
  rw [pagesOf, mem_range'_1]
  simp only [PAGE_SIZE]
  omega

theorem PartsOk.mem (hok : PartsOk E a parts) (h : part ∈ parts) : a ≤ part.1 ∧ part.2 ≤ E := by
  induction parts generalizing a with
  | nil => cases h
  | cons first parts ih =>
    obtain ⟨hu, huv, hv, -, hrest⟩ := hok
    rcases mem_cons.mp h with rfl | h
    · exact ⟨hu, hv⟩
    · have := ih hrest h
      omega

theorem pagesOf_sorted (hok : PartsOk E a parts) : (parts.flatMap pagesOf).Pairwise (· < ·) := by
  induction parts generalizing a with
  | nil => exact .nil
  | cons part parts ih =>
    obtain ⟨-, -, -, -, hrest⟩ := hok
    rw [flatMap_cons, pairwise_append]
    refine ⟨pairwise_lt_range', ih hrest, fun p hp q hq => ?_⟩
    obtain ⟨part', hmem, hq⟩ := mem_flatMap.mp hq
    have hlater := (hrest.mem hmem).1
    have hp := (mem_pagesOf.mp hp).2
    have hq := (mem_pagesOf.mp hq).1
    simp only [PAGE_SIZE] at *
    omega

theorem pagesOf_eq_nil : parts.flatMap pagesOf = [] ↔ ∀ part ∈ parts, ¬HasPage part := by
  rw [flatMap_eq_nil_iff]
  refine forall₂_congr fun part _ => ?_
  rw [pagesOf, range'_eq_nil_iff, HasPage]
  omega

/-- The pages to visit are those of the parts. -/
theorem hits_eq_pagesOf (hkids : kids.Ok lo hi) (hn : 1 ≤ n) :
    hits (fun p => ramPage marks p kids) p (p + n) =
      (ramParts marks (p * PAGE_SIZE) ((p + n) * PAGE_SIZE - 1) kids).flatMap pagesOf := by
  have hok : PartsOk _ _ (ramParts marks (p * PAGE_SIZE) ((p + n) * PAGE_SIZE - 1) kids) :=
    ramParts_ok hkids (by simp only [PAGE_SIZE]; omega) (le_max_left ..)
  refine (Pairwise.filter _ pairwise_lt_range').eq_of_mem_iff (pagesOf_sorted hok) fun q => ?_
  rw [mem_filter, mem_range'_1, mem_flatMap]
  have hin : p ≤ q ∧ q < p + (p + n - p) ↔
      p * PAGE_SIZE ≤ q * PAGE_SIZE ∧ q * PAGE_SIZE + PAGE_SIZE ≤ (p + n) * PAGE_SIZE - 1 + 1 := by
    simp only [PAGE_SIZE]
    omega
  rw [hin]
  constructor
  · rintro ⟨hq, hram⟩
    exact ((ramPage_iff hq.1 hq.2).mp hram).imp fun part h => ⟨h.1, mem_pagesOf.mpr h.2⟩
  · rintro ⟨part, hmem, hq⟩
    have hpart := hok.mem hmem
    rw [mem_pagesOf] at hq
    have hq' := And.intro (le_trans hpart.1 hq.1) (le_trans hq.2 (succ_le_succ hpart.2))
    exact ⟨hq', (ramPage_iff hq'.1 hq'.2).mpr ⟨part, hmem, hq⟩⟩

section

variable (hkids : kids.Ok lo hi) (hfunc : ∀ pfn n, func pfn n = 0) (hE : E < 2 ^ 32)
  (hparts : partsFrom marks kids E a = (u, v) :: rest)

include hkids hfunc hE hparts

/-- A run that goes on from the first part, where a sum wraps around at some part, is not right. -/
theorem walkLoop_not_right {ret : Int} (hcall : pfn < (v + 1) % 2 ^ 32 / PAGE_SIZE)
    (hwraps : ∃ part ∈ (u, v) :: rest, AtTop part)
    (hrun : walkLoop marks func kids E fuel ((v + 1) % 2 ^ 32) 0
      [(pfn, (v + 1) % 2 ^ 32 / PAGE_SIZE - pfn)] =
      some (ret, calls)) :
    visited calls ≠ ((u, v) :: rest).flatMap pagesOf := by
  intro hpages
  have hok := partsFrom_ok hkids hparts
  have hin := hok.mem mem_cons_self
  by_cases hfirst : AtTop (u, v)
  · -- All parts are inside the last page.
    have hsmall : ∀ part ∈ (u, v) :: rest, ¬HasPage part := by
      intro part hmem
      have hin := PartsOk.mem (show PartsOk E u ((u, v) :: rest) from ⟨le_refl u, hok.2⟩) hmem
      simp only [HasPage, AtTop, PAGE_SIZE] at *
      omega
    rw [pagesOf_eq_nil.mpr hsmall] at hpages
    obtain ⟨more, rfl⟩ := walkLoop_prefix hrun
    rw [singleton_append, visited, flatMap_cons, append_eq_nil_iff, range'_eq_nil_iff] at hpages
    omega
  · have hnext : (v + 1) % 2 ^ 32 = v + 1 := by
      simp only [AtTop] at hfirst hin
      omega
    obtain ⟨part, hmem, htop⟩ := hwraps
    rw [hnext] at hrun hcall
    refine walkLoop_wraps hkids hfunc hE ?_ ⟨part, ?_, htop⟩ hrun (hpages ▸ pagesOf_sorted hok)
    · rw [visited, flatMap_singleton, ne_eq, range'_eq_nil_iff]
      omega
    · rw [partsFrom_next hkids hparts]
      exact (mem_cons.mp hmem).resolve_left fun h => hfirst (h ▸ htop)

/-- The whole loop, if a part is found. -/
theorem walkLoop_right_iff (hfuel : 2 ^ 32 < fuel) :
    (∃ ret calls, walkLoop marks func kids E (fuel + 1) a (-1) [] = some (ret, calls) ∧
      visited calls = ((u, v) :: rest).flatMap pagesOf) ↔ Walkable ((u, v) :: rest) := by
  obtain ⟨hu, huv, hv, huE, hrest⟩ := partsFrom_ok hkids hparts
  rw [walkLoop_eq hkids, hparts]
  dsimp only
  by_cases hcall : (u + PAGE_SIZE - 1) % 2 ^ 32 / PAGE_SIZE < (v + 1) % 2 ^ 32 / PAGE_SIZE
  swap
  · -- The walk ends at the first part.
    rw [if_neg hcall, if_neg hcall, if_pos (by decide)]
    constructor
    · rintro ⟨_, _, ⟨⟩, hpages⟩
      refine .inl ⟨pagesOf_eq_nil.mp hpages.symm, ?_⟩
      rintro _ ⟨⟩ hlast
      simp only [PAGE_SIZE] at *
      omega
    · rintro (⟨hsmall, -⟩ | ⟨hpage, htop⟩)
      · exact ⟨-1, [], rfl, (pagesOf_eq_nil.mpr hsmall).symm⟩
      · have hpage := hpage _ rfl
        have htop := htop _ mem_cons_self
        simp only [HasPage, AtTop, PAGE_SIZE] at *
        omega
  rw [if_pos hcall, if_pos hcall, hfunc, if_neg (not_not.mpr rfl), nil_append]
  by_cases hwraps : ∃ part ∈ (u, v) :: rest, AtTop part
  · refine iff_of_false ?_ ?_
    · rintro ⟨ret, calls, hrun, hpages⟩
      exact walkLoop_not_right hkids hfunc hE hparts hcall hwraps hrun hpages
    · rintro (⟨hsmall, hlast⟩ | ⟨-, hno⟩)
      · have hsmall := hsmall _ mem_cons_self
        have hlast := hlast _ rfl
        simp only [HasPage, PAGE_SIZE] at *
        omega
      · obtain ⟨part, hmem, htop⟩ := hwraps
        exact hno part hmem htop
  · have hno : ∀ part ∈ (u, v) :: rest, ¬AtTop part := fun part hmem h => hwraps ⟨part, hmem, h⟩
    have hfirst := hno _ mem_cons_self
    have hwrap : (u + PAGE_SIZE - 1) % 2 ^ 32 = u + PAGE_SIZE - 1 ∧ (v + 1) % 2 ^ 32 = v + 1 := by
      simp only [AtTop, PAGE_SIZE] at *
      omega
    rw [hwrap.1, hwrap.2] at hcall ⊢
    obtain ⟨calls, hrun, hpages⟩ := walkLoop_visits hkids hfunc hE (partsFrom_next hkids hparts)
      (fun part h => hno part (mem_cons_of_mem _ h)) (show E + 1 - (v + 1) < fuel by omega)
    refine iff_of_true ⟨0, calls, hrun, ?_⟩ (.inr ⟨?_, hno⟩)
    · rw [hpages, visited, flatMap_singleton, flatMap_cons, pagesOf]
    · rintro _ ⟨⟩
      exact hcall

end

/-- **The walk visits the pages that are RAM**, in order and each once, exactly if the parts of the
range that are RAM are such that it can. -/
theorem walkSystemRamRange_visits_iff (marks : Ptr → Marks) (kids : Forest) (func : Nat → Nat → Int)
    (startPfn nrPages : Nat) (hkids : kids.Ok 0 (2 ^ 32 - 1)) (hfunc : ∀ pfn n, func pfn n = 0)
    (hpages : 1 ≤ nrPages) (htop : (startPfn + nrPages) * PAGE_SIZE ≤ 2 ^ 32) :
    (∃ ret calls, walkSystemRamRange marks func kids startPfn nrPages = some (ret, calls) ∧
      visited calls = hits (fun p => ramPage marks p kids) startPfn (startPfn + nrPages)) ↔
    Walkable (ramParts marks (startPfn * PAGE_SIZE)
      ((startPfn + nrPages) * PAGE_SIZE - 1) kids) := by
  have hend : ((startPfn + nrPages) % 2 ^ 32 * PAGE_SIZE + 2 ^ 64 - 1) % 2 ^ 32 =
      (startPfn + nrPages) * PAGE_SIZE - 1 := by
    simp only [PAGE_SIZE] at *
    omega
  have hstart : startPfn * PAGE_SIZE % 2 ^ 32 = startPfn * PAGE_SIZE := by
    simp only [PAGE_SIZE] at *
    omega
  have hlt : startPfn * PAGE_SIZE < (startPfn + nrPages) * PAGE_SIZE - 1 := by
    simp only [PAGE_SIZE]
    omega
  obtain ⟨fuel, hfuel, hbound⟩ : ∃ fuel, loopBound = fuel + 1 ∧ 2 ^ 32 < fuel :=
    ⟨2 ^ 33 - 1, rfl, by decide⟩
  rw [walkSystemRamRange, hend, hstart, hfuel, hits_eq_pagesOf hkids hpages]
  cases hparts : ramParts marks (startPfn * PAGE_SIZE)
    ((startPfn + nrPages) * PAGE_SIZE - 1) kids with
  | nil =>
    rw [walkLoop_eq hkids, partsFrom, if_pos hlt, hparts]
    exact iff_of_true ⟨-1, [], rfl, rfl⟩ (.inl ⟨nofun, nofun⟩)
  | cons first rest =>
    exact walkLoop_right_iff hkids hfunc (by omega) ((if_pos hlt).trans hparts) hbound

/-- RAM of two pages, a page of ROM, and RAM that begins in the middle of a page. -/
def someRam : Forest :=
  .cons 4 0x1000 0x2fff .nil (.cons 8 0x3000 0x3fff .nil (.cons 12 0x4800 0x8fff .nil .nil))

def someMarks (p : Ptr) : Marks :=
  ⟨IORESOURCE_MEM ||| IORESOURCE_BUSY, if p = 8 then "System ROM" else "System RAM"⟩

theorem walkSystemRamRange_visits_some :
    ∃ ret calls, walkSystemRamRange someMarks (fun _ _ => 0) someRam 1 7 = some (ret, calls) ∧
      visited calls = hits (fun p => ramPage someMarks p someRam) 1 8 := by
  refine (walkSystemRamRange_visits_iff someMarks someRam _ 1 7 ?_ (fun _ _ => rfl) (by decide)
    (by decide)).mpr (.inr ?_)
  · simp [someRam, Forest.Ok]
  · rw [show ramParts someMarks (1 * PAGE_SIZE) _ someRam =
      [(0x1000, 0x2fff), (0x4800, 0x7fff)] by decide]
    simp [HasPage, AtTop, PAGE_SIZE]

/-- RAM begins in the middle of the first page: the walk ends there, and the second page, all of it
RAM, is left out. -/
theorem walkSystemRamRange_misses :
    let kids := Forest.cons 4 0x800 0xfff .nil (.cons 12 0x1000 0x1fff .nil .nil)
    walkSystemRamRange someMarks (fun _ _ => 0) kids 0 2 = some (-1, []) ∧
      ramPage someMarks 1 kids = true :=
  ⟨by decide +kernel, by decide⟩

end SilanKernel.ResourceTree
