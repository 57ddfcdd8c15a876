import SilanKernel.Data.Mask

/-!
# SilanKernel.Dlna.Prom

A model of `arch/csky/silan_dlna/memory.c`, **the boot-time allocator of physical memory**, and
which of its allocations overlap.

`prom_meminit` cuts the memory of the board in three: the memory of the kernel, whose size is
read from the command line, a region for `pmem` if that is configured, and the pool of
`prom_phy_mem_malloc`. The command line is a list of bytes; reading past its end gives the
terminating zero.
-/

namespace SilanKernel.Dlna.Prom

open BitVec

abbrev Word := BitVec 32

abbrev Text := List (BitVec 8)

/-! ### The command line -/

def isdigit (c : BitVec 8) : Bool := 0x30#8 ≤ c && c ≤ 0x39#8

def isxdigit (c : BitVec 8) : Bool :=
  isdigit c || (0x41#8 ≤ c && c ≤ 0x46#8) || (0x61#8 ≤ c && c ≤ 0x66#8)

/-- `TOLOWER` -/
def toLower (c : BitVec 8) : BitVec 8 := c ||| 0x20

/-- `simple_guess_base` -/
def simpleGuessBase (cp : Text) : BitVec 64 :=
  if cp.getD 0 0 = 0x30#8 then
    if toLower (cp.getD 1 0) = 0x78#8 && isxdigit (cp.getD 2 0) then 16 else 8
  else
    10

/-- The loop of `simple_strtoull`: the number, and the rest of the text. -/
def strtoullLoop (base : BitVec 64) : Text → BitVec 64 → BitVec 64 × Text
  | [], result => (result, [])
  | c :: cp, result =>
    if isxdigit c then
      let value := if isdigit c then c - 0x30#8 else toLower c - 0x61#8 + 10#8
      if value.setWidth 64 ≥ base then (result, c :: cp)
      else strtoullLoop base cp (result * base + value.setWidth 64)
    else
      (result, c :: cp)

/-- `simple_strtoull` with base 0 -/
def simpleStrtoull (cp : Text) : BitVec 64 × Text :=
  let base := simpleGuessBase cp
  if base = 16 && cp.getD 0 0 = 0x30#8 && toLower (cp.getD 1 0) = 0x78#8 then
    strtoullLoop base (cp.drop 2) 0
  else strtoullLoop base cp 0

/-- `memparse` -/
def memparse (ptr : Text) : BitVec 64 :=
  let (ret, endptr) := simpleStrtoull ptr
  match endptr.getD 0 0 with
  | 0x47#8 | 0x67#8 => ret <<< 10 <<< 10 <<< 10
  | 0x4d#8 | 0x6d#8 => ret <<< 10 <<< 10
  | 0x4b#8 | 0x6b#8 => ret <<< 10
  | _ => ret

/-- `strstr`: the text from the first place on where the other one begins. -/
def strstr : Text → Text → Option Text
  | [], needle => if needle = [] then some [] else none
  | c :: hay, needle => if needle.isPrefixOf (c :: hay) then some (c :: hay) else strstr hay needle

/-- `"mem="` -/
def memOption : Text := [0x6d, 0x65, 0x6d, 0x3d]

/-- The memory size the user asks for. -/
def configuredMemsize (cmdline : Text) : Word :=
  match strstr cmdline memOption with
  | none => 0x04000000
  | some memsizeStr => (memparse (memsizeStr.drop memOption.length)).setWidth 32

/-! ### The pool -/

def SILAN_PHY_MEM_SIZE : Word := 0x40000000
def SILAN_REG_SPACE_START : Word := 0x1FA00000

/-- What the configuration of the kernel decides. -/
structure Config where
  /-- `HIGHMEM_START`, which depends on the base of the physical memory. -/
  highmemStart : Word
  /-- `android_pmem_pdata.size`, if pmem is configured. -/
  pmemSize : Option Word

/-- `prom_phy_mem_start` and `prom_phy_mem_size`. The pool lies below the registers. -/
structure Pool where
  start : Word
  size : Word
  fits : start.toNat + size.toNat ≤ SILAN_REG_SPACE_START.toNat

/-- Take a part off the start of the pool. -/
def Pool.cut (s : Pool) (n : Word) (h : n ≤ s.size) : Pool where
  start := s.start + n
  size := s.size - n
  fits := by
    have hfits := s.fits
    rw [BitVec.le_def] at h
    rw [BitVec.toNat_add, BitVec.toNat_sub_of_le h,
      Nat.mod_eq_of_lt (Nat.lt_of_le_of_lt (by omega) SILAN_REG_SPACE_START.isLt)]
    omega

theorem Pool.toNat_cut_start {s : Pool} {n : Word} {h : n ≤ s.size} :
    (s.cut n h).start.toNat = s.start.toNat + n.toNat := by
  have hfits := s.fits
  have hle := le_def.mp h
  show (s.start + n).toNat = _
  rw [toNat_add, Nat.mod_eq_of_lt (Nat.lt_of_le_of_lt (by omega) SILAN_REG_SPACE_START.isLt)]

theorem Pool.toNat_cut_size {s : Pool} {n : Word} {h : n ≤ s.size} :
    (s.cut n h).size.toNat = s.size.toNat - n.toNat := toNat_sub_of_le h

/-- Take a part off, but no more than there is. -/
def Pool.cutAtMost (s : Pool) (n : Word) : Pool :=
  if h : n > s.size then s.cut s.size (BitVec.le_refl _) else s.cut n (BitVec.not_lt.mp h)

/-- All memory below the registers and the high memory. -/
def lowMemory (highmemStart : Word) : Pool where
  start := 0
  size :=
    let memSize := if SILAN_PHY_MEM_SIZE > highmemStart then highmemStart else SILAN_PHY_MEM_SIZE
    if memSize > SILAN_REG_SPACE_START then SILAN_REG_SPACE_START else memSize
  fits := by
    show 0 + _ ≤ _
    rw [Nat.zero_add, ← BitVec.le_def]
    dsimp only
    generalize (if SILAN_PHY_MEM_SIZE > highmemStart then highmemStart else
      SILAN_PHY_MEM_SIZE) = memSize
    split
    · exact BitVec.le_refl _
    · exact BitVec.not_lt.mp ‹_›

/-- `prom_meminit` -/
def promMeminit (cfg : Config) (cmdline : Text) : Pool :=
  let pool := (lowMemory cfg.highmemStart).cutAtMost (configuredMemsize cmdline)
  match cfg.pmemSize with
  | none => pool
  | some pmemSize => pool.cutAtMost pmemSize

/-- The size `prom_phy_mem_malloc` takes from the pool. -/
def roundedSize (size : Word) : Word := (size + 4096#32 - 1#32) &&& ~~~(4096#32 - 1#32)

/-- `prom_phy_mem_malloc` -/
def promPhyMemMalloc (s : Pool) (size : Word) : Pool × Word :=
  if h : roundedSize size ≤ s.size then (s.cut (roundedSize size) h, s.start) else (s, 0)

/-! ### Regions -/

/-- What a caller believes to own. -/
structure Region where
  addr : Word
  size : Word
  deriving DecidableEq, Repr

def Region.stop (r : Region) : Nat := r.addr.toNat + r.size.toNat

def Region.Inside (r : Region) (s : Pool) : Prop := s.start.toNat ≤ r.addr.toNat ∧
    r.stop ≤ s.start.toNat + s.size.toNat

def Region.Disjoint (r r' : Region) : Prop := r.stop ≤ r'.addr.toNat ∨ r'.stop ≤ r.addr.toNat

/-- The regions of the calls that return an address. -/
def regions (s : Pool) : List Word → List Region
  | [] => []
  | size :: sizes =>
    let (s', addr) := promPhyMemMalloc s size
    if addr ≠ 0 then ⟨addr, size⟩ :: regions s' sizes else regions s' sizes

variable {size : Word} {sizes : List Word} {r : Region}

theorem toNat_roundedSize (size : Word) : (roundedSize size).toNat = (size.toNat + 4095) % 2 ^ 32 /
    4096 * 4096 := by
  have hsum : size + 4096#32 - 1#32 = size + 4095#32 := by
    rw [BitVec.sub_eq_add_neg, BitVec.add_assoc]
    rfl
  rw [roundedSize, hsum]
  refine (Mask.toNat_and_not_mask (k := 12) rfl).trans ?_
  rw [BitVec.toNat_add]
  rfl

/-- A request is not rounded down unless the sum wraps. -/
theorem le_roundedSize (h : size.toNat ≤ 0xfffff000) : size.toNat ≤ (roundedSize size).toNat := by
  rw [toNat_roundedSize]
  omega

/-- What a call does: it takes `n` bytes off the start of the pool, if any, and its region is
one of the run unless the pool starts at address 0. -/
theorem regions_cons (s : Pool) (size : Word) (sizes : List Word) : ∃ s' : Pool, ∃ n ≤ s.size.toNat,
      s'.start.toNat = s.start.toNat + n ∧ s'.size.toNat = s.size.toNat - n ∧
      (regions s (size :: sizes) = regions s' sizes ∨
        n = (roundedSize size).toNat ∧ regions s (size :: sizes) = ⟨s.start, size⟩ ::
        regions s' sizes) := by
  by_cases h : roundedSize size ≤ s.size
  · refine ⟨s.cut (roundedSize size) h, (roundedSize size).toNat, le_def.mp h, Pool.toNat_cut_start,
      Pool.toNat_cut_size, ?_⟩
    rw [regions, promPhyMemMalloc, dif_pos h]
    by_cases hzero : s.start ≠ 0
    · exact .inr ⟨rfl, if_pos hzero⟩
    · exact .inl (if_neg hzero)
  · refine ⟨s, 0, Nat.zero_le _, rfl, rfl, .inl ?_⟩
    rw [regions, promPhyMemMalloc, dif_neg h]
    exact if_neg (not_not.mpr rfl)

/-- All regions lie at or above the start of the pool. -/
theorem start_le_of_mem (h : r ∈ regions s sizes) : s.start.toNat ≤ r.addr.toNat := by
  induction sizes generalizing s with
  | nil => nomatch h
  | cons size sizes ih =>
    obtain ⟨s', n, -, hstart, -, heq | ⟨-, heq⟩⟩ := regions_cons s size sizes
    · have := ih (heq ▸ h)
      omega
    · rcases List.mem_cons.mp (heq ▸ h) with rfl | h
      · exact Nat.le_refl _
      · have := ih h
        omega

/-- Before every call, unless the pool starts at address 0, the request is one whose rounding does
not wrap. -/
def NoneWraps (s : Pool) : List Word → Prop
  | [] => True
  | size :: sizes =>
    (s.start ≠ 0 → size.toNat ≤ 0xfffff000) ∧ NoneWraps (promPhyMemMalloc s size).1 sizes

/-- A request that wraps is rounded to zero bytes, which the pool always has. -/
theorem noneWraps_iff : NoneWraps s sizes ↔ ∀ r ∈ regions s sizes, r.size.toNat ≤ 0xfffff000 := by
  induction sizes generalizing s with
  | nil => exact iff_of_true trivial nofun
  | cons size sizes ih =>
    rw [NoneWraps, regions, ih]
    by_cases h : roundedSize size ≤ s.size
    · rw [promPhyMemMalloc, dif_pos h]
      by_cases hzero : s.start = 0#32 <;> simp [hzero]
    · have hle : size.toNat ≤ 0xfffff000 := by
        rw [le_def, toNat_roundedSize] at h
        omega
      rw [promPhyMemMalloc, dif_neg h]
      simp [hle]

/-- As long as no request wraps, the regions stay inside the pool and do not overlap. -/
theorem regions_good (h : ∀ r ∈ regions s sizes, r.size.toNat ≤ 0xfffff000) :
    (∀ r ∈ regions s sizes, r.Inside s) ∧ (regions s sizes).Pairwise Region.Disjoint := by
  induction sizes generalizing s with
  | nil => exact ⟨nofun, List.Pairwise.nil⟩
  | cons size sizes ih =>
    obtain ⟨s', n, hn, hstart, hsize, heq | ⟨hround, heq⟩⟩ := regions_cons s size sizes
    · rw [heq] at h ⊢
      obtain ⟨hinside, hpair⟩ := ih h
      refine ⟨fun r hr => ?_, hpair⟩
      obtain ⟨hlo, hhi⟩ := hinside r hr
      exact ⟨by omega, by omega⟩
    rw [heq] at h ⊢
    obtain ⟨hinside, hpair⟩ := ih fun r hr => h r (List.mem_cons_of_mem _ hr)
    have hle := le_roundedSize (h ⟨s.start, size⟩ List.mem_cons_self)
    have hstop : (Region.mk s.start size).stop ≤ s'.start.toNat := by
      rw [Region.stop]
      dsimp only at hle ⊢
      omega
    refine ⟨fun r hr => ?_, List.pairwise_cons.mpr ⟨fun r hr => .inl ?_, hpair⟩⟩
    · rcases List.mem_cons.mp hr with rfl | hr
      · exact ⟨Nat.le_refl _, by omega⟩
      · obtain ⟨hlo, hhi⟩ := hinside r hr
        exact ⟨by omega, by omega⟩
    · exact Nat.le_trans hstop (start_le_of_mem hr)

/-- The allocations from the pool `prom_meminit` sets up lie inside it and do not overlap
exactly if none asks for more than `0xfffff000` bytes while the pool starts at an address that
counts as a success. -/
theorem promPhyMemMalloc_regions_iff (cfg : Config) (cmdline : Text) (sizes : List Word) :
    ((∀ r ∈ regions (promMeminit cfg cmdline) sizes, r.Inside (promMeminit cfg cmdline)) ∧
        (regions (promMeminit cfg cmdline) sizes).Pairwise Region.Disjoint) ↔
      NoneWraps (promMeminit cfg cmdline) sizes := by
  rw [noneWraps_iff]
  refine ⟨fun ⟨hinside, _⟩ r hr => ?_, regions_good⟩
  have hfits : _ ≤ 0x1FA00000 := (promMeminit cfg cmdline).fits
  have := (hinside r hr).2
  rw [Region.stop] at this
  omega

/-- Without options the pool starts at 64 MiB. A request for `0xfffff001` bytes gets that
address, and so does the next one. -/
theorem promPhyMemMalloc_wraps :
    regions (promMeminit ⟨0x20000000, none⟩ []) [0xfffff001, 0x1000] =
      [⟨0x04000000, 0xfffff001⟩, ⟨0x04000000, 0x1000⟩] ∧ ¬ (Region.mk 0x04000000 0xfffff001).Inside
      (promMeminit ⟨0x20000000, none⟩ []) ∧ ¬ (Region.mk 0x04000000 0xfffff001).Disjoint
      ⟨0x04000000, 0x1000⟩ := by
  refine ⟨by decide, ?_, ?_⟩
  · rintro ⟨-, hhi⟩
    exact absurd hhi (by decide)
  · rintro (h | h) <;> exact absurd h (by decide)

end SilanKernel.Dlna.Prom
