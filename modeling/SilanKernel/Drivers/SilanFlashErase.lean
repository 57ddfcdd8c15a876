import SilanKernel.Drivers.SilanFlash

/-!
# SilanKernel.Drivers.SilanFlashErase

**What an erase erases.** `m25p80_erase` checks the end of the range and its length, but not that
the range starts at a sector, and it checks the end as a sum of 64 bits that may wrap around.

`erase_sector` erases the whole sector its offset lies in, so the sectors erased are those from the
start, rounded down, on. The main result says when these are the bytes that were asked for.
-/

namespace SilanKernel.Drivers.SilanFlash

open List Nat

variable {env : Env} {flash : M25p} {fuel x : Nat} {s s' : Spi} {instr : EraseInfo}
  {len addr : Word} {sectors : List Word}

/-- The bytes of the sectors with the given offsets. -/
def sectorBytes (flash : M25p) (sectors : List Word) : Set Nat :=
  {x | ∃ offset ∈ sectors, x / flash.erasesize.toNat = offset.toNat / flash.erasesize.toNat}

/-- The bytes that were asked for. -/
def EraseInfo.range (instr : EraseInfo) : Set Nat :=
  {x | instr.addr.toNat ≤ x ∧ x < instr.addr.toNat + instr.len.toNat}

theorem mem_range :
    x ∈ instr.range ↔ instr.addr.toNat ≤ x ∧ x < instr.addr.toNat + instr.len.toNat :=
  Iff.rfl

/-! ### One sector -/

theorem eraseSector_sectors (env : Env) (flash : M25p) (offset : Word) (s : Spi) :
    ∃ s', eraseSector env flash offset s = .ok (if ready (env.polls s.waited) then 0 else 1) s' ∧
      s'.sectors = if ready (env.polls s.waited) then s.sectors ++ [offset] else s.sectors := by
  have hwait := waitTillReady_eq env s
  cases hready : ready (env.polls s.waited) with
  | false =>
    rw [hready] at hwait
    exact ⟨_, bind_of_ok hwait, rfl⟩
  | true =>
    rw [hready] at hwait
    exact ⟨_, bind_of_ok hwait, rfl⟩

/-! ### The loop -/

/-- One turn of a loop that succeeds: it is over, or it erases a sector and goes on behind it. -/
theorem eraseLoop_cases (h : eraseLoop env flash fuel addr len s = .ok 0 s') : (len = 0 ∧ s' = s) ∨
      (len ≠ 0 ∧ ∃ fuel' s1, fuel = fuel' + 1 ∧ s1.sectors = s.sectors ++ [addr] ∧
        eraseLoop env flash fuel' (addr + flash.erasesize) (len - flash.erasesize) s1 =
        .ok 0 s') := by
  rw [eraseLoop.eq_def] at h
  by_cases hlen : len = 0
  · rw [if_pos hlen] at h
    exact .inl ⟨hlen, (EStateM.Result.ok.inj h).2.symm⟩
  rw [if_neg hlen] at h
  cases fuel with
  | zero => exact nomatch h
  | succ fuel =>
    refine .inr ⟨hlen, fuel, ?_⟩
    obtain ⟨s1, hsector, hsectors⟩ := eraseSector_sectors env flash addr s
    have h := (bind_of_ok hsector).symm.trans h
    cases hready : ready (env.polls s.waited) with
    | false =>
      rw [hready] at h
      exact nomatch h
    | true =>
      rw [hready] at h hsectors
      exact ⟨s1, rfl, hsectors, h⟩

theorem sub_erasesize (hdvd : flash.erasesize.toNat ∣ len.toNat) (hlen : len ≠ 0) :
    (len - flash.erasesize).toNat = len.toNat - flash.erasesize.toNat ∧
      flash.erasesize.toNat ≤ len.toNat := by
  have hpos : 0 < len.toNat := Nat.pos_of_ne_zero fun h => hlen (BitVec.eq_of_toNat_eq h)
  have hle := le_of_dvd hpos hdvd
  exact ⟨BitVec.toNat_sub_of_le hle, hle⟩

theorem mem_sectorBytes_append : x ∈ sectorBytes flash (sectors ++ [offset]) ↔
      x ∈ sectorBytes flash sectors ∨ x / flash.erasesize.toNat = offset.toNat /
      flash.erasesize.toNat := by
  constructor
  · intro ⟨o, ho, hx⟩
    rcases mem_append.mp ho with ho | ho
    · exact .inl ⟨o, ho, hx⟩
    · obtain rfl := mem_singleton.mp ho
      exact .inr hx
  · intro h
    rcases h with ⟨o, ho, hx⟩ | hx
    · exact ⟨o, mem_append_left _ ho, hx⟩
    · exact ⟨offset, mem_append_right _ (mem_singleton_self offset), hx⟩

/-- The sector of a byte, as an interval. -/
theorem div_eq_div_iff_base (he : 0 < e) : x / e = a / e ↔ a / e * e ≤ x ∧ x < a / e * e + e := by
  rw [← succ_mul, ← le_div_iff_mul_le he, ← div_lt_iff_lt_mul he]
  omega

theorem add_div_mul (he : 0 < e) : (a + e) / e * e = a / e * e + e := by
  rw [add_div_right a he, succ_mul]

/-- **The run lemma.** A loop over whole sectors that succeeds erases the sectors from the one of
its start on, as many as its length has. -/
theorem eraseLoop_sectors (hE : flash.erasesize.toNat = E) (hpos : 0 < E)
    (hdvd : E ∣ len.toNat) (hfit : addr.toNat + len.toNat < 2 ^ 32)
    (h : eraseLoop env flash fuel addr len s = .ok 0 s') (x : Nat) :
    x ∈ sectorBytes flash s'.sectors ↔ x ∈ sectorBytes flash s.sectors ∨
      (addr.toNat / E * E ≤ x ∧ x < addr.toNat / E * E + len.toNat) := by
  subst hE
  induction fuel generalizing addr len s with
  | zero =>
    obtain ⟨rfl, rfl⟩ | ⟨-, fuel', s1, hfuel, -⟩ := eraseLoop_cases h
    · exact (or_iff_left (by show ¬ (_ ≤ x ∧ x < _ + 0); omega)).symm
    · exact nomatch hfuel
  | succ fuel ih =>
    obtain ⟨rfl, rfl⟩ | ⟨hlen, fuel', s1, hfuel, hsectors, hrest⟩ := eraseLoop_cases h
    · exact (or_iff_left (by show ¬ (_ ≤ x ∧ x < _ + 0); omega)).symm
    obtain rfl := Nat.succ.inj hfuel
    obtain ⟨hsub, hle⟩ := sub_erasesize hdvd hlen
    have hadd : (addr + flash.erasesize).toNat = addr.toNat + flash.erasesize.toNat :=
      BitVec.toNat_add_of_lt (by omega)
    rw [ih (by omega) hrest (hsub ▸ Nat.dvd_sub hdvd (Nat.dvd_refl _)), hsectors,
      mem_sectorBytes_append, div_eq_div_iff_base hpos, hadd, hsub, add_div_mul hpos, or_assoc]
    refine or_congr_right ?_
    omega

/-! ### The request -/

/-- An erase that comes to its end was accepted, and its loop went through. -/
theorem m25p80Erase_cases (h : m25p80Erase env flash fuel instr s = .ok (0, instr') s') :
    instr.addr + instr.len ≤ flash.size ∧ flash.erasesize ≠ 0 ∧
      instr.len % flash.erasesize.setWidth 64 = 0 ∧ eraseLoop env flash fuel
      (instr.addr.setWidth 32) (instr.len.setWidth 32) s = .ok 0 s' := by
  unfold m25p80Erase at h
  by_cases hsize : flash.size < instr.addr + instr.len
  · rw [if_pos hsize] at h
    exact nomatch h
  rw [if_neg hsize] at h
  by_cases hzero : flash.erasesize = 0
  · rw [if_pos hzero] at h
    exact nomatch h
  rw [if_neg hzero] at h
  by_cases hrem : instr.len % flash.erasesize.setWidth 64 ≠ 0
  · rw [if_pos hrem] at h
    exact nomatch h
  rw [if_neg hrem] at h
  refine ⟨BitVec.not_lt.mp hsize, hzero, Decidable.not_not.mp hrem, ?_⟩
  cases hloop : eraseLoop env flash fuel (instr.addr.setWidth 32) (instr.len.setWidth 32) s with
  | error e s1 =>
    rw [bind_of_error hloop] at h
    exact nomatch h
  | ok failed s1 =>
    rw [bind_of_ok hloop] at h
    by_cases hfailed : failed ≠ 0
    · rw [if_pos hfailed] at h
      exact nomatch h
    · rw [if_neg hfailed] at h
      rw [Decidable.not_not.mp hfailed, (EStateM.Result.ok.inj h).2]

/-- A range that does not wrap around: its bounds have 32 bits, and it is made of whole sectors. -/
theorem range_fits (hflash : flash.size.toNat < 2 ^ 32) (hle : instr.addr + instr.len ≤ flash.size)
    (hwrap : instr.addr.toNat + instr.len.toNat < 2 ^ 64) :
    (instr.addr.setWidth 32).toNat = instr.addr.toNat ∧
      (instr.len.setWidth 32).toNat = instr.len.toNat ∧
      instr.addr.toNat + instr.len.toNat < 2 ^ 32 := by
  have hsum : instr.addr.toNat + instr.len.toNat ≤ flash.size.toNat := by
    have h : (instr.addr + instr.len).toNat ≤ flash.size.toNat := hle
    rwa [BitVec.toNat_add_of_lt hwrap] at h
  rw [BitVec.toNat_setWidth, BitVec.toNat_setWidth]
  omega

/-- Without overflow the bytes erased are as many as asked for, from the start of a sector on. -/
theorem erased_eq (hflash : flash.size.toNat < 2 ^ 32)
    (hE : flash.erasesize.toNat = E) (hpos : 0 < E) (hle : instr.addr + instr.len ≤ flash.size)
    (hrem : instr.len % flash.erasesize.setWidth 64 = 0)
    (hwrap : instr.addr.toNat + instr.len.toNat < 2 ^ 64)
    (hloop : eraseLoop env flash fuel (instr.addr.setWidth 32) (instr.len.setWidth 32)
      { s with sectors := [] } = .ok 0 s') (x : Nat) :
    x ∈ sectorBytes flash s'.sectors ↔
      instr.addr.toNat / E * E ≤ x ∧ x < instr.addr.toNat / E * E + instr.len.toNat := by
  obtain ⟨haddr, hlen, hfit⟩ := range_fits hflash hle hwrap
  have hdvd : E ∣ instr.len.toNat := by
    have hmod := congrArg BitVec.toNat hrem
    rw [BitVec.toNat_umod, BitVec.toNat_setWidth_of_le (by decide), hE] at hmod
    exact dvd_of_mod_eq_zero hmod
  rw [eraseLoop_sectors hE hpos (hlen ▸ hdvd) (by omega) hloop, haddr, hlen]
  exact or_iff_right fun ⟨_, h, _⟩ => absurd h not_mem_nil

/-- The offsets have 32 bits, so a sector ends far below the last byte a wrapped range names. -/
theorem not_mem_sectorBytes (hpos : 0 < flash.erasesize.toNat) :
    2 ^ 64 - 1 ∉ sectorBytes flash sectors := by
  intro ⟨offset, _, hx⟩
  have hlt := ((div_eq_div_iff_base hpos).mp hx).2
  have hbase := div_mul_le_self offset.toNat flash.erasesize.toNat
  omega

/-- **What an erase erases.** When an erase of a probed chip comes to its end, it has erased exactly
the bytes it was asked for if and only if the end of the range was computed without overflow and the
range is empty or starts at a sector. -/
theorem m25p80Erase_exact_iff (info : FlashInfo) (env : Env) (fuel : Nat)
    (instr instr' : EraseInfo) (s s' : Spi)
    (h : m25p80Erase env (probeFlash info) fuel instr { s with sectors := [] } =
      .ok (0, instr') s') :
    sectorBytes (probeFlash info) s'.sectors = instr.range ↔
      instr.addr.toNat + instr.len.toNat < 2 ^ 64 ∧
        (instr.len = 0 ∨ (probeFlash info).erasesize.toNat ∣ instr.addr.toNat) := by
  obtain ⟨hle, hzero, hrem, hloop⟩ := m25p80Erase_cases h
  generalize hflash : probeFlash info = flash at *
  have hsize : flash.size.toNat < 2 ^ 32 := hflash ▸ probeFlash_size_lt info
  have hpos : 0 < flash.erasesize.toNat := Nat.pos_of_ne_zero fun h =>
    hzero (BitVec.eq_of_toNat_eq h)
  have hlen : instr.len = 0 ↔ instr.len.toNat = 0 := (BitVec.toNat_inj (y := 0)).symm
  by_cases hwrap : instr.addr.toNat + instr.len.toNat < 2 ^ 64
  · have herased := erased_eq hsize rfl hpos hle hrem hwrap hloop
    have hbase := div_mul_le_self instr.addr.toNat flash.erasesize.toNat
    rw [Set.ext_iff, hlen, dvd_iff_div_mul_eq]
    constructor
    · intro heq
      refine ⟨hwrap, ?_⟩
      have hfirst := (herased _).symm.trans
        (heq (instr.addr.toNat / flash.erasesize.toNat * flash.erasesize.toNat))
      rw [mem_range] at hfirst
      omega
    · intro ⟨_, hor⟩ x
      rw [herased x, mem_range]
      omega
  · refine iff_of_false (fun heq => ?_) fun hor => hwrap hor.1
    have hlast : 2 ^ 64 - 1 ∈ instr.range := by
      rw [mem_range]
      omega
    exact not_mem_sectorBytes hpos (heq ▸ hlast)

/-- Erasing the second and third sector of a `w25q64`. -/
theorem m25p80Erase_exact_two_sectors :
    ∃ s', m25p80Erase readyEnv (probeFlash w25q64) 2 ⟨0x10000, 0x20000, .pending⟩
      { Spi.idle with sectors := [] } =
        .ok (0, ⟨0x10000, 0x20000, .done⟩) s' ∧
      sectorBytes (probeFlash w25q64) s'.sectors = EraseInfo.range ⟨0x10000, 0x20000, .pending⟩ :=
  ⟨_, rfl, (m25p80Erase_exact_iff w25q64 readyEnv 2 _ _ _ _ rfl).mpr ⟨by decide, .inr (by decide)⟩⟩

/-- A range that starts in the middle of a sector is accepted. The first half of that sector is
lost, and the second half of the range stays as it was. -/
theorem m25p80Erase_erases_other_bytes :
    ∃ s', m25p80Erase readyEnv (probeFlash w25q64) 1 ⟨0x8000, 0x10000, .pending⟩ Spi.idle =
        .ok (0, ⟨0x8000, 0x10000, .done⟩) s' ∧
      0 ∈ sectorBytes (probeFlash w25q64) s'.sectors ∧
        0 ∉ EraseInfo.range ⟨0x8000, 0x10000, .pending⟩ ∧
      0x10000 ∉ sectorBytes (probeFlash w25q64) s'.sectors ∧
      0x10000 ∈ EraseInfo.range ⟨0x8000, 0x10000, .pending⟩ := by
  refine ⟨_, rfl, ⟨0x8000, by decide, by decide⟩, mt mem_range.mp (by decide), ?_,
    mem_range.mpr (by decide)⟩
  intro ⟨offset, hoffset, hx⟩
  obtain rfl := mem_singleton.mp hoffset
  exact absurd hx (by decide)

end SilanKernel.Drivers.SilanFlash
