import SilanKernel.Csky.CacheFlush
import Mathlib.Tactic.IntervalCases

/-!
# SilanKernel.Csky.CacheFlushSound

Which ranges the line flushes of `cachev1.c` push out of the cache.

A flush `Covers` a range if it touches, for every address of the range, a byte of the
retention array in either way whose line has the index of the address. Both flushes reduce
the ends of the range modulo the way size and decide by comparing what is left; the results
say for exactly which ranges that is enough.
-/

namespace SilanKernel.Csky.CacheFlush.Geometry

open List Mask Sweep BitVec Nat

variable (g : Geometry)

/-! ### Sizes and masks -/

/-- The number of lines of a way. -/
def lines : Nat := 2 ^ (g.wayShift - 4)

theorem lines_pos : 0 < g.lines := Nat.two_pow_pos _

theorem way_eq : 2 ^ g.wayShift = 16 * g.lines := by
  rw [lines, show (16 : Nat) = 2 ^ 4 from rfl, ← Nat.pow_add, Nat.add_sub_cancel' g.line_le_way]

theorem cache_eq : 2 ^ (g.wayShift + 1) = 32 * g.lines := by
  rw [pow_succ, g.way_eq]
  omega

/-- The array is followed by room for as much again. -/
theorem room : g.resStart.toNat + 64 * g.lines ≤ 2 ^ 32 := by
  have hshift : g.wayShift + 1 < 32 :=
    (Nat.pow_lt_pow_iff_right (Nat.one_lt_two)).mp (Nat.lt_of_le_of_lt (Nat.le_add_left _ _) g.fits)
  obtain ⟨c, hc⟩ := g.aligned
  obtain ⟨d, hd⟩ := pow_dvd_pow 2 (le_of_lt hshift)
  have hfits := g.fits
  have hcd : c + 1 < d := by
    have : 2 ^ (g.wayShift + 1) * (c + 1) < 2 ^ (g.wayShift + 1) * d := by
      rw [Nat.mul_succ, ← hc, ← hd]
      exact hfits
    exact Nat.lt_of_mul_lt_mul_left this
  have := mul_le_mul_left (2 ^ (g.wayShift + 1)) hcd
  rw [← hd, Nat.succ_eq_add_one, Nat.mul_add, Nat.mul_add, ← hc, g.cache_eq] at this
  omega

theorem mod_way_lt (n : Nat) : n % (16 * g.lines) < 16 * g.lines :=
  mod_lt n (Nat.mul_pos (by decide) g.lines_pos)

/-- Where an address lies in its way. -/
abbrev place (x : Addr) : Nat := x.toNat % (16 * g.lines)

theorem place_lt (x : Addr) : g.place x < 16 * g.lines := g.mod_way_lt _

theorem toNat_cacheSize : g.cacheSize.toNat = 32 * g.lines := by
  have := g.room
  rw [cacheSize, toNat_ofNat, g.cache_eq]
  exact mod_eq_of_lt (by omega)

theorem toNat_arrayEnd : (g.resStart + g.cacheSize).toNat = g.resStart.toNat + 32 * g.lines := by
  have := g.room
  rw [toNat_add, g.toNat_cacheSize, mod_eq_of_lt (by omega)]

theorem toNat_waySize : g.waySize.toNat = 16 * g.lines := by
  rw [waySize, toNat_udiv, g.toNat_cacheSize]
  show 32 * g.lines / 2 = 16 * g.lines
  omega

theorem toNat_waySizeMask : g.waySizeMask.toNat = 2 ^ g.wayShift - 1 := by
  have hpos := g.lines_pos
  rw [waySizeMask, toNat_sub_of_le, g.toNat_waySize, g.way_eq]
  · rfl
  · rw [le_def, g.toNat_waySize]
    show 1 ≤ 16 * g.lines
    omega

theorem way_dvd_res : 2 ^ g.wayShift ∣ g.resStart.toNat :=
  dvd_trans (pow_dvd_pow 2 (le_succ _)) g.aligned

/-- `(x & WAY_SIZE_MASK) | RES_START` -/
theorem toNat_place (x : Addr) :
    ((x &&& g.waySizeMask) ||| g.resStart).toNat = g.resStart.toNat + g.place x := by
  rw [toNat_or_base g.way_dvd_res, toNat_and_mask g.toNat_waySizeMask, g.way_eq]
  rw [toNat_and_mask g.toNat_waySizeMask]
  exact Nat.mod_lt _ (Nat.two_pow_pos _)

/-- `(x & ADDR_MASK) | RES_START` -/
theorem toNat_linePlace (x : Addr) :
    ((x &&& g.addrMask) ||| g.resStart).toNat = g.resStart.toNat + g.place x / 16 * 16 := by
  have hline : (x &&& g.addrMask).toNat = g.place x / 16 * 16 := by
    rw [addrMask, ← BitVec.and_assoc, toNat_and_not_mask (k := 4) rfl,
      toNat_and_mask g.toNat_waySizeMask, g.way_eq]
    rfl
  rw [toNat_or_base g.way_dvd_res, hline]
  rw [hline, g.way_eq]
  have := g.place_lt x
  omega

/-! ### Coverage -/

/-- The index of the line of an address in either way. -/
def lineIndex (a : Addr) : Nat := a.toNat % 2 ^ g.wayShift / 16

theorem lineIndex_eq (a : Addr) : g.lineIndex a = g.place a / 16 := by
  rw [lineIndex, g.way_eq]

theorem lineIndex_lt (a : Addr) : g.lineIndex a < g.lines := by
  have := g.place_lt a
  rw [lineIndex_eq]
  omega

/-- The address lies in the half of the retention array that maps to the way. -/
def InWay (way : Nat) (p : Addr) : Prop :=
  g.resStart.toNat + way * 2 ^ g.wayShift ≤ p.toNat ∧
    p.toNat < g.resStart.toNat + (way + 1) * 2 ^ g.wayShift

/-- For every address of the range a line with its index is touched in both ways. -/
def Covers (touched : List Addr) (start stop : Addr) : Prop :=
  ∀ a, start ≤ a → a < stop → ∀ way < 2,
    ∃ p ∈ touched, g.InWay way p ∧ g.lineIndex p = g.lineIndex a

variable {g} {r : Nat} {p a start stop : Addr} {l : List Addr}

/-- Where a byte of the array is, from its distance to the start. -/
theorem inWay_iff (hp : p.toNat = g.resStart.toNat + n) :
    g.InWay way p ↔ way * (16 * g.lines) ≤ n ∧ n < (way + 1) * (16 * g.lines) := by
  rw [InWay, hp, g.way_eq]
  omega

theorem lineIndex_of_res (hp : p.toNat = g.resStart.toNat + n) :
    g.lineIndex p = n % (16 * g.lines) / 16 := by
  obtain ⟨c, hc⟩ := g.way_dvd_res
  rw [lineIndex, hp, hc, mul_add_mod, g.way_eq]

/-! ### Loads -/

theorem ldwRange_spec (hfuel : turns 16 start.toNat stop.toNat ≤ fuel)
    (hstart : start.toNat + 16 < 2 ^ 32) (hstop : stop.toNat + 16 ≤ 2 ^ 32) :
    ∃ l, ldwRange fuel start stop = some l ∧
      ∀ p, p ∈ l ↔ ∃ j < turns 16 start.toNat stop.toNat, p.toNat = start.toNat + j * 16 := by
  induction fuel generalizing start with
  | zero => exact absurd (turns_pos 16 start.toNat stop.toNat) (by omega)
  | succ fuel ih =>
    have hnext : (start + 16).toNat = start.toNat + 16 := by
      rw [toNat_add]
      exact mod_eq_of_lt hstart
    by_cases hlast : stop ≤ start + 16
    · have hturns : turns 16 start.toNat stop.toNat = 1 :=
        turns_of_le (by decide) (by rw [← hnext]; exact hlast)
      refine ⟨[start], by rw [ldwRange, if_pos hlast], fun p => ?_⟩
      rw [mem_singleton, hturns, ← toNat_inj]
      constructor
      · exact fun h => ⟨0, by decide, by omega⟩
      · rintro ⟨j, hj, hp⟩
        omega
    · have hlt : start.toNat + 16 < stop.toNat := by
        rw [← hnext]
        exact not_le.mp hlast
      have hturns := turns_of_lt (by decide) hlt
      obtain ⟨l, hl, hmem⟩ := ih (by rw [hnext]; omega) (by omega)
      refine ⟨start :: l, by rw [ldwRange, if_neg hlast, hl]; rfl, fun p => ?_⟩
      rw [mem_cons, hmem, hnext, hturns, ← toNat_inj]
      constructor
      · rintro (h | ⟨j, hj, hp⟩)
        · exact ⟨0, by omega, by omega⟩
        · exact ⟨j + 1, by omega, by omega⟩
      · rintro ⟨j, hj, hp⟩
        cases j with
        | zero => exact .inl (by omega)
        | succ j => exact .inr ⟨j, by omega, by omega⟩

/-- The list has the addresses of a sweep between two distances from the start of the array. -/
def Swept (g : Geometry) (l : List Addr) (s e : Nat) : Prop :=
  ∀ p : Addr, p ∈ l ↔ ∃ j < turns 16 s e, p.toNat = g.resStart.toNat + (s + j * 16)

theorem ldwRange_swept (hstart : start.toNat = g.resStart.toNat + s)
    (hstop : stop.toNat = g.resStart.toNat + e) (hs : s ≤ 32 * g.lines)
    (he : e ≤ 32 * g.lines + 16) :
    ∃ l, ldwRange loopBound start stop = some l ∧ g.Swept l s e := by
  have hroom := g.room
  have hpos := g.lines_pos
  have hturns : turns 16 start.toNat stop.toNat = turns 16 s e := by
    rw [hstart, hstop, turns_add_left]
  have hbound : turns 16 start.toNat stop.toNat ≤ loopBound := by
    rw [hturns, turns, loopBound]
    omega
  obtain ⟨l, hl, hmem⟩ := ldwRange_spec hbound (by omega) (by omega)
  refine ⟨l, hl, fun p => ?_⟩
  rw [hmem, hturns, hstart]
  simp only [add_assoc]

/-- The list has at least these addresses. -/
def Sweeps (g : Geometry) (l : List Addr) (s e : Nat) : Prop :=
  ∀ p : Addr, (∃ j < turns 16 s e, p.toNat = g.resStart.toNat + (s + j * 16)) → p ∈ l

theorem Swept.sweeps (h : g.Swept l s e) : g.Sweeps l s e := fun p => (h p).mpr

/-- A sweep touches the line it starts in, and a later one if it does not stop before its
place in that line. -/
theorem Sweeps.touches (h : g.Sweeps l s e) (hl : l ⊆ l') (hway : way < 2)
    (hs : s / 16 ≤ way * g.lines + g.lineIndex a)
    (he : way * g.lines + g.lineIndex a = s / 16 ∨
      (way * g.lines + g.lineIndex a) * 16 + s % 16 < e) :
    ∃ p ∈ l', g.InWay way p ∧ g.lineIndex p = g.lineIndex a := by
  have hroom := g.room
  have hlt := g.lineIndex_lt a
  have hline := Nat.mul_div_cancel (way * g.lines + g.lineIndex a) (show 0 < 16 by decide)
  obtain ⟨j, hj, hblock⟩ := exists_turn_in_block (by decide) (hs.trans_eq hline.symm)
    (by rwa [hline])
  rw [hline] at hblock
  -- the cursor of that turn is in the line
  have hlow : way * (16 * g.lines) ≤ s + j * 16 ∧ s + j * 16 < (way + 1) * (16 * g.lines) := by
    interval_cases way <;> omega
  have hmod : (s + j * 16) % (16 * g.lines) = s + j * 16 - way * (16 * g.lines) := by
    obtain ⟨q, hq⟩ := Nat.exists_eq_add_of_le hlow.1
    rw [hq, add_mul way] at hlow
    rw [hq, Nat.mul_add_mod', Nat.add_sub_cancel_left]
    exact mod_eq_of_lt (by omega)
  have hp : (BitVec.ofNat 32 (g.resStart.toNat + (s + j * 16))).toNat =
      g.resStart.toNat + (s + j * 16) := by
    rw [toNat_ofNat]
    refine mod_eq_of_lt ?_
    interval_cases way <;> omega
  refine ⟨_, hl (h _ ⟨j, hj, hp⟩), (inWay_iff hp).mpr hlow, ?_⟩
  rw [lineIndex_of_res hp, hmod]
  interval_cases way <;> omega

/-- A sweep that ends at its first turn. -/
theorem Swept.single (h : g.Swept l s e) (he : e ≤ s + 16) (hp : p ∈ l) :
    p.toNat = g.resStart.toNat + s := by
  obtain ⟨j, hj, hp⟩ := (h p).mp hp
  rw [turns_of_le (by decide) he] at hj
  omega

/-! ### The data cache -/

theorem lt_way_iff (hle : start ≤ stop) :
    stop - start < g.waySize ↔ stop.toNat - start.toNat < 16 * g.lines := by
  rw [lt_def, toNat_sub_of_le hle, g.toNat_waySize]

theorem flushDcacheRange_whole (hle : start ≤ stop)
    (hlen : 16 * g.lines ≤ stop.toNat - start.toNat) :
    g.flushDcacheRange start stop = some (.whole (DATA_CACHE ||| CACHE_INV ||| CACHE_CLR)) := by
  rw [flushDcacheRange, if_neg (fun h => absurd ((lt_way_iff hle).mp h) (by omega))]
  rfl

/-- The place of the end of the range, one line further. -/
theorem toNat_endaddr (stop : Addr) : (((stop &&& g.waySizeMask) ||| g.resStart) + 16).toNat =
      g.resStart.toNat + (g.place stop + 16) := by
  have hroom := g.room
  have hpos := g.lines_pos
  have hmod := g.place_lt stop
  rw [toNat_add, g.toNat_place]
  show (_ + 16) % 2 ^ 32 = _
  rw [mod_eq_of_lt (by omega)]
  omega

theorem toNat_add_waySize (hx : x.toNat = g.resStart.toNat + n) (hn : n ≤ 16 * g.lines + 16) :
    (x + g.waySize).toNat = g.resStart.toNat + (16 * g.lines + n) := by
  have hroom := g.room
  rw [toNat_add, hx, g.toNat_waySize, mod_eq_of_lt (by omega)]
  omega

section

variable (hle : start ≤ stop) (hlen : stop.toNat - start.toNat < 16 * g.lines)
include hle hlen

/-- The three sweeps for a range that passes the end of the way. -/
theorem flushDcacheRange_three (hwrap : g.place stop + 16 < g.place start) :
    ∃ l1 l2 l3, g.flushDcacheRange start stop = some (.lines (l1 ++ l2 ++ l3)) ∧
      g.Swept l1 0 (g.place stop + 16) ∧
      g.Swept l2 (g.place start) (16 * g.lines + (g.place stop + 16)) ∧
      g.Swept l3 (16 * g.lines + g.place start) (32 * g.lines) := by
  have hroom := g.room
  have hs := g.place_lt start
  have hstart := g.toNat_place start
  have hend := toNat_endaddr (g := g) stop
  have hbegin : g.resStart.toNat = g.resStart.toNat + 0 := rfl
  obtain ⟨l1, h1, hl1⟩ := ldwRange_swept hbegin hend (by omega) (by omega)
  obtain ⟨l2, h2, hl2⟩ := ldwRange_swept hstart (toNat_add_waySize hend (by omega))
    (by omega) (by omega)
  obtain ⟨l3, h3, hl3⟩ := ldwRange_swept (toNat_add_waySize hstart (by omega)) g.toNat_arrayEnd
    (by omega) (by omega)
  refine ⟨l1, l2, l3, ?_, hl1, hl2, hl3⟩
  rw [flushDcacheRange, if_pos ((lt_way_iff hle).mpr hlen), if_pos, h1, h2, h3]
  · rfl
  · show _ < _
    rw [lt_def, hstart, hend]
    omega

/-- The two sweeps for any other range. -/
theorem flushDcacheRange_two (hwrap : g.place start ≤ g.place stop + 16) :
    ∃ l1 l2, g.flushDcacheRange start stop = some (.lines (l1 ++ l2)) ∧
      g.Swept l1 (g.place start) (g.place stop + 16) ∧
      g.Swept l2 (16 * g.lines + g.place start) (16 * g.lines + (g.place stop + 16)) := by
  have hs := g.place_lt start
  have he := g.place_lt stop
  have hstart := g.toNat_place start
  have hend := toNat_endaddr (g := g) stop
  obtain ⟨l1, h1, hl1⟩ := ldwRange_swept hstart hend (by omega) (by omega)
  obtain ⟨l2, h2, hl2⟩ := ldwRange_swept (toNat_add_waySize hstart (by omega))
    (toNat_add_waySize hend (by omega)) (by omega) (by omega)
  refine ⟨l1, l2, ?_, hl1, hl2⟩
  rw [flushDcacheRange, if_pos ((lt_way_iff hle).mpr hlen), if_neg, h1, h2]
  · rfl
  · show ¬ _ < _
    rw [lt_def, hstart, hend]
    omega

theorem covers_three (hwrap : g.place stop + 16 < g.place start) :
    ∃ l, g.flushDcacheRange start stop = some (.lines l) ∧ g.Covers l start stop := by
  obtain ⟨l1, l2, l3, hflush, h1, h2, h3⟩ := flushDcacheRange_three hle hlen hwrap
  refine ⟨_, hflush, fun a hstart hstop way hway => ?_⟩
  have hs := g.place_lt start
  have hr := g.place_lt a
  have hline := g.lineIndex_eq a
  have hcases := mod_of_mem_range hstart hstop hlen
  unfold place at *
  -- the second sweep covers the end of the first way and the beginning of the second
  interval_cases way
  · rcases hcases with hin | ⟨-, hafter | hbefore⟩
    · omega
    · exact h2.sweeps.touches (by simp) hway (by omega) (by omega)
    · exact h1.sweeps.touches (by simp) hway (by omega) (by omega)
  · rcases hcases with hin | ⟨-, hafter | hbefore⟩
    · omega
    · exact h3.sweeps.touches (by simp) hway (by omega) (by omega)
    · exact h2.sweeps.touches (by simp) hway (by omega) (by omega)

/-- The two sweeps cover a range that lies between their ends, and one that has no other line
than that of its start. -/
theorem covers_two (hwrap : g.place start ≤ g.place stop + 16)
    (hlines : ∀ a, start ≤ a → a < stop →
      g.place start ≤ g.place a ∧ g.place a < g.place stop ∨
        g.place a / 16 = g.place start / 16) :
    ∃ l, g.flushDcacheRange start stop = some (.lines l) ∧ g.Covers l start stop := by
  obtain ⟨l1, l2, hflush, h1, h2⟩ := flushDcacheRange_two hle hlen hwrap
  refine ⟨_, hflush, fun a hstart hstop way hway => ?_⟩
  have hline := g.lineIndex_eq a
  have hcases := hlines a hstart hstop
  interval_cases way
  · exact h1.sweeps.touches (by simp) hway (by omega) (by omega)
  · exact h2.sweeps.touches (by simp) hway (by omega) (by omega)

/-- When the ends meet, one turn of either sweep is all, so the range may have no other line
than that of its start. -/
theorem line_eq_of_covers (hwrap : g.place stop < g.place start)
    (hmeet : g.place start ≤ g.place stop + 16)
    (hflush : g.flushDcacheRange start stop = some (.lines l)) (hcovers : g.Covers l start stop)
    (hr : g.place start ≤ r ∧ r < 16 * g.lines ∨ r < g.place stop) :
    r / 16 = g.place start / 16 := by
  obtain ⟨l1, l2, hflush', h1, h2⟩ := flushDcacheRange_two hle hlen hmeet
  obtain rfl : l = l1 ++ l2 := by simpa [hflush] using hflush'
  obtain ⟨z, hxz, hzy, hz⟩ := exists_mem_range_mod hle hlen hwrap hr
  have hzn : (BitVec.ofNat 32 z).toNat = z := mod_eq_of_lt (by omega)
  obtain ⟨p, hp, hway, hline⟩ := hcovers (BitVec.ofNat 32 z) (by rw [BitVec.le_def, hzn]; exact hxz)
    (by rw [lt_def, hzn]; exact hzy) 0 (by decide)
  rw [lineIndex, lineIndex, hzn, g.way_eq, hz] at hline
  rcases mem_append.mp hp with hp | hp
  · have hpn := h1.single (by omega) hp
    have hindex := lineIndex_of_res hpn
    rw [lineIndex, g.way_eq, hline, mod_mod] at hindex
    exact hindex
  · have hpn := h2.single (by omega) hp
    have := (inWay_iff hpn).mp hway
    omega

end

/-- The data cache is flushed as a whole, or every line of the range is pushed out. -/
def DcacheFlushed (g : Geometry) (start stop : Addr) : Prop :=
  g.flushDcacheRange start stop = some (.whole (DATA_CACHE ||| CACHE_INV ||| CACHE_CLR)) ∨
    ∃ l, g.flushDcacheRange start stop = some (.lines l) ∧ g.Covers l start stop

/-- `__flush_dcache_range` misses lines exactly if the range is shorter than a way, passes a
multiple of the way size, and ends no more than 16 bytes before its start modulo that size:
the code then takes the range for one that does not wrap. Two caches are too small for that
to matter. -/
theorem flushDcacheRange_covers_iff (g : Geometry) (start stop : Addr) (hle : start ≤ stop) :
    g.DcacheFlushed start stop ↔ ¬ (stop.toNat - start.toNat < 2 ^ g.wayShift ∧
          stop.toNat % 2 ^ g.wayShift < start.toNat % 2 ^ g.wayShift ∧
          start.toNat % 2 ^ g.wayShift ≤ stop.toNat % 2 ^ g.wayShift + 16) ∨
        2 ^ g.wayShift = 16 ∨
        2 ^ g.wayShift = 32 ∧ start.toNat % 2 ^ g.wayShift = 16 ∧
          stop.toNat % 2 ^ g.wayShift = 0 := by
  have hpos := g.lines_pos
  have hplace : ∀ x : Addr, x.toNat % 2 ^ g.wayShift = g.place x := fun x => by rw [place, g.way_eq]
  rw [hplace, hplace, g.way_eq]
  have hs := g.place_lt start
  by_cases hlen : stop.toNat - start.toNat < 16 * g.lines
  swap
  · exact iff_of_true (.inl (flushDcacheRange_whole hle (by omega))) (.inl fun h => hlen h.1)
  by_cases hthree : g.place stop + 16 < g.place start
  · exact iff_of_true (.inr (covers_three hle hlen hthree)) (.inl fun h => by omega)
  by_cases hwrap : g.place stop < g.place start
  swap
  · refine iff_of_true (.inr (covers_two hle hlen (by omega) fun a hstart hstop => ?_))
      (.inl fun h => hwrap h.2.1)
    have := mod_of_mem_range hstart hstop hlen
    unfold place at *
    omega
  constructor
  · rintro (hflush | ⟨l, hflush, hcovers⟩)
    · obtain ⟨_, _, hlines, -⟩ := flushDcacheRange_two hle hlen (by omega)
      rw [hflush] at hlines
      nomatch hlines
    -- the last line of the way, and the first one if the range goes on there
    have hline : ∀ r, g.place start ≤ r ∧ r < 16 * g.lines ∨ r < g.place stop →
        r / 16 = g.place start / 16 :=
      fun r => line_eq_of_covers hle hlen hwrap (by omega) hflush hcovers
    have hlast := hline (16 * g.lines - 1) (by omega)
    rcases Nat.eq_zero_or_pos (g.place stop) with hzero | hsome
    · omega
    · have hfirst := hline 0 (by omega)
      omega
  · intro hsmall
    refine .inr (covers_two hle hlen (by omega) fun a hstart hstop => .inr ?_)
    have hr := g.place_lt a
    have := mod_of_mem_range hstart hstop hlen
    unfold place at *
    omega

/-- The default cache of 16 KiB, and a place for the array. -/
def cache16k : Geometry where
  wayShift := 13
  line_le_way := by decide
  resStart := 0x80404000
  aligned := by decide
  fits := by decide

/-- For the 8182 bytes from address 20 on only the second line of either way is pushed out. -/
theorem flushDcacheRange_misses_last_line : ¬ cache16k.DcacheFlushed 20 8202 := by
  have hflush : cache16k.flushDcacheRange 20 8202 = some (.lines [0x80404014, 0x80406014]) := by rfl
  rintro (h | ⟨l, h, hcovers⟩)
  · rw [hflush] at h
    nomatch h
  · obtain rfl := Flush.lines.inj (Option.some.inj (hflush.symm.trans h))
    obtain ⟨p, hp, -, hline⟩ := hcovers 8191 (by decide) (by decide) 0 (by decide)
    simp only [mem_cons, not_mem_nil, or_false] at hp
    rcases hp with rfl | rfl <;> exact absurd hline (by decide)

/-- A range of three lines in the same cache. -/
theorem flushDcacheRange_covers_iff_three_lines : (4 : Addr) ≤ 40 ∧ cache16k.DcacheFlushed 4 40 :=
  ⟨by decide, (flushDcacheRange_covers_iff cache16k 4 40 (by decide)).mpr (.inl (by decide))⟩

end SilanKernel.Csky.CacheFlush.Geometry
