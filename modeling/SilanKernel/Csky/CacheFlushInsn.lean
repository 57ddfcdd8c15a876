import SilanKernel.Csky.CacheFlushSound

/-!
# SilanKernel.Csky.CacheFlushInsn

Which ranges `__flush_icache_range` pushes out of the instruction cache.

One turn of the loop executes a line of the first half of the retention array and, through
`r2`, a line of the second half. The two cursors start at the same line index only in the
sweep that begins at `startaddr`; in the sweep from the start of the array they do not, and
the second one can leave the array.
-/

namespace SilanKernel.Csky.CacheFlush.Geometry

open BitVec List Mask Sweep Nat

variable {g : Geometry} {s : g.Retention} {start stop : Addr}

/-! ### The array -/

theorem hindex_eq (g : Geometry) : g.hindex = g.lines := by
  rw [hindex, toNat_udiv, toNat_udiv, g.toNat_cacheSize]
  show 32 * g.lines / 16 / 2 = g.lines
  omega

namespace Retention

theorem ready_haveInit (s : g.Retention) : s.ready.haveInit = true := by
  rw [ready]
  split
  · assumption
  · rfl

/-- What a fetch from a line of the array does. -/
theorem fetch_line (hpc : pc.toNat = g.resStart.toNat + i * 16) (hi : i < 2 * g.lines) :
    s.fetch pc =
      if s.first i = JMP_R2 then .ok .jmpR2 else if s.first i = JMP_R15 then .ok .jmpR15 else
      .error (.unknown pc) := by
  have hsub : (pc - g.resStart).toNat = i * 16 := by
    rw [toNat_sub_of_le (by rw [le_def]; omega)]
    omega
  have hin : ¬ (pc < g.resStart ∨ g.resStart + g.cacheSize ≤ pc) := by
    rw [lt_def, le_def, g.toNat_arrayEnd]
    omega
  have haligned : (pc - g.resStart) &&& lineLenMask = 0 := by
    rw [← toNat_inj, toNat_and_mask (k := 4) rfl, hsub]
    exact mul_mod_left i 16
  have hindex : ((pc - g.resStart) / 16).toNat = i := by
    rw [toNat_udiv, hsub]
    exact Nat.mul_div_cancel i (by decide)
  rw [fetch, if_neg hin, if_neg (not_not.mpr haligned), hindex]
  rfl

theorem fetch_first_half (hs : s.haveInit = true) (hpc : pc.toNat = g.resStart.toNat + i * 16)
    (hi : i < g.lines) :
    s.fetch pc = .ok .jmpR2 := by
  rw [fetch_line hpc (by omega), if_pos (s.inited hs i (by rwa [hindex_eq])).1]

theorem fetch_second_half (hs : s.haveInit = true)
    (hpc : pc.toNat = g.resStart.toNat + (i + g.lines) * 16) (hi : i < g.lines) :
    s.fetch pc = .ok .jmpR15 := by
  have hbyte := (s.inited hs i (by rwa [hindex_eq])).2
  rw [hindex_eq] at hbyte
  rw [fetch_line hpc (by omega), hbyte]
  rfl

/-- Control is in the array where an instruction is fetched. -/
theorem inWay_of_fetch (h : s.fetch pc = .ok insn) : g.InWay 0 pc ∨ g.InWay 1 pc := by
  rw [fetch] at h
  split at h
  · nomatch h
  · rename_i hin
    rw [lt_def, le_def, g.toNat_arrayEnd] at hin
    rw [InWay, InWay, g.way_eq]
    omega

/-! ### One turn -/

theorem jsr_ok (hs : s.haveInit = true) (hpc : pc.toNat = g.resStart.toNat + i * 16)
    (hi : i < g.lines) (hr2 : r2.toNat = g.resStart.toNat + (d + g.lines) * 16) (hd : d < g.lines) :
    s.jsr r2 pc = .ok [pc, r2] := by
  simp only [jsr, fetch_first_half hs hpc hi, fetch_second_half hs hr2 hd, bind, Except.bind]
  rfl

/-- What a turn that comes back has executed. -/
theorem jsr_cases (h : s.jsr r2 pc = .ok l) :
    ∀ p ∈ l, (p = pc ∨ p = r2) ∧ (g.InWay 0 p ∨ g.InWay 1 p) := by
  rw [jsr, bind_eq_ok] at h
  obtain ⟨insn, hpc, h⟩ := h
  have hin := inWay_of_fetch hpc
  cases insn with
  | jmpR15 =>
    obtain rfl : [pc] = l := Except.ok.inj h
    intro p hp
    obtain rfl := mem_singleton.mp hp
    exact ⟨.inl rfl, hin⟩
  | jmpR2 =>
    obtain ⟨insn, hr2, h⟩ := bind_eq_ok.mp h
    have hin2 := inWay_of_fetch hr2
    cases insn with
    | jmpR2 => nomatch h
    | jmpR15 =>
      obtain rfl : [pc, r2] = l := Except.ok.inj h
      intro p hp
      rcases mem_pair.mp hp with rfl | rfl
      · exact ⟨.inl rfl, hin⟩
      · exact ⟨.inr rfl, hin2⟩

/-! ### A sweep -/

theorem jsrRange_last (h : stop ≤ start + 16) : s.jsrRange (fuel + 1) r2 start stop =
    s.jsr r2 start := by
  rw [jsrRange]
  cases s.jsr r2 start with
  | error err => rfl
  | ok l => simp only [bind, Except.bind, if_pos h, pure, Except.pure]

theorem jsrRange_more (h : ¬ stop ≤ start + 16) : s.jsrRange (fuel + 1) r2 start stop = (do
      let executed ← s.jsr r2 start
      let rest ← s.jsrRange fuel (r2 + 16) (start + 16) stop
      pure (executed ++ rest)) := by
  rw [jsrRange]
  simp only [if_neg h]

theorem toNat_add_line {x : Addr} (hx : x.toNat + 16 < 2 ^ 32) : (x + 16).toNat = x.toNat + 16 := by
  rw [toNat_add]
  exact mod_eq_of_lt hx

/-- A sweep whose cursors stay in their halves of the array executes all their lines. -/
theorem jsrRange_ok (hs : s.haveInit = true) (hstart : start.toNat = g.resStart.toNat + i * 16)
    (hstop : stop.toNat = g.resStart.toNat + e * 16)
    (hr2 : r2.toNat = g.resStart.toNat + (d + g.lines) * 16) (hi : i < g.lines) (he : e ≤ g.lines)
    (hd : d < g.lines) (hde : d + e ≤ i + g.lines) (hfuel : e - i < fuel) :
    ∃ l, s.jsrRange fuel r2 start stop = .ok l ∧ g.Sweeps l (i * 16) (e * 16) ∧
      g.Sweeps l ((d + g.lines) * 16) ((d + g.lines) * 16 + (e * 16 - i * 16)) := by
  induction fuel generalizing start r2 i d with
  | zero => exact absurd hfuel (not_lt_zero _)
  | succ fuel ih =>
    have hroom := g.room
    have hpc := jsr_ok hs hstart hi hr2 hd
    have hnext := toNat_add_line (x := start) (by omega)
    by_cases hlast : stop ≤ start + 16
    · refine ⟨[start, r2], by rw [jsrRange_last hlast, hpc], ?_, ?_⟩
      · rw [le_def, hnext] at hlast
        rintro p ⟨j, hj, hp⟩
        rw [turns_of_le (by decide) (by omega)] at hj
        exact mem_pair.mpr (.inl (eq_of_toNat_eq (by omega)))
      · rw [le_def, hnext] at hlast
        rintro p ⟨j, hj, hp⟩
        rw [turns_shift, turns_of_le (by decide) (by omega)] at hj
        exact mem_pair.mpr (.inr (eq_of_toNat_eq (by omega)))
    have hlt : start.toNat + 16 < stop.toNat := by
      rw [← hnext]
      exact not_le.mp hlast
    have hnext2 := toNat_add_line (x := r2) (by omega)
    have hstart' : (start + 16).toNat = g.resStart.toNat + (i + 1) * 16 := by omega
    have hr2' : (r2 + 16).toNat = g.resStart.toNat + (d + 1 + g.lines) * 16 := by omega
    obtain ⟨l, hl, hfirst, hsecond⟩ := ih hstart' hr2' (by omega) (by omega) (by omega) (by omega)
    have hturns : turns 16 (i * 16) (e * 16) = turns 16 ((i + 1) * 16) (e * 16) + 1 := by
      rw [turns_of_lt (by decide) (by omega), Nat.succ_mul]
    refine ⟨start :: r2 :: l, by rw [jsrRange_more hlast, hpc, hl]; rfl, ?_, ?_⟩
    · rintro p ⟨j, hj, hp⟩
      cases j with
      | zero => exact mem_cons.mpr (.inl (eq_of_toNat_eq (by omega)))
      | succ j => exact mem_cons_of_mem _ (mem_cons_of_mem _ (hfirst p ⟨j, by omega, by omega⟩))
    rintro p ⟨j, hj, hp⟩
    rw [turns_shift] at hj
    cases j with
    | zero => exact mem_cons_of_mem _ (mem_cons.mpr (.inl (eq_of_toNat_eq (by omega))))
    | succ j =>
      refine mem_cons_of_mem _ (mem_cons_of_mem _ (hsecond p ⟨j, ?_, by omega⟩))
      rw [turns_shift]
      omega

/-- What a sweep that comes back has executed. -/
theorem jsrRange_cases (h : s.jsrRange fuel r2 start stop = .ok l)
    (hstart : start.toNat + 16 < 2 ^ 32) (hstop : stop.toNat + 16 ≤ 2 ^ 32)
    (hr2 : r2.toNat + (stop.toNat - start.toNat) + 16 < 2 ^ 32) :
    ∀ p ∈ l,
      (∃ j < turns 16 start.toNat stop.toNat, p.toNat = start.toNat + j * 16 ∨
      p.toNat = r2.toNat + j * 16) ∧ (g.InWay 0 p ∨ g.InWay 1 p) := by
  induction fuel generalizing start r2 l with
  | zero => nomatch h
  | succ fuel ih =>
    have hnext := toNat_add_line hstart
    have hnext2 := toNat_add_line (x := r2) (by omega)
    have hfirst : ∀ p, p = start ∨ p = r2 →
        ∃ j < turns 16 start.toNat stop.toNat, p.toNat = start.toNat + j * 16 ∨
        p.toNat = r2.toNat + j * 16 := by
      rintro p (rfl | rfl)
      · exact ⟨0, turns_pos _ _ _, .inl rfl⟩
      · exact ⟨0, turns_pos _ _ _, .inr rfl⟩
    by_cases hlast : stop ≤ start + 16
    · rw [jsrRange_last hlast] at h
      exact fun p hp => (jsr_cases h p hp).imp_left (hfirst p)
    have hlt : start.toNat + 16 < stop.toNat := by
      rw [← hnext]
      exact not_le.mp hlast
    rw [jsrRange_more hlast, bind_eq_ok] at h
    obtain ⟨executed, hexec, h⟩ := h
    obtain ⟨rest, hrest, h⟩ := bind_eq_ok.mp h
    obtain rfl : executed ++ rest = l := Except.ok.inj h
    intro p hp
    rcases mem_append.mp hp with hp | hp
    · exact (jsr_cases hexec p hp).imp_left (hfirst p)
    · obtain ⟨⟨j, hj, hpj⟩, hin⟩ := ih hrest (by omega) (by omega) p hp
      refine ⟨⟨j + 1, ?_, by omega⟩, hin⟩
      rw [turns_of_lt (by decide) hlt, ← hnext]
      omega

/-! ### The instruction cache -/

/-- `((stop + LINE_LEN_MASK) & ~LINE_LEN_MASK & ADDR_MASK) | RES_START` -/
theorem toNat_endLine (g : Geometry) (stop : Addr) :
    ((((stop + lineLenMask) &&& ~~~lineLenMask) &&& g.addrMask) ||| g.resStart).toNat =
      g.resStart.toNat + (stop.toNat + 15) % (16 * g.lines) / 16 * 16 := by
  have hround : ((stop + lineLenMask) &&& ~~~lineLenMask).toNat = (stop.toNat + 15) % 2 ^ 32 /
      2 ^ 4 * 2 ^ 4 := by
    rw [toNat_and_not_mask (k := 4) rfl, toNat_add]
    rfl
  have hdvd : 2 ^ g.wayShift ∣ 2 ^ 32 := Nat.pow_dvd_pow 2 (by
    have := (Nat.pow_lt_pow_iff_right Nat.one_lt_two).mp
      (Nat.lt_of_le_of_lt (Nat.le_add_left _ _) g.fits)
    omega)
  rw [g.toNat_linePlace, place, hround, ← g.way_eq, mod_div_mul_of_le g.line_le_way,
    mod_mod_of_dvd _ hdvd]
  omega

/-- The instruction cache is flushed as a whole, or every line of the range is executed in
both ways, and control stays in the retention array. -/
def IcacheFlushed (s : g.Retention) (start stop : Addr) : Prop :=
  ∃ s' f, s.flushIcacheRange start stop = .ok (s', f) ∧
    (f = .whole (INS_CACHE ||| CACHE_INV) ∨
      ∃ l, f = .lines l ∧ g.Covers l start stop ∧ ∀ p ∈ l, g.InWay 0 p ∨ g.InWay 1 p)

theorem flushIcacheRange_whole (hle : start ≤ stop) (hlen : 16 * g.lines ≤ stop.toNat - start.toNat)
    (s : g.Retention) : s.IcacheFlushed start stop := by
  refine ⟨s.ready, .whole 0x11, ?_, .inl rfl⟩
  rw [flushIcacheRange, if_neg (fun h => absurd ((lt_way_iff hle).mp h) (by omega))]
  rfl

/-- The indices of the first line of a range and of the line after it, in a range that is
shorter than a way. -/
structure Bounds (g : Geometry) (start stop : Addr) (i e : Nat) : Prop where
  le : start ≤ stop
  len : stop.toNat - start.toNat < 16 * g.lines
  first : start.toNat % (16 * g.lines) / 16 = i
  last : (stop.toNat + 15) % (16 * g.lines) / 16 = e

namespace Bounds

variable (h : Bounds g start stop i e)
include h

theorem first_lt : i < g.lines := by
  have hpos := g.lines_pos
  have := g.mod_way_lt start.toNat
  have := h.first
  omega

theorem last_lt : e < g.lines := by
  have hpos := g.lines_pos
  have := g.mod_way_lt (stop.toNat + 15)
  have := h.last
  omega

theorem toNat_r2 : (((start &&& g.addrMask) ||| g.resStart) + g.waySize).toNat =
    g.resStart.toNat + (i + g.lines) * 16 := by
  have hi := h.first_lt
  have hstart := g.toNat_linePlace start
  rw [h.first] at hstart
  rw [toNat_add_waySize hstart (by omega)]
  omega

section

variable (s) {a : Addr}

/-- Two sweeps where the line after the range is below the first one, and one where it is not. -/
theorem sweeps : ∃ startaddr endaddr wayend r2 : Addr,
      startaddr.toNat = g.resStart.toNat + i * 16 ∧ endaddr.toNat = g.resStart.toNat + e * 16 ∧
      wayend.toNat = g.resStart.toNat + g.lines * 16 ∧
      r2.toNat = g.resStart.toNat + (i + g.lines) * 16 ∧
      s.flushIcacheRange start stop = if e < i then (do
        let first ← s.ready.jsrRange loopBound r2 g.resStart endaddr
        let second ← s.ready.jsrRange loopBound r2 startaddr wayend
        pure (s.ready, .lines (first ++ second))) else (do
        let executed ← s.ready.jsrRange loopBound r2 startaddr endaddr
        pure (s.ready, .lines executed)) := by
  have hstart := g.toNat_linePlace start
  have hend := toNat_endLine g stop
  rw [h.first] at hstart
  rw [h.last] at hend
  have hway : (g.resStart + g.waySize).toNat = g.resStart.toNat + g.lines * 16 := by
    rw [toNat_add_waySize (n := 0) rfl (zero_le _)]
    omega
  refine ⟨_, _, _, _, hstart, hend, hway, h.toNat_r2, ?_⟩
  rw [flushIcacheRange, if_pos ((lt_way_iff h.le).mpr h.len)]
  refine if_congr ?_ rfl rfl
  rw [gt_iff_lt, lt_def, hstart, hend]
  omega

theorem flushed_one (hsweep : i ≤ e)
    (hlines : ∀ a, start ≤ a → a < stop → i ≤ g.lineIndex a ∧
      (g.lineIndex a < e ∨ g.lineIndex a = i)) :
    s.IcacheFlushed start stop := by
  have hroom := g.room
  have hi := h.first_lt
  have he := h.last_lt
  obtain ⟨startaddr, endaddr, _, r2, hstart, hend, -, hr2, heq⟩ := h.sweeps s
  rw [if_neg hsweep.not_gt] at heq
  obtain ⟨l, hl, hfirst, hsecond⟩ := jsrRange_ok s.ready_haveInit hstart hend hr2 hi he.le
    hi (by omega) (show _ < loopBound by rw [loopBound]; omega)
  refine ⟨s.ready, .lines
    l, by rw [heq, hl]; rfl, .inr ⟨l, rfl, fun a hxa hay way hway => ?_, fun p hp => ?_⟩⟩
  · have hline := hlines a hxa hay
    interval_cases way
    · exact hfirst.touches (Subset.refl l) hway (by omega) (by omega)
    · exact hsecond.touches (Subset.refl l) hway (by omega) (by omega)
  · exact (jsrRange_cases hl (by omega) (by omega) (by omega) p hp).2

theorem flushed_two (hlast : e = 0) (hfirst : 0 < i)
    (hlines : ∀ a, start ≤ a → a < stop → i ≤ g.lineIndex a) : s.IcacheFlushed start stop := by
  subst hlast
  have hroom := g.room
  have hi := h.first_lt
  obtain ⟨startaddr, endaddr, wayend, r2, hstart, hend, hwayend, hr2, heq⟩ := h.sweeps s
  rw [if_pos hfirst] at heq
  have hbegin : g.resStart.toNat = g.resStart.toNat + 0 * 16 := by omega
  obtain ⟨l1, hl1, -, -⟩ := jsrRange_ok s.ready_haveInit hbegin hend hr2 g.lines_pos g.lines_pos.le
    hi (by omega) (show _ < loopBound by decide)
  obtain ⟨l2, hl2, hfirst, hsecond⟩ := jsrRange_ok s.ready_haveInit hstart hwayend hr2 hi
    (le_refl _) hi (le_refl _) (show _ < loopBound by rw [loopBound]; omega)
  refine ⟨s.ready, .lines
    (l1 ++ l2), by rw [heq, hl1, hl2]; rfl, .inr ⟨_, rfl, fun a hxa hay way hway => ?_, ?_⟩⟩
  · have hline := hlines a hxa hay
    have hlt := g.lineIndex_lt a
    interval_cases way
    · exact hfirst.touches (subset_append_right l1 l2) hway (by omega) (by omega)
    · exact hsecond.touches (subset_append_right l1 l2) hway (by omega) (by omega)
  · intro p hp
    rcases mem_append.mp hp with hp | hp
    · exact (jsrRange_cases hl1 (by omega) (by omega) (by omega) p hp).2
    · exact (jsrRange_cases hl2 (by omega) (by omega) (by omega) p hp).2

/-- One turn executes no line but the first. -/
theorem not_flushed_one (hsweep : i ≤ e) (hshort : e ≤ i + 1)
    (hxa : start ≤ a) (hay : a < stop) (hother : g.lineIndex a ≠ i) :
    ¬ s.IcacheFlushed start stop := by
  have hroom := g.room
  have he := h.last_lt
  obtain ⟨startaddr, endaddr, _, r2, hstart, hend, -, hr2, heq⟩ := h.sweeps s
  rw [if_neg hsweep.not_gt] at heq
  rintro ⟨s', f, hf, hgood⟩
  rw [heq] at hf
  obtain ⟨l, hl, hf⟩ := bind_eq_ok.mp hf
  obtain ⟨-, rfl⟩ := Prod.mk.inj (Except.ok.inj hf)
  rcases hgood with hwhole | ⟨l', hlines, hcovers, -⟩
  · nomatch hwhole
  obtain rfl := Flush.lines.inj hlines
  obtain ⟨p, hp, hway, hline⟩ := hcovers a hxa hay 0 (by decide)
  obtain ⟨⟨j, hj, hpj⟩, -⟩ := jsrRange_cases hl (by omega) (by omega) (by omega) p hp
  rw [turns_of_le (by decide) (by omega)] at hj
  have hpn : p.toNat = g.resStart.toNat + i * 16 := by
    rw [InWay, g.way_eq] at hway
    omega
  rw [lineIndex_of_res hpn, Nat.mod_eq_of_lt (by omega), Nat.mul_div_cancel _ (by decide)] at hline
  exact hother hline.symm

/-- Two sweeps do not execute the first line of the second way. -/
theorem not_flushed_two (hsweep : e < i) (hxa : start ≤ a) (hay : a < stop)
    (hfirst : g.lineIndex a = 0) : ¬ s.IcacheFlushed start stop := by
  have hroom := g.room
  have hi := h.first_lt
  obtain ⟨startaddr, endaddr, wayend, r2, hstart, hend, hwayend, hr2, heq⟩ := h.sweeps s
  rw [if_pos hsweep] at heq
  rintro ⟨s', f, hf, hgood⟩
  rw [heq] at hf
  obtain ⟨l1, hl1, hf⟩ := bind_eq_ok.mp hf
  obtain ⟨l2, hl2, hf⟩ := bind_eq_ok.mp hf
  obtain ⟨-, rfl⟩ := Prod.mk.inj (Except.ok.inj hf)
  rcases hgood with hwhole | ⟨l', hlines, hcovers, -⟩
  · nomatch hwhole
  obtain rfl := Flush.lines.inj hlines
  obtain ⟨p, hp, hway, hline⟩ := hcovers a hxa hay 1 (by decide)
  -- in the second way only `r2` is executed, and that from the line of `startaddr` on
  have hp2 : ∃ j, p.toNat = g.resStart.toNat + ((i + j) * 16 + 16 * g.lines) := by
    rw [InWay, g.way_eq] at hway
    rcases mem_append.mp hp with hp | hp
    · obtain ⟨⟨j, hj, hpj⟩, -⟩ := jsrRange_cases hl1 (by omega) (by omega) (by omega) p hp
      rw [lt_turns_iff (by decide)] at hj
      exact ⟨j, by omega⟩
    · obtain ⟨⟨j, hj, hpj⟩, -⟩ := jsrRange_cases hl2 (by omega) (by omega) (by omega) p hp
      rw [lt_turns_iff (by decide)] at hj
      exact ⟨j, by omega⟩
  obtain ⟨j, hpn⟩ := hp2
  have hway' := (inWay_iff hpn).mp hway
  rw [lineIndex_of_res hpn, Nat.add_mod_right, Nat.mod_eq_of_lt (by omega),
    Nat.mul_div_cancel _ (by decide), hfirst] at hline
  omega

/-- In a way of one line there is no other line to execute. -/
theorem flushed_of_single (hone : g.lines = 1) : s.IcacheFlushed start stop := by
  have hi := h.first_lt
  refine h.flushed_one s (by omega) fun a _ _ => ?_
  have := g.lineIndex_lt a
  omega

end

section

variable {u : Nat} (hx : start.toNat % (16 * g.lines) = x) (hu : stop.toNat = start.toNat + u)
include hx hu

/-- The line after the range, from the offset of the start in its block and the length. -/
theorem last_eq : e = (if x + (u + 15) < 16 * g.lines then x + (u + 15)
    else if x + (u + 15) < 2 * (16 * g.lines) then x + (u + 15) - 16 * g.lines
    else x + (u + 15) - 2 * (16 * g.lines)) / 16 := by
  have hlen := h.len
  rw [← h.last, hu, add_assoc, add_mod_of_lt_two_mul (by omega), hx]

/-- The lines of the range. -/
theorem lineIndex_of_mem (hxa : start ≤ a) (hay : a < stop) :
    ∃ t < u, g.lineIndex a =
      (if 16 * g.lines ≤ x + t then x + t - 16 * g.lines else x + t) / 16 := by
  have hlen := h.len
  rw [le_def] at hxa
  rw [lt_def] at hay
  refine ⟨a.toNat - start.toNat, by omega, ?_⟩
  rw [lineIndex, g.way_eq, ← hx, ← add_mod_of_lt (by omega), Nat.add_sub_cancel' hxa]

theorem exists_of_lt (ht : t < u) : ∃ a, start ≤ a ∧ a < stop ∧
      g.lineIndex a = (if 16 * g.lines ≤ x + t then x + t - 16 * g.lines else x + t) / 16 := by
  have hlen := h.len
  have ha : (BitVec.ofNat 32 (start.toNat + t)).toNat = start.toNat + t := mod_eq_of_lt (by omega)
  refine ⟨BitVec.ofNat 32 (start.toNat + t), ?_, ?_, ?_⟩
  · rw [le_def, ha]
    omega
  · rw [lt_def, ha]
    omega
  · rw [lineIndex, g.way_eq, ha, add_mod_of_lt (by omega), hx]

/-- The lines of the range do not pass the end of a block, nor fill one. -/
theorem flushed_of_block (s : g.Retention) (hblock : x + u ≤ 16 * g.lines)
    (hfill : ¬ (x < 16 ∧ 16 * g.lines ≤ x + u + 15)) : s.IcacheFlushed start stop := by
  have hlast := h.last_eq hx hu
  have hfirst := h.first
  rw [hx] at hfirst
  have hlines : ∀ a, start ≤ a → a < stop → ∃ t < u, g.lineIndex a = (x + t) / 16 := by
    intro a hxa hay
    obtain ⟨t, ht, hline⟩ := h.lineIndex_of_mem hx hu hxa hay
    rw [if_neg (by omega)] at hline
    exact ⟨t, ht, hline⟩
  by_cases hend : x + (u + 15) < 16 * g.lines
  · rw [if_pos hend] at hlast
    refine h.flushed_one s (by omega) fun a hxa hay => ?_
    obtain ⟨t, ht, hline⟩ := hlines a hxa hay
    omega
  · rw [if_neg hend, if_pos (by omega)] at hlast
    refine h.flushed_two s (by omega) (by omega) fun a hxa hay => ?_
    obtain ⟨t, ht, hline⟩ := hlines a hxa hay
    omega

theorem not_flushed_of_fill (s : g.Retention) (hmany : 2 ≤ g.lines) (hblock : x + u ≤ 16 * g.lines)
    (hfirst : x < 16) (hfill : 16 * g.lines ≤ x + u + 15) : ¬ s.IcacheFlushed start stop := by
  have hlast := h.last_eq hx hu
  have hi := h.first
  rw [hx] at hi
  rw [if_neg (by omega), if_pos (by omega)] at hlast
  -- the last byte of the range is in another line than the first
  obtain ⟨a, hxa, hay, hline⟩ := h.exists_of_lt hx hu (show u - 1 < u by omega)
  rw [if_neg (by omega)] at hline
  exact h.not_flushed_one s (by omega) (by omega) hxa hay (by omega)

theorem not_flushed_of_wrap (s : g.Retention) (hmany : 2 ≤ g.lines) (hwrap : 16 * g.lines < x + u) :
    ¬ s.IcacheFlushed start stop := by
  have hlen := h.len
  have hxlt := g.mod_way_lt start.toNat
  have hlast := h.last_eq hx hu
  have hi := h.first
  rw [hx] at hi hxlt
  rw [if_neg (by omega)] at hlast
  obtain ⟨a, hxa, hay, hline⟩ := h.exists_of_lt hx hu (show 16 * g.lines - x < u by omega)
  rw [if_pos (by omega)] at hline
  rcases lt_or_ge e i with hei | hei
  · exact h.not_flushed_two s hei hxa hay (by omega)
  -- one turn, although the range has the first and the last line of the way
  have hshort : e ≤ i + 1 := by
    rw [hlast]
    split <;> omega
  rcases Nat.eq_zero_or_pos i with hzero | hsome
  · obtain ⟨b, hxb, hby, hlineb⟩ := h.exists_of_lt hx hu (show 16 * g.lines - 1 - x < u by omega)
    rw [if_neg (by omega)] at hlineb
    exact h.not_flushed_one s hei hshort hxb hby (by omega)
  · exact h.not_flushed_one s hei hshort hxa hay (by omega)

end

end Bounds

/-- `__flush_icache_range` does its work exactly if the range is at least a way long, or
empty, or a way has one line only, or the lines of the range lie in one block of the way size
and do not fill it. In a range that passes the end of such a block the two cursors do not
have the same line index; for one that fills a block, the line after it is the first line, and
the loop ends after one turn. -/
theorem flushIcacheRange_executes_iff (g : Geometry) (s : g.Retention) (start stop : Addr)
    (hle : start ≤ stop) :
    s.IcacheFlushed start stop ↔
      2 ^ g.wayShift ≤ stop.toNat - start.toNat ∨ start = stop ∨ 2 ^ g.wayShift = 16 ∨
        start.toNat / 2 ^ g.wayShift = (stop.toNat - 1) / 2 ^ g.wayShift ∧
          ¬ (start.toNat % 2 ^ g.wayShift < 16 ∧
            2 ^ g.wayShift ≤ (stop.toNat - 1) % 2 ^ g.wayShift + 16) := by
  rw [g.way_eq]
  by_cases hlen : stop.toNat - start.toNat < 16 * g.lines
  swap
  · exact iff_of_true (flushIcacheRange_whole hle (by omega) s) (.inl (by omega))
  have h : Bounds g start stop _ _ := ⟨hle, hlen, rfl, rfl⟩
  by_cases hone : g.lines = 1
  · exact iff_of_true (h.flushed_of_single s hone) (.inr (.inr (.inl (by omega))))
  obtain ⟨u, hu⟩ := Nat.exists_eq_add_of_le (le_def.mp hle)
  rcases Nat.eq_zero_or_pos u with hempty | hsome
  · have := g.mod_way_lt start.toNat
    exact iff_of_true (h.flushed_of_block rfl hu s (by omega) (by omega))
      (.inr (.inl (eq_of_toNat_eq (by omega))))
  have hne : start ≠ stop := fun heq => by rw [heq] at hu; omega
  have hlast : stop.toNat - 1 = start.toNat + (u - 1) := by omega
  rw [hlast, eq_comm (a := start.toNat / _), add_div_eq_iff (by omega)]
  by_cases hblock : start.toNat % (16 * g.lines) + (u - 1) < 16 * g.lines
  · rw [add_mod_of_lt (by omega), if_neg (by omega)]
    by_cases hfill : start.toNat % (16 * g.lines) < 16 ∧ 16 * g.lines ≤ start.toNat %
      (16 * g.lines) + (u - 1) + 16
    · exact iff_of_false (h.not_flushed_of_fill rfl hu s (by omega) (by omega) hfill.1 (by omega))
        (by simp only [hne, false_or]; omega)
    · exact iff_of_true (h.flushed_of_block rfl hu s (by omega) (by omega))
        (.inr (.inr (.inr ⟨hblock, hfill⟩)))
  · exact iff_of_false (h.not_flushed_of_wrap rfl hu s (by omega) (by omega))
      (by simp only [hne, false_or]; omega)

/-- For the 48 bytes around the end of a way, `r2` goes past the end of the array. -/
theorem flushIcacheRange_leaves_array : ¬ (boot cache16k).IcacheFlushed 8176 8224 := by
  have hleaves : ((boot cache16k).flushIcacheRange 8176 8224).isOk = false := by decide +kernel
  rintro ⟨s', f, hflush, -⟩
  rw [hflush] at hleaves
  nomatch hleaves

/-- A range of three lines in the same cache. -/
theorem flushIcacheRange_executes_iff_three_lines : (4 : Addr) ≤ 40 ∧
    (boot cache16k).IcacheFlushed 4 40 :=
  ⟨by decide, (flushIcacheRange_executes_iff cache16k (boot cache16k) 4 40 (by decide)).mpr
    (.inr (.inr (.inr (by decide))))⟩

end Retention

end SilanKernel.Csky.CacheFlush.Geometry
