import SilanKernel.Csky.MmuContext
import SilanKernel.Data.Mask
import SilanKernel.Data.Run

/-!
# SilanKernel.Csky.AsidSafety

No mm ever runs on another mm's translations.

The counter `asid_cache` only grows, so within a version **an ASID is handed out
at most once**. `AsidCore` says so for the contexts in use and, through the tag of
each TLB entry, for those that were: the context an entry was installed under is
below the counter, and no mm but its owner can hold it. Going over to a new
version empties the TLB, so nothing is left to be confused with. `AsidInv` adds
that the register `entryhi` holds the ASID of the active mm.
-/

namespace SilanKernel.Csky

open Function Run Option Nat

variable {MM : Type}

/-! ### ASIDs and versions as numbers -/

theorem toNat_and_asidMask (x : BitVec 32) : (x &&& ASID_MASK).toNat = x.toNat % 256 :=
  Mask.toNat_and_mask (k := 8) rfl

/-- Two contexts are of one version if they agree above the ASID. -/
theorem xor_versionMask_eq_zero : (x ^^^ y)
    &&& ASID_VERSION_MASK = 0 ↔ x.toNat / 256 = y.toNat / 256 := by
  have hand : ((x ^^^ y) &&& ASID_VERSION_MASK).toNat = (x ^^^ y).toNat / 2 ^ 8 * 2 ^ 8 :=
    Mask.toNat_and_not_mask rfl
  rw [← BitVec.toNat_inj, hand, BitVec.toNat_xor, xor_div_two_pow]
  simp

/-- The context of `mm` is of the current version. -/
def Current (s : Mmu MM) (mm : MM) : Prop :=
  (s.context mm).toNat / 256 = s.asidCache.toNat / 256

/-- The hardware ASID of a context or of `entryhi`. -/
def asid (x : BitVec 32) : Nat := x.toNat % 256

/-- The context of the current version that a TLB tag stands for. -/
def tagContext (s : Mmu MM) (hi : BitVec 32) : Nat := s.asidCache.toNat / 256 * 256 + asid hi

/-! ### The flush -/

/-- It changes nothing but the TLB. -/
theorem flushLoop_eq (left : Nat) (s : Mmu MM) :
    flushLoop s left = { s with tlb := (flushLoop s left).tlb } := by
  induction left generalizing s with
  | zero => rfl
  | succ left ih =>
    rw [flushLoop, ih]
    rfl

/-- It reaches the last `left` entries, each once. -/
theorem flushLoop_valid (hleft : left ≤ s.tlbsize) (hi : i < s.tlbsize)
    (hv : ((flushLoop s left).tlb i).Valid) :
    i < s.tlbsize - left ∧ (s.tlb i).Valid := by
  induction left generalizing s with
  | zero => exact ⟨hi, hv⟩
  | succ left ih =>
    rw [flushLoop] at hv
    obtain ⟨hlt, hv⟩ := @ih (s.tlbWrite _ _) (le_of_succ_le hleft) hi hv
    have hlt : i < s.tlbsize - left := hlt
    unfold Mmu.tlbWrite at hv
    by_cases he : i = s.tlbsize - (left + 1)
    · simp [he, TlbEntry.Valid] at hv
    · dsimp only at hv
      rw [update_of_ne he] at hv
      exact ⟨by omega, hv⟩

theorem localFlushTlbAll_spec (hw : s.wired = 0) :
    ∃ tlb, localFlushTlbAll s = { s with tlb := tlb } ∧ ∀ i < s.tlbsize, ¬ (tlb i).Valid := by
  refine ⟨_, flushLoop_eq _ s, fun i hi hv => ?_⟩
  rw [hw] at hv
  have := (flushLoop_valid (le_refl _) hi hv).1
  omega

variable [DecidableEq MM]

/-! ### The invariant -/

/-- Contexts and TLB entries of the current version are told apart by their ASID. -/
structure AsidCore (s : Mmu MM) : Prop where
  wired : s.wired = 0
  first : 256 ≤ s.asidCache.toNat
  le : ∀ m, (s.context m).toNat ≤ s.asidCache.toNat
  inj : ∀ m m', Current s m → s.context m = s.context m' → m = m'
  tlb : ∀ i < s.tlbsize, (s.tlb i).Valid →
    tagContext s (s.tlb i).hi ≤ s.asidCache.toNat ∧
      ∃ o, (s.tlb i).owner = some o ∧
        ∀ m, (s.context m).toNat = tagContext s (s.tlb i).hi → m = o

/-- The active mm has been switched to: its context is current and in `entryhi`. -/
structure Loaded (s : Mmu MM) : Prop where
  current : Current s s.activeMm
  entryhi : asid s.entryhi = asid (s.context s.activeMm)
  mask : s.cpumask s.activeMm

/-- Nothing has been switched to since boot. -/
structure Booting (initMm : MM) (s : Mmu MM) : Prop where
  active : s.activeMm = initMm
  mask : s.cpumask initMm = false
  tlb : ∀ i < s.tlbsize, ¬ (s.tlb i).Valid

structure AsidInv (initMm : MM) (s : Mmu MM) : Prop where
  core : AsidCore s
  notInited : s.inited initMm = false
  active : s.inited s.activeMm ∨ s.activeMm = initMm
  mask : ∀ m, s.cpumask m → m = s.activeMm
  loaded : Booting initMm s ∨ Loaded s

variable {s s' : Mmu MM} {initMm : MM} {c : MmuCall MM}

/-! ### A new context -/

/-- What `get_new_mmu_context` does as long as the counter does not wrap: the next
value of the counter goes to `mm`, and if that starts a new version the TLB is
empty. -/
structure NewContext (s s' : Mmu MM) (mm : MM) : Prop where
  asidCache : s'.asidCache.toNat = s.asidCache.toNat + 1
  context : s'.context = Function.update s.context mm s'.asidCache
  tlb : (s'.asidCache.toNat / 256 = s.asidCache.toNat / 256 ∧ s'.tlb = s.tlb) ∨
    (s'.asidCache.toNat / 256 = s.asidCache.toNat / 256 + 1 ∧ ∀ i < s.tlbsize, ¬ (s'.tlb i).Valid)
  frame : s' = { s with
    asidCache := s'.asidCache, context := s'.context, tlb := s'.tlb, wrapped := s'.wrapped }

theorem getNewMmuContext_spec (mm : MM) (hw : s.wired = 0)
    (hs : (getNewMmuContext s mm).wrapped = false) :
    s.wrapped = false ∧ NewContext s (getNewMmuContext s mm) mm := by
  unfold getNewMmuContext at hs ⊢
  generalize hc : s.asidCache + ASID_INC = c at hs ⊢
  have hinc : c.toNat = (s.asidCache.toNat + 1) % 2 ^ 32 := by
    rw [← hc, BitVec.toNat_add]
    rfl
  have hmask : c &&& ASID_MASK = 0 ↔ c.toNat % 256 = 0 := by
    rw [← toNat_and_asidMask, ← BitVec.toNat_inj]
    rfl
  by_cases hroll : c &&& ASID_MASK = 0
  · have hmod := hmask.mp hroll
    simp only [if_pos hroll] at hs ⊢
    obtain ⟨tlb, hflush, hempty⟩ := localFlushTlbAll_spec hw
    rw [hflush] at hs ⊢
    obtain ⟨hwr, hne⟩ := Bool.or_eq_false_iff.mp hs
    have hne : c ≠ 0 := by simpa using hne
    have hne' : c.toNat ≠ 0 := fun e => hne (BitVec.eq_of_toNat_eq e)
    simp only [if_neg hne]
    refine ⟨hwr, ?_, rfl, .inr ⟨?_, ?_⟩, ?_⟩
    · show c.toNat = _
      omega
    · show c.toNat / 256 = _
      omega
    · exact hempty
    · rfl
  · have hmod : c.toNat % 256 ≠ 0 := fun e => hroll (hmask.mpr e)
    simp only [if_neg hroll] at hs ⊢
    refine ⟨hs, ?_, rfl, .inl ⟨?_, rfl⟩, rfl⟩
    · show c.toNat = _
      omega
    · show c.toNat / 256 = _
      omega

/-- A new context keeps everything apart: it is above all contexts and all tags. -/
theorem AsidCore.newContext (hc : AsidCore s) (hn : NewContext s s' mm) :
    AsidCore s' ∧ Current s' mm := by
  have hmm : s'.context mm = s'.asidCache := by rw [hn.context, update_self]
  have hother : ∀ m, m ≠ mm → s'.context m = s.context m := fun m hm => by
    rw [hn.context, update_of_ne hm]
  have hsize : s'.tlbsize = s.tlbsize := by rw [hn.frame]
  have hcache := hn.asidCache
  have hnew : ∀ m, m ≠ mm → (s'.context m).toNat < s'.asidCache.toNat := fun m hm => by
    rw [hother m hm, hcache]
    exact lt_succ_of_le (hc.le m)
  refine ⟨⟨?_, ?_, ?_, ?_, ?_⟩, ?_⟩
  · rw [hn.frame]
    exact hc.wired
  · have := hc.first
    omega
  · intro m
    by_cases hm : m = mm
    · exact le_of_eq (by rw [hm, hmm])
    · exact le_of_lt (hnew m hm)
  · intro m m' hcur he
    by_cases hm : m = mm
    · by_contra hne
      have := hnew m' (fun e => hne (hm.trans e.symm))
      rw [← he, hm, hmm] at this
      omega
    by_cases hm' : m' = mm
    · have := hnew m hm
      rw [he, hm', hmm] at this
      omega
    rw [hother m hm, hother m' hm'] at he
    refine hc.inj m m' ?_ he
    -- A context that is still current did not come from an older version.
    unfold Current at hcur ⊢
    rw [hother m hm] at hcur
    have := hc.le m
    rcases hn.tlb with ⟨hver, -⟩ | ⟨hver, -⟩ <;> omega
  · intro i hi hv
    rw [hsize] at hi
    rcases hn.tlb with ⟨hver, htlb⟩ | ⟨hver, hempty⟩
    · rw [htlb] at hv ⊢
      obtain ⟨hle, o, ho, huniq⟩ := hc.tlb i hi hv
      have htag : tagContext s' (s.tlb i).hi = tagContext s (s.tlb i).hi := by
        unfold tagContext
        rw [hver]
      rw [htag]
      refine ⟨by omega, o, ho, fun m hm => ?_⟩
      by_cases hmm' : m = mm
      · rw [hmm', hmm] at hm
        omega
      · exact huniq m (hother m hmm' ▸ hm)
    · exact absurd hv (hempty i hi)
  · unfold Current
    rw [hmm]

/-! ### The calls -/

/-- Going over to `next`, whose context is current by now. -/
theorem AsidInv.enter (hc : AsidCore s) (hcur : Current s next) (hin : s.inited initMm = false)
    (hnext : s.inited next ∨ next = initMm)
    (hmask : ∀ m, s.cpumask m → m = prev) : AsidInv initMm (enterMm s prev next) where
  core := ⟨hc.wired, hc.first, hc.le, hc.inj, hc.tlb⟩
  notInited := hin
  active := hnext
  mask := by
    intro m hm
    unfold enterMm at hm ⊢
    dsimp only at hm ⊢
    by_contra hne
    rw [update_of_ne hne] at hm
    by_cases hp : m = prev
    · rw [hp, update_self] at hm
      exact absurd hm (by simp)
    · rw [update_of_ne hp] at hm
      exact hp (hmask m hm)
  loaded := .inr ⟨hcur, rfl, by simp [enterMm]⟩

theorem AsidInv.activateMm (hi : AsidInv initMm s) (hnext : s.inited next ∨ next = initMm)
    (hw : (activateMm s s.activeMm next).wrapped = false) :
    AsidInv initMm (activateMm s s.activeMm next) := by
  unfold Csky.activateMm at hw ⊢
  obtain ⟨-, hn⟩ := getNewMmuContext_spec next hi.core.wired hw
  obtain ⟨hc, hcur⟩ := hi.core.newContext hn
  refine .enter hc hcur ?_ ?_ ?_
  all_goals rw [hn.frame]
  · exact hi.notInited
  · exact hnext
  · exact hi.mask

theorem AsidInv.switchMm (hi : AsidInv initMm s) (hnext : s.inited next ∨ next = initMm)
    (hw : (switchMm s s.activeMm next).wrapped = false) :
    AsidInv initMm (switchMm s s.activeMm next) := by
  unfold Csky.switchMm at hw ⊢
  by_cases hver : (s.context next ^^^ s.asidCache) &&& ASID_VERSION_MASK = 0
  · simp only [if_neg (not_not.mpr hver)]
    exact .enter hi.core (xor_versionMask_eq_zero.mp hver) hi.notInited hnext hi.mask
  · simp only [if_pos hver] at hw ⊢
    exact hi.activateMm hnext hw

/-- A context of zero is of no version. -/
theorem AsidCore.setContext_zero (hc : AsidCore s) (mm : MM) : AsidCore (s.setContext mm 0) := by
  have hself : (s.setContext mm 0).context mm = 0 := by simp [Mmu.setContext]
  have hother : ∀ m, m ≠ mm → (s.setContext mm 0).context m = s.context m := fun m hm => by
    simp [Mmu.setContext, hm]
  have hfirst := hc.first
  have hstale : ∀ k, 256 ≤ k → ((s.setContext mm 0).context mm).toNat ≠ k := fun k hk e => by
    rw [hself] at e
    simp at e
    omega
  refine ⟨hc.wired, hc.first, fun m => ?_, fun m m' hcur he => ?_, fun i hi hv => ?_⟩
  · by_cases hm : m = mm
    · rw [hm, hself]
      exact zero_le _
    · rw [hother m hm]
      exact hc.le m
  · have hcache : (s.setContext mm 0).asidCache = s.asidCache := rfl
    have hm : m ≠ mm := by
      rintro rfl
      unfold Current at hcur
      rw [hself, hcache] at hcur
      simp at hcur
      omega
    by_cases hm' : m' = mm
    · unfold Current at hcur
      rw [he, hm', hself, hcache] at hcur
      simp at hcur
      omega
    · unfold Current at hcur
      rw [hother m hm] at he hcur
      rw [hother m' hm'] at he
      exact hc.inj m m' hcur he
  · obtain ⟨hle, o, ho, huniq⟩ := hc.tlb i hi hv
    refine ⟨hle, o, ho, fun m hm => ?_⟩
    by_cases hmm : m = mm
    · rw [hmm] at hm
      have hcache : (s.setContext mm 0).asidCache = s.asidCache := rfl
      refine absurd hm (hstale _ ?_)
      unfold tagContext
      rw [hcache]
      omega
    · exact huniq m (hother m hmm ▸ hm)

theorem AsidInv.initNewContext (hi : AsidInv initMm s) (hmm : ¬ (s.inited mm ∨ mm = initMm)) :
    AsidInv initMm (initNewContext s mm) := by
  rw [not_or] at hmm
  have hact : s.activeMm ≠ mm := by
    rintro rfl
    exact hi.active.elim (hmm.1) hmm.2
  have hcore := hi.core.setContext_zero mm
  refine ⟨⟨hcore.wired, hcore.first, hcore.le, hcore.inj, hcore.tlb⟩, ?_, ?_, fun m hm => ?_, ?_⟩
  · show update s.inited mm true initMm = false
    rw [update_of_ne (Ne.symm hmm.2)]
    exact hi.notInited
  · show update s.inited mm true s.activeMm = true ∨ _
    rw [update_of_ne hact]
    exact hi.active
  · have hm : update s.cpumask mm false m = true := hm
    by_cases he : m = mm
    · rw [he, update_self] at hm
      exact absurd hm (by simp)
    · rw [update_of_ne he] at hm
      exact hi.mask m hm
  · have hmask : ∀ m, m ≠ mm → update s.cpumask mm false m = s.cpumask m :=
      fun m hm => update_of_ne hm _ _
    have hctx : (Csky.initNewContext s mm).context s.activeMm = s.context s.activeMm :=
      update_of_ne hact _ _
    rcases hi.loaded with hb | hl
    · exact .inl ⟨hb.active, (hmask initMm (Ne.symm hmm.2)).trans hb.mask, hb.tlb⟩
    · refine .inr ⟨?_, ?_, (hmask s.activeMm hact).trans hl.mask⟩
      · unfold Current
        exact hctx ▸ hl.current
      · exact (congrArg asid hctx).symm ▸ hl.entryhi

theorem AsidInv.dropMmuContext (hi : AsidInv initMm s)
    (hw : (dropMmuContext s mm).wrapped = false) : AsidInv initMm (dropMmuContext s mm) := by
  unfold Csky.dropMmuContext at hw ⊢
  by_cases hm : s.cpumask mm
  · -- `mm` is the active one and goes on with a new context.
    simp only [if_pos hm] at hw ⊢
    have hact := hi.mask mm hm
    obtain ⟨-, hn⟩ := getNewMmuContext_spec mm hi.core.wired hw
    obtain ⟨hc, hcur⟩ := hi.core.newContext hn
    have hframe := hn.frame
    set s' := getNewMmuContext s mm
    have hact' : s'.activeMm = mm := by rw [hframe]; exact hact.symm
    refine ⟨⟨hc.wired, hc.first, hc.le, hc.inj, hc.tlb⟩, ?_, ?_, fun m hm => ?_, .inr ⟨?_, ?_, ?_⟩⟩
    · show s'.inited initMm = false
      rw [hframe]
      exact hi.notInited
    · show s'.inited s'.activeMm = true ∨ s'.activeMm = initMm
      rw [hframe]
      exact hi.active
    · have hm : s'.cpumask m = true := hm
      show m = s'.activeMm
      rw [hframe] at hm ⊢
      exact hi.mask m hm
    · show (s'.context s'.activeMm).toNat / 256 = _
      rw [hact']
      exact hcur
    · show asid (s'.context mm &&& ASID_MASK) = asid (s'.context s'.activeMm)
      unfold asid
      rw [hact', toNat_and_asidMask, mod_mod]
    · show s'.cpumask s'.activeMm = true
      rw [hact', hframe]
      exact hm
  · simp only [if_neg hm]
    have hcore := hi.core.setContext_zero mm
    refine ⟨hcore, hi.notInited, hi.active, hi.mask, ?_⟩
    rcases hi.loaded with hb | hl
    · exact .inl ⟨hb.active, hb.mask, hb.tlb⟩
    have hact : s.activeMm ≠ mm := fun e => hm (e ▸ hl.mask)
    have hctx : (s.setContext mm 0).context s.activeMm = s.context s.activeMm :=
      update_of_ne hact _ _
    refine .inr ⟨?_, ?_, hl.mask⟩
    · unfold Current
      exact hctx ▸ hl.current
    · exact (congrArg asid hctx).symm ▸ hl.entryhi

omit [DecidableEq MM] in
/-- Writing an entry for the active mm, or invalidating one, keeps entries apart. -/
theorem AsidCore.tlbWrite (hc : AsidCore s) (he : e.Valid → tagContext s e.hi ≤ s.asidCache.toNat ∧
      ∃ o, e.owner = some o ∧ ∀ m, (s.context m).toNat = tagContext s e.hi → m = o) :
    AsidCore (s.tlbWrite index e) := by
  refine ⟨hc.wired, hc.first, hc.le, hc.inj, fun i hi hv => ?_⟩
  unfold Mmu.tlbWrite at hv ⊢
  dsimp only at hv ⊢
  by_cases hidx : i = index
  · rw [hidx, update_self] at hv ⊢
    exact he hv
  · rw [update_of_ne hidx] at hv ⊢
    exact hc.tlb i hi hv

theorem toNat_or_pid (address pid : BitVec 32) :
    (address &&& ~~~0x1fff#32 ||| (pid &&& ASID_MASK)).toNat % 256 = pid.toNat % 256 := by
  have h : ~~~0x1fff#32 &&& ASID_MASK = 0#32 := rfl
  rw [← toNat_and_asidMask, BitVec.and_or_distrib_right, BitVec.and_assoc, BitVec.and_assoc, h,
    BitVec.and_self, BitVec.and_zero, BitVec.zero_or, toNat_and_asidMask]

theorem AsidInv.updateTlb {address lo0 lo1 : BitVec 32} {c : TlbChoice} (hi : AsidInv initMm s)
    (hmm : s.inited mm) : AsidInv initMm (updateTlb s mm address lo0 lo1 c) := by
  unfold Csky.updateTlb
  by_cases hact : s.activeMm = mm
  · rw [if_neg (not_not.mpr hact)]
    have hne : mm ≠ initMm := fun e => by
      rw [e, hi.notInited] at hmm
      exact absurd hmm (by simp)
    have hl : Loaded s := hi.loaded.resolve_left fun hb => hne (hact ▸ hb.active)
    have hpid := toNat_or_pid address s.entryhi
    dsimp only
    -- The state after the write to `entryhi`, which keeps the ASID.
    set hi' := address &&& ~~~0x1fff#32 ||| (s.entryhi &&& ASID_MASK)
    have hcore : AsidCore { s with entryhi := hi' } :=
      ⟨hi.core.wired, hi.core.first, hi.core.le, hi.core.inj, hi.core.tlb⟩
    have htag : tagContext { s with entryhi := hi' } hi' = (s.context mm).toNat := by
      have hcur := hl.current
      have hentry := hl.entryhi
      unfold Current at hcur
      unfold asid at hentry
      rw [hact] at hcur hentry
      unfold tagContext asid
      dsimp only
      rw [hpid, hentry, ← hcur]
      omega
    have hentry : ∀ e : TlbEntry MM, e.hi = hi' → e.owner = some mm → e.Valid →
        tagContext { s with entryhi := hi' } e.hi ≤ s.asidCache.toNat ∧ ∃ o, e.owner = some o ∧
            ∀ m, (s.context m).toNat = tagContext { s with entryhi := hi' } e.hi → m = o := by
      intro e hhi howner _
      rw [hhi, htag]
      refine ⟨hi.core.le mm, mm, howner, fun m hm => ?_⟩
      exact (hi.core.inj mm m (hact ▸ hl.current) (BitVec.eq_of_toNat_eq hm.symm)).symm
    have hload : asid hi' = asid (s.context s.activeMm) := hpid.trans hl.entryhi
    cases hprobe : c.probe with
    | none =>
      have hcore1 : AsidCore ({ s with entryhi := hi' }.tlbWrite c.invalid
          { s.tlb c.invalid with lo0 := 0, lo1 := 0 }) :=
        hcore.tlbWrite fun hv => by simp [TlbEntry.Valid] at hv
      exact ⟨hcore1.tlbWrite (hentry _ rfl rfl), hi.notInited, hi.active, hi.mask,
        .inr ⟨hl.current, hload, hl.mask⟩⟩
    | some idx =>
      exact ⟨hcore.tlbWrite (hentry _ rfl rfl), hi.notInited, hi.active, hi.mask,
        .inr ⟨hl.current, hload, hl.mask⟩⟩
  · rw [if_pos hact]
    exact hi

/-! ### Runs -/

theorem getNewMmuContext_wrapped (s : Mmu MM) (mm : MM)
    (h : (getNewMmuContext s mm).wrapped = false) : s.wrapped = false := by
  unfold getNewMmuContext at h
  dsimp only at h
  split at h
  · have h := (Bool.or_eq_false_iff.mp h).1
    rw [localFlushTlbAll, flushLoop_eq] at h
    exact h
  · exact h

theorem mmuStep_inv (hstep : mmuStep initMm s c = some s') (h : s'.wrapped = false) :
    s.wrapped = false ∧ (AsidInv initMm s → AsidInv initMm s') := by
  cases c with
  | initNewContext mm =>
    simp only [mmuStep, ite_none_left_eq_some, some.injEq] at hstep
    obtain ⟨hmm, rfl⟩ := hstep
    exact ⟨h, fun hi => hi.initNewContext hmm⟩
  | switchMm next =>
    simp only [mmuStep, ite_none_right_eq_some, some.injEq] at hstep
    obtain ⟨hnext, rfl⟩ := hstep
    refine ⟨?_, fun hi => hi.switchMm hnext h⟩
    rw [switchMm] at h
    by_cases hver : (s.context next ^^^ s.asidCache) &&& ASID_VERSION_MASK = 0
    · simp only [if_neg (not_not.mpr hver)] at h
      exact h
    · simp only [if_pos hver] at h
      exact getNewMmuContext_wrapped s next h
  | activateMm next =>
    simp only [mmuStep, ite_none_right_eq_some, some.injEq] at hstep
    obtain ⟨hnext, rfl⟩ := hstep
    exact ⟨getNewMmuContext_wrapped s next h, fun hi => hi.activateMm hnext h⟩
  | dropMmuContext mm =>
    simp only [mmuStep, ite_none_right_eq_some, some.injEq] at hstep
    obtain ⟨-, rfl⟩ := hstep
    refine ⟨?_, fun hi => hi.dropMmuContext h⟩
    rw [dropMmuContext] at h
    by_cases hm : s.cpumask mm
    · rw [if_pos hm] at h
      exact getNewMmuContext_wrapped s mm h
    · rw [if_neg hm] at h
      exact h
  | updateTlb mm address lo0 lo1 c =>
    simp only [mmuStep, ite_none_right_eq_some, some.injEq] at hstep
    obtain ⟨⟨hmm, -⟩, rfl⟩ := hstep
    refine ⟨?_, fun hi => hi.updateTlb hmm⟩
    rw [updateTlb] at h
    by_cases hact : s.activeMm = mm
    · rw [if_neg (not_not.mpr hact)] at h
      cases hp : c.probe with
      | none =>
        rw [hp] at h
        exact h
      | some idx =>
        rw [hp] at h
        exact h
    · rw [if_pos hact] at h
      exact h

omit [DecidableEq MM] in
theorem bootMmu_inv (initMm : MM) (tlbsize : Nat) (entryhi : BitVec 32) (hi : Nat → BitVec 32) :
    AsidInv initMm (bootMmu initMm tlbsize entryhi hi) := by
  have hstale : ∀ m, ¬ Current (bootMmu initMm tlbsize entryhi hi) m := fun m h =>
    absurd h (by show ¬ (0 / 256 = ASID_FIRST_VERSION.toNat / 256); decide)
  have hempty : ∀ i < tlbsize, ¬ ((bootMmu initMm tlbsize entryhi hi).tlb i).Valid :=
    fun i _ h => by
    simp [bootMmu, TlbEntry.Valid] at h
  refine ⟨⟨rfl, by show 256 ≤ ASID_FIRST_VERSION.toNat; decide, fun _ => zero_le _, ?_, ?_⟩,
    rfl, .inr rfl, fun m hm => absurd hm (by simp [bootMmu]), .inl ⟨rfl, rfl, hempty⟩⟩
  · exact fun m _ h => absurd h (hstale m)
  · exact fun i hlt hv => absurd hv (hempty i hlt)

/-- In every run from boot, until the counter wraps: two mms with contexts of the
current version have different ASIDs, and a valid TLB entry with the ASID in
`entryhi` was installed for the active mm. -/
theorem asid_safe (initMm : MM) (tlbsize : Nat) (entryhi : BitVec 32) (hi : Nat → BitVec 32)
    (cs : List (MmuCall MM)) (s : Mmu MM)
    (hrun : run (mmuStep initMm) (bootMmu initMm tlbsize entryhi hi) cs = some s)
    (hwrap : s.wrapped = false) :
    (∀ m m', m ≠ m' → Current s m → Current s m' → asid (s.context m) ≠ asid (s.context m')) ∧
      ∀ i < s.tlbsize, (s.tlb i).Valid → asid (s.tlb i).hi = asid s.entryhi →
        (s.tlb i).owner = some s.activeMm := by
  have hinv : AsidInv initMm s := run_invariant (P := fun s => s.wrapped = false → AsidInv initMm s)
    (fun s c s' hs hstep h => (mmuStep_inv hstep h).2 (hs (mmuStep_inv hstep h).1)) hrun
    (fun _ => bootMmu_inv initMm tlbsize entryhi hi) hwrap
  refine ⟨fun m m' hne hm hm' he => hne ?_, fun i hlt hv he => ?_⟩
  · refine hinv.core.inj m m' hm (BitVec.eq_of_toNat_eq ?_)
    unfold Current at hm hm'
    unfold asid at he
    omega
  rcases hinv.loaded with hb | hl
  · exact absurd hv (hb.tlb i hlt)
  obtain ⟨-, o, ho, huniq⟩ := hinv.core.tlb i hlt hv
  rw [ho, huniq s.activeMm ?_]
  have hcur := hl.current
  have hentry := hl.entryhi
  unfold Current at hcur
  unfold tagContext
  unfold asid at he hentry ⊢
  omega

/-- Two mms in turn, with a TLB entry for the first. -/
def twoMms : List (MmuCall Nat) :=
  [.initNewContext 1, .switchMm 1, .updateTlb 1 0x4000 7 7 ⟨none, 3, 3⟩, .initNewContext 2,
    .activateMm 2, .switchMm 1]

theorem asid_safe_two_mms : ∃ s, run (mmuStep 0) (bootMmu 0 128 0 fun _ => 0) twoMms = some s ∧
      s.wrapped = false ∧ (s.tlb 3).owner = some s.activeMm :=
  ⟨_, rfl, rfl, (asid_safe 0 128 0 (fun _ => 0) twoMms _ rfl rfl).2 3 (by decide)
    (.inl (by decide)) rfl⟩

end SilanKernel.Csky
