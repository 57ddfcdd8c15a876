import SilanKernel.Dlna.Clock

/-!
# SilanKernel.Dlna.ClockLock

**The lock of the clock tree** over whole sequences of calls.

Every function but one gives `clocks_lock` back before it returns. `get_silan_pllclk` returns
early, with the lock held, when the PLL is set up from the divider fields (`pll_cfg_sel` set and
`pll_fast_cfg` 15); the next call that takes the lock then spins for ever, and `clk_get_rate`
may be such a call itself. The main result says that this is the only way to lose the lock.
-/

namespace SilanKernel.Dlna.Clock

/-! ### Programs and the lock -/

/-- The hardware shows `st` and the lock is held or not, as `b` says. -/
def At (b : Bool) (st : Status) (s : Clocks) : Prop := s.lock = b ∧ s.status = st

/-- From the one state of the lock the program returns in the other. -/
def Moves (b b' : Bool) (st : Status) {α : Type} (p : ClkM α) : Prop :=
  Triple (At b st) p (fun _ => At b' st) fun _ => False

/-- The program does not return. -/
def Spins (b : Bool) (st : Status) {α : Type} (p : ClkM α) : Prop :=
  Triple (At b st) p (fun _ _ => False) fun _ => True

variable {α β : Type}

theorem moves_pure (a : α) : Moves b b st (pure a) := Triple.pure fun _ h => h

theorem Moves.bind (hp : Moves b b' st p) (hk : ∀ a, Moves b' b'' st (k a)) :
    Moves b b'' st (p >>= k) :=
  Triple.bind hp hk

theorem Moves.discard (hp : Moves b b' st p) : Moves b b' st (discard p) := Triple.discard hp

theorem moves_slReadl (r : SysReg) : Moves b b st (slReadl r) := fun _ h => h

theorem moves_slWritel (v : Word) (r : SysReg) : Moves b b st (slWritel v r) := fun _ h => h

theorem moves_spinUnlock : Moves true false st spinUnlock := fun _ h => ⟨rfl, h.2⟩

theorem spinLock_eq (s : Clocks) : spinLock s = if s.lock then .error .spins s else
    .ok () { s with lock := true } := by
  show (if s.lock then throw .spins else modify fun s => { s with lock := true } : ClkM Unit) s = _
  split <;> rfl

theorem moves_spinLock : Moves false true st spinLock := by
  intro s ⟨hlock, hst⟩
  rw [spinLock_eq, if_neg (by simp [hlock])]
  exact ⟨rfl, hst⟩

/-- The lock is not taken twice. -/
theorem spins_spinLock : Spins true st spinLock := by
  intro s ⟨hlock, _⟩
  rw [spinLock_eq, if_pos hlock]
  trivial

theorem Spins.bind (hp : Spins b st p) : Spins b st (p >>= k) :=
  Triple.bind hp fun _ _ h => h.elim

theorem Spins.discard (hp : Spins b st p) : Spins b st (discard p) := Triple.discard hp

theorem Moves.bind_spins (hp : Moves b b' st p) (hk : ∀ a, Spins b' st (k a)) :
    Spins b st (p >>= k) :=
  Triple.bind (hp.stops fun _ h => h.elim) hk

/-- What the hardware shows is known from here on. -/
theorem at_slStatus {k : Status → ClkM β} (hk : Triple (At b st) (k st) Q E) :
    Triple (At b st) (slStatus >>= k) Q E := by
  intro s hs
  have h := hk s hs
  obtain ⟨-, rfl⟩ := hs
  exact h

/-- **A critical section** around a program that leaves the lock alone. -/
theorem moves_critical {a : α → β} (hp : Moves true true st p) :
    Moves false false st (do spinLock; let x ← p; spinUnlock; return a x) :=
  moves_spinLock.bind fun _ => hp.bind fun x => moves_spinUnlock.bind fun _ => moves_pure (a x)

/-! ### The functions that give the lock back -/

theorem moves_clkGet (name : String) : Moves false false st (clkGet name) :=
  moves_spinLock.bind fun _ => moves_spinUnlock.bind fun _ => moves_pure _

theorem moves_updateReg (r : SysReg) (f : Word → Word) : Moves false false st (updateReg r f) :=
  moves_spinLock.bind fun _ => (moves_slReadl r).bind fun v =>
    (moves_slWritel (f v) r).bind fun _ =>
    moves_spinUnlock.bind fun _ => moves_pure _

theorem moves_spdifInReg12 (id : ClkId) (f : Word → Word) : Moves b b st (spdifInReg12 id f) :=
  .ite (fun _ => (moves_slReadl .reg12).bind fun w => moves_slWritel (f w) .reg12)
    fun _ => moves_pure _

/-- `_clk_enable_audio` and `_clk_disable_audio` -/
theorem moves_audio (id : ClkId) (f g : Word → Word) : Moves false false st (do
    spinLock; let v ← slReadl .reg4; spdifInReg12 id f; slWritel (g v) .reg4; spinUnlock;
      return (0 : Word)) :=
  moves_spinLock.bind fun _ => (moves_slReadl .reg4).bind fun _ =>
    (moves_spdifInReg12 id _).bind fun _ =>
    (moves_slWritel _ .reg4).bind fun _ => moves_spinUnlock.bind fun _ => moves_pure _

theorem moves_clkEnableOf (id : ClkId) : Moves false false st (clkEnableOf id) := by
  cases id with
  | sdmmc | sdio | mc => exact (moves_updateReg .reg2 _).discard
  | iisOut | spdif | iisIn | spdifIn => exact (moves_audio _ _ _).discard
  | wtg => exact (moves_slReadl .reg15).bind fun _ => moves_slWritel _ .reg15
  | uart4 => exact (moves_slReadl .reg14).bind fun _ => moves_slWritel _ .reg14
  | _ => exact moves_pure _

theorem moves_clkEnable (id : ClkId) : Moves false false st (clkEnable id) :=
  (moves_clkEnableOf id).bind fun _ => moves_pure _

theorem moves_clkDisable (id : ClkId) : Moves false false st (clkDisable id) := by
  cases id with
  | sdmmc | sdio | mc => exact (moves_updateReg .reg2 _).discard
  | iisOut | spdif | iisIn | spdifIn => exact (moves_audio _ _ _).discard
  | _ => exact moves_pure _

/-- The rate functions of the audio clocks run under the lock and leave it alone, on their early
returns too. -/
theorem moves_clkSetI2sOutRate (rate : Word) (mode : Nat) (input : Bool) :
    Moves b b st (clkSetI2sOutRate rate mode input) := by
  refine (moves_slReadl .reg15).bind fun reg0 => (moves_slReadl .reg5).bind fun reg2 => ?_
  refine .ite (fun _ => moves_pure _) fun _ => ?_
  cases i2sRate rate with
  | none => exact moves_pure _
  | some r =>
    exact (moves_slWritel _ .reg15).bind fun _ => (moves_slWritel _ .reg5).bind
      fun _ => moves_pure _

theorem moves_clkSetSpdifRate (rate : Word) : Moves b b st (clkSetSpdifRate rate) :=
  (moves_slReadl .reg5).bind fun _ => (moves_slReadl .reg15).bind fun _ =>
    (moves_slWritel _ .reg5).bind fun _ =>
    (moves_slWritel _ .reg15).bind fun _ => moves_pure _

theorem moves_clkSetRateOf (id : ClkId) (rate : Word) : Moves b b st (clkSetRateOf id rate) := by
  cases id with
  | iisOut | iisIn => exact (moves_clkSetI2sOutRate rate _ _).discard
  | spdif => exact (moves_clkSetSpdifRate rate).discard
  | _ => exact moves_pure _

theorem moves_clkSetRate (id : ClkId) (rate : Word) : Moves false false st (clkSetRate id rate) :=
  moves_critical (moves_clkSetRateOf id rate)

theorem moves_clkGetSdmmc (id : Nat) (pll : Word) : Moves false false st (clkGetSdmmc id pll) :=
  moves_critical (moves_slReadl .reg2)

/-! ### The PLL -/

/-- The PLL is set up from its divider fields: the early return of `get_silan_pllclk`. -/
def FastCfg (st : Status) : Prop := pllCfgSel st.pllStatusL = true ∧ pllFastCfg st.pllStatusL = 0xF

theorem moves_getSilanPllclk (h : ¬ FastCfg st) : Moves false false st getSilanPllclk := by
  refine moves_spinLock.bind fun _ => at_slStatus (.ite (fun hsel => ?_) fun _ => ?_)
  · refine .ite (fun hfast => absurd ⟨hsel, hfast⟩ h) fun _ => ?_
    exact moves_spinUnlock.bind fun _ => moves_pure _
  · exact moves_spinUnlock.bind fun _ => moves_pure _

theorem getSilanPllclk_keeps_lock (h : FastCfg st) : Moves false true st getSilanPllclk := by
  refine moves_spinLock.bind fun _ => at_slStatus (.ite (fun _ => ?_) (absurd h.1))
  exact .ite (fun _ => moves_pure _) (absurd h.2)

/-- The core runs from the PLL and not from the oscillator. -/
def FromPll (st : Status) : Prop := st.pmuStatus.getLsbD 3 = false

instance : Decidable (FromPll st) := inferInstanceAs (Decidable (_ = _))

theorem moves_coreSpeed (h : ¬ (FromPll st ∧ FastCfg st)) :
    Moves false false st (coreSpeed st.pmuStatus) :=
  .ite (fun _ => moves_pure _) fun hosc =>
    moves_getSilanPllclk fun hfast => h ⟨Bool.eq_false_iff.mpr hosc, hfast⟩

theorem coreSpeed_keeps_lock (hpll : FromPll st) (h : FastCfg st) :
    Moves false true st (coreSpeed st.pmuStatus) :=
  .ite (fun hosc => absurd hosc (Bool.eq_false_iff.mp hpll)) fun _ => getSilanPllclk_keeps_lock h

theorem moves_getSilanCpuclk (h : Moves b b' st (coreSpeed st.pmuStatus)) :
    Moves b b' st getSilanCpuclk :=
  at_slStatus (h.bind fun _ => moves_pure _)

theorem moves_getSilanBusclk (h : Moves b b' st (coreSpeed st.pmuStatus)) :
    Moves b b' st getSilanBusclk :=
  at_slStatus (h.bind fun _ => moves_pure _)

theorem moves_clkGetRate (h : ¬ FastCfg st) (id : ClkId) :
    Moves false false st (clkGetRate id) := by
  refine (moves_getSilanPllclk h).bind fun pll => ?_
  cases id with
  | sdmmc | sdio => exact moves_clkGetSdmmc _ pll
  | wtg => exact moves_pure _
  | _ => exact moves_getSilanBusclk (moves_coreSpeed fun hbad => h hbad.2)

theorem spins_clkGetSdmmc (id : Nat) (pll : Word) : Spins true st (clkGetSdmmc id pll) :=
  spins_spinLock.bind

theorem spins_getSilanPllclk : Spins true st getSilanPllclk := spins_spinLock.bind

/-- The bus clock with the lock lost: from the oscillator it is still given. -/
theorem getSilanBusclk_held (st : Status) : Moves true true st getSilanBusclk ∨
    Spins true st getSilanBusclk := by
  by_cases hpll : FromPll st
  · refine .inr (at_slStatus (Spins.bind ?_))
    exact .ite (fun hosc => absurd hosc (Bool.eq_false_iff.mp hpll)) fun _ => spins_getSilanPllclk
  · refine .inl (moves_getSilanBusclk ?_)
    exact .ite (fun _ => moves_pure _) fun hosc => absurd (Bool.eq_false_iff.mpr hosc) hpll

/-- With the lock lost in its first step, `clk_get_rate` gives a rate with the lock held or never
returns: its second look at a register or at the PLL waits for the lock. -/
theorem clkGetRate_keeps_lock (h : FastCfg st) (id : ClkId) :
    Moves false true st (clkGetRate id) ∨ Spins false st (clkGetRate id) := by
  have hpll := getSilanPllclk_keeps_lock h
  cases id with
  | sdmmc | sdio => exact .inr (hpll.bind_spins (spins_clkGetSdmmc _))
  | wtg => exact .inl (hpll.bind fun _ => moves_pure _)
  | _ =>
    rcases getSilanBusclk_held st with hbus | hbus
    · exact .inl (hpll.bind fun _ => hbus)
    · exact .inr (hpll.bind_spins fun _ => hbus)

/-! ### Calls -/

/-- The functions other code may call. -/
inductive Op
  | clkGet (name : String)
  | clkEnable (id : ClkId)
  | clkDisable (id : ClkId)
  | clkSetRate (id : ClkId) (rate : Word)
  | clkGetRate (id : ClkId)
  | getSilanPllclk
  | getSilanCpuclk
  | getSilanBusclk
  deriving DecidableEq, Repr

def Op.prog : Op → ClkM Unit
  | .clkGet name => discard (Clock.clkGet name)
  | .clkEnable id => discard (Clock.clkEnable id)
  | .clkDisable id => Clock.clkDisable id
  | .clkSetRate id rate => discard (Clock.clkSetRate id rate)
  | .clkGetRate id => discard (Clock.clkGetRate id)
  | .getSilanPllclk => discard Clock.getSilanPllclk
  | .getSilanCpuclk => discard Clock.getSilanCpuclk
  | .getSilanBusclk => discard Clock.getSilanBusclk

/-- A call, with what the hardware shows during it. -/
structure Call where
  op : Op
  status : Status

/-- One call. It is undefined if the call spins on the lock. -/
def step (s : Clocks) (c : Call) : Option Clocks :=
  match c.op.prog { s with status := c.status } with
  | .ok _ s' => some s'
  | .error _ _ => none

/-- The call asks for the speed of the PLL. -/
def Op.ReadsPll (st : Status) : Op → Prop
  | .getSilanPllclk | .clkGetRate _ => True
  | .getSilanCpuclk | .getSilanBusclk => FromPll st
  | _ => False

/-- The call does not meet a PLL that is set up from its divider fields. -/
def Call.Safe (c : Call) : Prop := ¬ (c.op.ReadsPll c.status ∧ FastCfg c.status)

theorem moves_prog {op : Op} (h : ¬ (op.ReadsPll st ∧ FastCfg st)) :
    Moves false false st op.prog := by
  cases op with
  | clkGet name => exact (moves_clkGet name).discard
  | clkEnable id => exact (moves_clkEnable id).discard
  | clkDisable id => exact moves_clkDisable id
  | clkSetRate id rate => exact (moves_clkSetRate id rate).discard
  | clkGetRate id => exact (moves_clkGetRate (fun hfast => h ⟨trivial, hfast⟩) id).discard
  | getSilanPllclk => exact (moves_getSilanPllclk fun hfast => h ⟨trivial, hfast⟩).discard
  | getSilanCpuclk => exact (moves_getSilanCpuclk (moves_coreSpeed h)).discard
  | getSilanBusclk => exact (moves_getSilanBusclk (moves_coreSpeed h)).discard

/-- **The step lemma.** A safe call returns and gives the lock back. -/
theorem step_safe (hs : s.lock = false) (hc : c.Safe) :
    ∃ s', step s c = some s' ∧ s'.lock = false := by
  have h := moves_prog hc { s with status := c.status } ⟨hs, rfl⟩
  unfold step
  cases hr : c.op.prog { s with status := c.status } with
  | ok a s' =>
    rw [hr] at h
    exact ⟨s', rfl, h.1⟩
  | error e s' =>
    rw [hr] at h
    exact h.elim

/-- A call that is not safe never returns, or returns with the lock held. -/
theorem prog_keeps_lock {op : Op} (hop : op.ReadsPll st) (h : FastCfg st) :
    Moves false true st op.prog ∨ Spins false st op.prog := by
  cases op with
  | clkGetRate id => exact (clkGetRate_keeps_lock h id).imp Moves.discard Spins.discard
  | getSilanPllclk => exact .inl (getSilanPllclk_keeps_lock h).discard
  | getSilanCpuclk => exact .inl (moves_getSilanCpuclk (coreSpeed_keeps_lock hop h)).discard
  | getSilanBusclk => exact .inl (moves_getSilanBusclk (coreSpeed_keeps_lock hop h)).discard
  | _ => exact hop.elim

theorem step_safe_of_unlocked (hs : s.lock = false) (hstep : step s c = some s')
    (hs' : s'.lock = false) : c.Safe := by
  intro ⟨hop, hfast⟩
  have hat : At false c.status { s with status := c.status } := ⟨hs, rfl⟩
  unfold step at hstep
  cases hr : c.op.prog { s with status := c.status } with
  | error e s1 =>
    rw [hr] at hstep
    exact nomatch hstep
  | ok a s1 =>
    rw [hr] at hstep
    obtain rfl := Option.some.inj hstep
    rcases prog_keeps_lock hop hfast with h | h
    · have hlock := h _ hat
      rw [hr] at hlock
      exact Bool.false_ne_true (hs'.symm.trans hlock.1)
    · have hlock := h _ hat
      rw [hr] at hlock
      exact hlock

/-! ### Runs -/

/-- The lock is free. -/
def Unlocked (s : Clocks) : Prop := s.lock = false

theorem always_unlocked_iff (hs : Unlocked s) (calls : List Call) :
    Run.Always step Unlocked s calls ↔ ∀ c ∈ calls, c.Safe := by
  induction calls generalizing s with
  | nil => exact iff_of_true hs nofun
  | cons c calls ih =>
    constructor
    · intro ⟨_, s', hstep, hrest⟩
      have hc := step_safe_of_unlocked hs hstep hrest.head
      exact List.forall_mem_cons.mpr ⟨hc, (ih hrest.head).mp hrest⟩
    · intro h
      obtain ⟨hc, hrest⟩ := List.forall_mem_cons.mp h
      obtain ⟨s', hstep, hs'⟩ := step_safe hs hc
      exact ⟨hs, s', hstep, (ih hs').mpr hrest⟩

/-- The clock tree before the first call: `DEFINE_SPINLOCK`. -/
def boot (status : Status) (sys : SysReg → Word) : Clocks := { status, sys, lock := false }

/-- **The lock of the clock tree.** Whatever the registers hold, no call of a sequence returns with
the lock or waits for a lock that was lost, if and only if no call that asks for the speed of the
PLL meets one that is set up from its divider fields. -/
theorem clocksLock_balanced_iff (status : Status) (sys : SysReg → Word) (calls : List Call) :
    Run.Always step Unlocked (boot status sys) calls ↔ ∀ c ∈ calls, c.Safe :=
  always_unlocked_iff (show Unlocked (boot status sys) from rfl) calls

/-- The PLL set up from its divider fields. -/
def fastStatus : Status :=
  { pmuStatus := 0, pllStatusL := 0xF0010000, stsReg0 := 0, regvalPmu := 0 }

/-- With such a PLL the first call returns with the lock, the next one waits for ever, and
`clk_get_rate` waits for itself. -/
theorem getSilanPllclk_loses_lock :
    (step (boot fastStatus fun _ => 0) ⟨.getSilanPllclk, fastStatus⟩).map Clocks.lock = some true ∧
      (Run.run step (boot fastStatus fun _ => 0)
        [⟨.getSilanPllclk, fastStatus⟩, ⟨.clkGet "uart0", fastStatus⟩]).isNone = true ∧
      (step (boot fastStatus fun _ => 0) ⟨.clkGetRate .sdmmc, fastStatus⟩).isNone = true ∧
      ¬ Run.Always step Unlocked (boot fastStatus fun _ => 0) [⟨.getSilanPllclk, fastStatus⟩] := by
  refine ⟨by decide, by decide, by decide, ?_⟩
  intro ⟨_, s', hstep, hs'⟩
  have hlock : (step (boot fastStatus fun _ => 0) ⟨.getSilanPllclk, fastStatus⟩).map Clocks.lock =
      some true := by
    decide
  rw [hstep] at hlock
  exact Bool.false_ne_true (hs'.symm.trans (Option.some.inj hlock))

end SilanKernel.Dlna.Clock
