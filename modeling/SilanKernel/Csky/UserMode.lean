import SilanKernel.Csky.SavedRegs
import SilanKernel.Data.Mask
import SilanKernel.Data.Run

/-!
# SilanKernel.Csky.UserMode

Can a user process get the supervisor bit into its saved status register?

Each operation is reduced to one equation: what it leaves in the `sr` slot. None
of the writers masks the value, so a task stays in user mode along a run of
signal returns and `ptrace` requests **exactly if no operation finds a set `PS_S`
bit where it reads the new `sr`**.
-/

namespace SilanKernel.Csky

open Run BitVec

variable {t : Task} {cfg : Config}

/-! ### `ptrace` -/

/-- The index of `sr` in `regoff[]`. -/
def REGNO_SR : Nat := 32

theorem regoff_sr (abiV2 : Bool) (i : Nat) :
    (regoff abiV2)[i]? = some (some .sr) ↔ i = REGNO_SR := by
  have hlen : (regoff abiV2).length = 36 := by cases abiV2 <;> rfl
  by_cases hi : i < 36
  · have hall : ∀ abiV2, ∀ i : Fin 36,
        (regoff abiV2)[i.val]? = some (some .sr) ↔ i.val = REGNO_SR := by decide
    exact hall abiV2 ⟨i, hi⟩
  · rw [List.getElem?_eq_none (by omega)]
    simp only [reduceCtorEq, false_iff]
    intro e
    exact hi (by rw [e]; decide)

theorem setReg_sr (t : Task) (r : Slot) (v : BitVec 32) :
    (t.setReg r v).regs .sr = if r = .sr then v else t.regs .sr := by
  unfold Task.setReg
  by_cases hr : r = .sr
  · subst hr
    simp
  · simp [hr, Ne.symm hr]

theorem putReg_sr (abiV2 : Bool) (t : Task) (i : Nat) (data : BitVec 32) :
    (putReg abiV2 t i data).2.regs .sr = if i = REGNO_SR then data else t.regs .sr := by
  have hother : ∀ b, REGNO_USP b ≠ REGNO_SR := by decide
  unfold putReg
  by_cases husp : i = REGNO_USP abiV2
  · rw [if_pos husp, if_neg (husp ▸ hother abiV2)]
  rw [if_neg husp]
  by_cases hhi : (!abiV2 && i == CSKY_HI_NUM) = true
  · have : i = CSKY_HI_NUM := eq_of_beq (Bool.and_eq_true_iff.mp hhi).2
    rw [if_pos hhi, if_neg (by rw [this]; decide)]
  rw [if_neg hhi]
  by_cases hlo : (!abiV2 && i == CSKY_LO_NUM) = true
  · have : i = CSKY_LO_NUM := eq_of_beq (Bool.and_eq_true_iff.mp hlo).2
    rw [if_pos hlo, if_neg (by rw [this]; decide)]
  rw [if_neg hlo]
  have hsr := regoff_sr abiV2 i
  rcases hoff : (regoff abiV2)[i]? with _ | _ | r
  · rw [hoff] at hsr
    rw [if_neg (fun e => by simpa using hsr.mpr e)]
  · rw [hoff] at hsr
    rw [if_neg (fun e => by simpa using hsr.mpr e)]
  · rw [hoff, Option.some.injEq, Option.some.injEq] at hsr
    rw [setReg_sr]
    simp only [hsr]

/-- The offset of `sr` in the `USER` area, as `PTRACE_POKEUSR` counts it. -/
def srOffset : BitVec 32 := 128

theorem pokeusr_sr (abiV2 : Bool) (t : Task) (addr data : BitVec 32) :
    (pokeusr abiV2 t addr data).2.regs .sr = if addr = srOffset then data else t.regs .sr := by
  have hlow : (addr &&& 3).toNat = addr.toNat % 4 := Mask.toNat_and_mask (k := 2) rfl
  have hreg : (addr >>> 2).toNat = addr.toNat / 4 := by
    rw [toNat_ushiftRight, Nat.shiftRight_eq_div_pow]
  have haddr : addr = srOffset ↔ addr.toNat = 128 := ⟨fun e => by rw [e]; rfl,
    fun e => eq_of_toNat_eq (by rw [e]; rfl)⟩
  have hsr : REGNO_SR = 32 := rfl
  unfold pokeusr
  by_cases halign : addr &&& 3 = 0
  · rw [if_neg (not_not.mpr halign)]
    have hmod : addr.toNat % 4 = 0 := by rw [← hlow, halign]; rfl
    dsimp only
    by_cases hgreg : (addr >>> 2).toNat ≤ CSKY_GREG_NUM
    · rw [if_pos hgreg]
      have hput := putReg_sr abiV2 t (addr >>> 2).toNat data
      have hiff : (addr >>> 2).toNat = REGNO_SR ↔ addr = srOffset := by
        rw [haddr, hreg, hsr]
        omega
      simp only [hiff] at hput
      rw [← hput]
      by_cases hrc : (putReg abiV2 t (addr >>> 2).toNat data).1 ≠ 0
      · rw [if_pos hrc]
      · rw [if_neg hrc]
    · have hne : addr ≠ srOffset := by
        rw [hreg, show CSKY_GREG_NUM = 35 from rfl] at hgreg
        rw [Ne, haddr]
        omega
      rw [if_neg hgreg, if_neg hne]
      split
      · rfl
      · split <;> rfl
  · have hne : addr ≠ srOffset := fun e => halign (by rw [e]; rfl)
    rw [if_pos halign, if_neg hne]

/-- `get_user` at `ptr` succeeds. -/
def Readable (m : UserMem) (seg ptr : Addr) : Prop :=
  (accessOk .read seg ptr 4 ∧ ptr ≠ 0) ∧ allMapped m.mapped ptr 4

instance (m : UserMem) (seg ptr : Addr) : Decidable (Readable m seg ptr) :=
  inferInstanceAs (Decidable (_ ∧ _))

theorem getUserCheck_readable
    (h : Readable m seg ptr) : getUserCheck m seg ptr x = (0, load32 m.byte ptr) := by
  unfold getUserCheck getUserNocheck
  have hok : (accessOk .read seg ptr 4 && decide (ptr ≠ 0)) = true := by
    rw [Bool.and_eq_true, decide_eq_true_iff]
    exact h.1
  rw [if_pos hok, if_pos h.2]

theorem getUserCheck_not_readable
    (h : ¬ Readable m seg ptr) : (getUserCheck m seg ptr x).1 ≠ 0 := by
  unfold getUserCheck getUserNocheck
  by_cases hok : (accessOk .read seg ptr 4 && decide (ptr ≠ 0)) = true
  · have hmap : ¬ allMapped m.mapped ptr 4 = true := fun hmap =>
      h ⟨by rwa [Bool.and_eq_true, decide_eq_true_iff] at hok, hmap⟩
    rw [if_pos hok, if_neg hmap]
    decide
  · rw [if_neg hok]
    exact show -EFAULT ≠ 0 by decide

theorem setregsLoop_step_of_readable
    (h : Readable m seg data) (abiV2 : Bool) (left i : Nat) (t : Task) :
    setregsLoop abiV2 m seg (left + 1) i data tmp t =
      setregsLoop abiV2 m seg left (i + 1) (data + 4) (load32 m.byte data)
        (putReg abiV2 t i (load32 m.byte data)).2 := by
  rw [setregsLoop, getUserCheck_readable h]
  rfl

theorem setregsLoop_step_of_not_readable
    (h : ¬ Readable m seg data) (abiV2 : Bool) (left i : Nat) (t : Task) :
    (setregsLoop abiV2 m seg (left + 1) i data tmp t).2 = t := by
  rw [setregsLoop]
  simp only [if_pos (getUserCheck_not_readable h (x := tmp))]

/-- Past `sr`, the loop leaves it alone. -/
theorem setregsLoop_sr_of_lt (left : Nat) (hi : REGNO_SR < i) (data : Addr) (tmp : BitVec 32)
    (t : Task) :
    (setregsLoop abiV2 m seg left i data tmp t).2.regs .sr = t.regs .sr := by
  induction left generalizing i data tmp t with
  | zero => rfl
  | succ left ih =>
    by_cases h : Readable m seg data
    · rw [setregsLoop_step_of_readable h, ih (by omega), putReg_sr, if_neg (by omega)]
    · rw [setregsLoop_step_of_not_readable h]

/-- The words of a register set are all readable up to the `d`th. -/
def ReadableTo (m : UserMem) (seg data : Addr) (d : Nat) : Prop :=
  ∀ k < d + 1, Readable m seg (data + 4 * BitVec.ofNat 32 k)

instance (m : UserMem) (seg data : Addr) (d : Nat) : Decidable (ReadableTo m seg data d) :=
  inferInstanceAs (Decidable (∀ k < d + 1, _))

theorem word_succ (data : Addr) (k : Nat) :
    data + 4 + 4 * BitVec.ofNat 32 k = data + 4 * BitVec.ofNat 32 (k + 1) := by
  rw [BitVec.ofNat_add, BitVec.mul_add, BitVec.add_assoc]
  congr 1
  exact BitVec.add_comm _ _

theorem readableTo_succ :
    ReadableTo m seg data (d + 1) ↔ Readable m seg data ∧ ReadableTo m seg (data + 4) d := by
  have h0 : data + 4 * 0#32 = data := by simp
  constructor
  · refine fun h => ⟨h0 ▸ h 0 (by omega), fun k hk => ?_⟩
    rw [word_succ]
    exact h (k + 1) (by omega)
  · rintro ⟨hd, h⟩ k hk
    cases k with
    | zero => rwa [h0]
    | succ k => exact word_succ data k ▸ h k (by omega)

/-- `d` registers before `sr`, the loop still has `d` words to read before the one
that ends up in it. -/
theorem setregsLoop_sr (hd : i + d = REGNO_SR) (hleft : d < left) (data : Addr) (tmp : BitVec 32)
    (t : Task) :
    (setregsLoop abiV2 m seg left i data tmp t).2.regs .sr =
      if ReadableTo m seg data d then load32 m.byte (data + 4 * BitVec.ofNat 32 d)
      else t.regs .sr := by
  induction d generalizing left i data tmp t with
  | zero =>
    obtain ⟨left, rfl⟩ : ∃ k, left = k + 1 := ⟨left - 1, by omega⟩
    have hi : i = REGNO_SR := by omega
    have hto : ReadableTo m seg data 0 ↔ Readable m seg data := by
      simp [ReadableTo]
    by_cases h : Readable m seg data
    · rw [setregsLoop_step_of_readable h, setregsLoop_sr_of_lt left (by omega), putReg_sr,
        if_pos hi, if_pos (hto.mpr h)]
      simp
    · rw [setregsLoop_step_of_not_readable h, if_neg (fun e => h (hto.mp e))]
  | succ d ih =>
    obtain ⟨left, rfl⟩ : ∃ k, left = k + 1 := ⟨left - 1, by omega⟩
    by_cases h : Readable m seg data
    · rw [setregsLoop_step_of_readable h, ih (by omega) (by omega), putReg_sr,
        if_neg (show i ≠ REGNO_SR by omega), word_succ]
      simp [readableTo_succ, h]
    · rw [setregsLoop_step_of_not_readable h, if_neg fun e => h (readableTo_succ.mp e).1]

theorem setregs_sr (abiV2 : Bool) (m : UserMem) (seg : Addr) (t : Task) (data : Addr) :
    (setregs abiV2 m seg t data).2.regs .sr =
      if ReadableTo m seg data REGNO_SR then load32 m.byte (data + srOffset) else t.regs .sr :=
  setregsLoop_sr (Nat.zero_add _) (by decide) data 0 t

/-! ### Signal returns -/

theorem restoreRegs_append (m : UserMem) (usc : Addr) (l1 l2 : List (Slot × Addr))
    (s : Bool × Task) :
    restoreRegs m usc (l1 ++ l2) s = restoreRegs m usc l2 (restoreRegs m usc l1 s) := by
  induction l1 generalizing s with
  | nil => rfl
  | cons f l1 ih => exact ih _

/-- `sr` is restored from its own word; only `pc` comes after it. -/
theorem restoreRegs_sigcontext_sr (cfg : Config) (m : UserMem) (usc : Addr) (s : Bool × Task) :
    (restoreRegs m usc (sigcontextRegs cfg) s).2.regs .sr =
      (getUserNocheck m (usc + scSr cfg)).2 := by
  rw [sigcontextRegs, restoreRegs_append]
  simp [restoreRegs, setReg_sr]

theorem restoreFpuState_sr (h : restoreFpuState cfg env m sc t = some (e, t')) :
    t'.regs = t.regs := by
  unfold restoreFpuState at h
  by_cases hfpu : cfg.hasFpu
  · rw [if_pos hfpu] at h
    split at h
    · exact absurd h (by simp)
    · split at h
      all_goals
        cases h
        rfl
  · rw [if_neg hfpu] at h
    cases h
    rfl

theorem restoreSigframe_sr (cfg : Config) (env : Env) (m : UserMem) (usc : Addr) (t : Task) :
    (restoreSigframe cfg env m usc t).2.regs .sr = (getUserNocheck m (usc + scSr cfg)).2 := by
  rw [← restoreRegs_sigcontext_sr cfg m usc (false, t)]
  unfold restoreSigframe
  dsimp only
  split
  · rfl
  · rename_i hfpu
    exact congrFun (restoreFpuState_sr hfpu) .sr

/-- The frame of `do_sigreturn` is read as far as `restore_sigframe`. -/
def SigreturnReads (cfg : Config) (env : Env) (m : UserMem) (t : Task) : Prop :=
  accessOk .read env.seg t.usp (sizeofSigframe cfg) ∧
    allMapped m.mapped (t.usp + sigframeSc) 4 ∧
    ∃ c, copyFromUser env.seg m (env.set + 4) (t.usp + 12) 4 = .ok 0 c

/-- The frame of `do_rt_sigreturn` is read as far as `restore_sigframe`. -/
def RtSigreturnReads (cfg : Config) (env : Env) (m : UserMem) (t : Task) : Prop :=
  accessOk .read env.seg t.usp (sizeofRtSigframe cfg) ∧
    ∃ c, copyFromUser env.seg m env.set (t.usp + rtSigframeSigmask cfg) 8 = .ok 0 c

theorem verifyArea_ne_zero : verifyArea type seg addr size ≠ 0 ↔ ¬ accessOk type seg addr size := by
  unfold verifyArea
  by_cases h : accessOk type seg addr size
  · simp [h]
  · rw [if_neg h]
    simp [h, EFAULT]

theorem getUserNocheck_ne_zero : (getUserNocheck m ptr).1 ≠ 0 ↔ ¬ allMapped m.mapped ptr 4 := by
  unfold getUserNocheck
  by_cases h : allMapped m.mapped ptr 4
  · simp [h]
  · rw [if_neg h]
    simp [h, EFAULT]

/-- The word at `a` can be read and has the supervisor bit. -/
def HasS (m : UserMem) (a : Addr) : Prop :=
  allMapped m.mapped a 4 ∧ load32 m.byte a &&& PS_S ≠ 0

theorem getUserNocheck_hasS : (getUserNocheck m a).2 &&& PS_S = 0 ↔ ¬ HasS m a := by
  unfold getUserNocheck HasS
  by_cases h : allMapped m.mapped a 4
  · simp [h]
  · rw [if_neg h]
    simp [h]

/-- A signal return takes `sr` from a frame it can read. -/
theorem userMode_doSigreturn_iff (cfg : Config) (env : Env) (m : UserMem) (ht : userMode t) :
    userMode (doSigreturn cfg env m t).2 ↔
      ¬ (SigreturnReads cfg env m t ∧ HasS m (t.usp + sigframeSc + scSr cfg)) := by
  unfold doSigreturn SigreturnReads
  dsimp only
  by_cases hok : accessOk .read env.seg t.usp (sizeofSigframe cfg)
  swap
  · rw [if_pos (verifyArea_ne_zero.mpr hok)]
    exact iff_of_true ht fun h => hok h.1.1
  rw [if_neg (fun e => verifyArea_ne_zero.mp e hok)]
  by_cases hmask : allMapped m.mapped (t.usp + sigframeSc) 4
  swap
  · rw [if_pos (getUserNocheck_ne_zero.mpr hmask)]
    exact iff_of_true ht fun h => hmask h.1.2.1
  rw [if_neg (fun e => getUserNocheck_ne_zero.mp e hmask), and_iff_right hok, and_iff_right hmask]
  cases hcopy : copyFromUser env.seg m (env.set + 4) (t.usp + 12) 4 with
  | error e c => exact iff_of_true ht (by simp)
  | ok left c =>
    dsimp only
    by_cases hleft : left = 0
    swap
    · rw [if_pos hleft]
      exact iff_of_true ht fun ⟨⟨_, h⟩, _⟩ => hleft (EStateM.Result.ok.inj h).1
    rw [if_neg (not_not.mpr hleft), hleft, and_iff_right ⟨c, rfl⟩, ← getUserNocheck_hasS,
      ← restoreSigframe_sr cfg env m]
    -- Whatever comes after `restore_sigframe` leaves the slots as they are.
    split <;> rename_i heq <;> rw [heq] <;> rfl

theorem doSigaltstack_regs (seg : Addr) (m : UserMem) (t : Task) (uss sp : Addr) :
    (doSigaltstack seg m t uss sp).2.regs = t.regs := by
  unfold doSigaltstack
  repeat' split
  all_goals rfl

theorem userMode_doRtSigreturn_iff (cfg : Config) (env : Env) (m : UserMem) (ht : userMode t) :
    userMode (doRtSigreturn cfg env m t).2 ↔
      ¬ (RtSigreturnReads cfg env m t ∧ HasS m (t.usp + rtSigframeMcontext + scSr cfg)) := by
  unfold doRtSigreturn RtSigreturnReads
  dsimp only
  by_cases hok : accessOk .read env.seg t.usp (sizeofRtSigframe cfg)
  swap
  · rw [if_pos (verifyArea_ne_zero.mpr hok)]
    exact iff_of_true ht fun h => hok h.1.1
  rw [if_neg (fun e => verifyArea_ne_zero.mp e hok), and_iff_right hok]
  cases hcopy : copyFromUser env.seg m env.set (t.usp + rtSigframeSigmask cfg) 8 with
  | error e c => exact iff_of_true ht (by simp)
  | ok left c =>
    dsimp only
    by_cases hleft : left = 0
    swap
    · rw [if_pos hleft]
      exact iff_of_true ht fun ⟨⟨_, h⟩, _⟩ => hleft (EStateM.Result.ok.inj h).1
    rw [if_neg (not_not.mpr hleft), hleft, and_iff_right ⟨c, rfl⟩, ← getUserNocheck_hasS,
      ← restoreSigframe_sr cfg env m]
    split <;> rename_i heq <;> rw [heq]
    · rfl
    · rfl
    · rename_i a0 t'
      rw [← doSigaltstack_regs env.seg m t' (t.usp + rtSigframeStack) t.usp]
      split <;> rfl

/-! ### Runs -/

/-- A user-controlled operation on the saved registers: a signal return with the
frame in `m`, or a `ptrace` request of a tracer with memory `m`. -/
inductive Op
  | sigreturn (env : Env) (m : UserMem)
  | rtSigreturn (env : Env) (m : UserMem)
  | pokeusr (addr data : BitVec 32)
  | setregs (seg : Addr) (m : UserMem) (data : Addr)

def Op.apply (cfg : Config) (t : Task) : Op → Task
  | .sigreturn env m => (doSigreturn cfg env m t).2
  | .rtSigreturn env m => (doRtSigreturn cfg env m t).2
  | .pokeusr addr data => (Csky.pokeusr cfg.abiV2 t addr data).2
  | .setregs seg m data => (Csky.setregs cfg.abiV2 m seg t data).2

/-- The operation reads its new `sr` from a word with the supervisor bit. -/
def Op.GivesS (cfg : Config) (t : Task) : Op → Prop
  | .sigreturn env m => SigreturnReads cfg env m t ∧ HasS m (t.usp + sigframeSc + scSr cfg)
  | .rtSigreturn env m =>
    RtSigreturnReads cfg env m t ∧ HasS m (t.usp + rtSigframeMcontext + scSr cfg)
  | .pokeusr addr data => addr = srOffset ∧ data &&& PS_S ≠ 0
  | .setregs seg m data => ReadableTo m seg data REGNO_SR ∧ HasS m (data + srOffset)

/-- A task in user mode stays in it exactly if the operation does not hand it the
supervisor bit. -/
theorem userMode_apply_iff (cfg : Config) (ht : userMode t) (op : Op) :
    userMode (op.apply cfg t) ↔ ¬ op.GivesS cfg t := by
  cases op with
  | sigreturn env m => exact userMode_doSigreturn_iff cfg env m ht
  | rtSigreturn env m => exact userMode_doRtSigreturn_iff cfg env m ht
  | pokeusr addr data =>
    unfold userMode Op.apply Op.GivesS at *
    rw [pokeusr_sr]
    by_cases h : addr = srOffset
    · simp [h]
    · simp [h, ht]
  | setregs seg m data =>
    unfold userMode Op.apply Op.GivesS at *
    rw [setregs_sr]
    by_cases h : ReadableTo m seg data REGNO_SR
    · have hmap : allMapped m.mapped (data + srOffset) 4 := (h REGNO_SR (by decide)).2
      simp [h, HasS, hmap]
    · simp [h, ht]

/-- One step of a run. Every operation comes back, if only to a dying task. -/
def opStep (cfg : Config) (t : Task) (op : Op) : Option Task := some (op.apply cfg t)

/-- A task in user mode is in user mode throughout a run exactly if none of the
operations finds the supervisor bit where it reads `sr`. -/
theorem always_userMode_iff (cfg : Config) {t : Task} (ht : userMode t) (ops : List Op) :
    Always (opStep cfg) userMode t ops ↔
      Along (opStep cfg) (fun t op => ¬ op.GivesS cfg t) t ops := by
  constructor
  · refine along_of_always fun t op t' ht hstep ht' => ?_
    obtain rfl : op.apply cfg t = t' := Option.some.inj hstep
    exact (userMode_apply_iff cfg ht op).mp ht'
  · exact always_of_along (fun t op ht hop => ⟨_, rfl, (userMode_apply_iff cfg ht op).mpr hop⟩) ht

/-- A task that has just been started: everything zero but the stack pointer. -/
def freshTask : Task :=
  { regs := fun _ => 0, usp := 0x7FFF0000, hi := 0, lo := 0, fctl := fun _ => 0, fp := fun _ => 0
    blocked := (0, 0), sasSsSp := 0, sasSsSize := 0, segv := false, dead := false }

/-- A signal frame of ones. -/
def onesFrame : UserMem := ⟨fun _ => 0xFF, fun _ => true⟩

def userEnv : Env := ⟨0x80000000, 0x90000000, 0x90000100⟩

/-- A tracer sets all registers and then the task returns from a signal, both from words
that have every bit but the first of each byte. -/
theorem always_userMode_setregs_sigreturn : Always (opStep ⟨true, true, true⟩) userMode freshTask
    [.setregs 0x80000000 ⟨fun _ => 0x7F, fun _ => true⟩ 0x1000,
      .sigreturn userEnv ⟨fun _ => 0x7F, fun _ => true⟩] := by
  have hclear : ∀ a, ¬ HasS ⟨fun _ => 0x7F, fun _ => true⟩ a :=
    fun a h => h.2 (by simp [load32, PS_S])
  exact (always_userMode_iff _ (by decide) _).mpr
    ⟨fun h => hclear _ h.2, fun _ _ => ⟨fun h => hclear _ h.2, fun _ _ => trivial⟩⟩

/-- Both ways a process has: a tracer pokes the bit into the saved `sr`, and a signal
return restores it from the frame. -/
theorem poke_and_sigreturn_leave_userMode : userMode freshTask ∧
      ¬ userMode ((Op.pokeusr 128 0x80000000).apply ⟨false, false, false⟩ freshTask) ∧
      ¬ userMode ((Op.sigreturn userEnv onesFrame).apply ⟨false, false, false⟩ freshTask) := by
  decide

end SilanKernel.Csky
