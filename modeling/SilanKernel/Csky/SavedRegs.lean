import SilanKernel.Csky.Uaccess

/-!
# SilanKernel.Csky.SavedRegs

The code that writes a task's saved registers from user data:
`arch/csky/kernel/ptrace.c` (`put_reg`, and `arch_ptrace` for `PTRACE_POKEUSR` and
`PTRACE_SETREGS`) and `arch/csky/kernel/signal.c` (`restore_sigframe`,
`do_sigreturn`, `do_rt_sigreturn`).

`struct pt_regs` is kept slot by slot. The user stack pointer has no slot: it is
the register `ss1` (`cr<14, 1>`) while the task runs and `thread.usp` while it
does not, here one field. The same goes for the FPU registers. Field offsets are
those of a 32-bit compiler.

The pending-signal bookkeeping of `recalc_sigpending` and the restart block are
left out.
-/

namespace SilanKernel.Csky

/-- What the build decides: the processor (`CONFIG_CPU_CSKYV2`), the calling
convention (`__CSKYABIV2__`) and the FPU (`CONFIG_CPU_HAS_FPU`). -/
structure Config where
  cskyV2 : Bool
  abiV2 : Bool
  hasFpu : Bool
  deriving DecidableEq

/-- The fields of `struct pt_regs`. -/
inductive Slot
  | pc
  | origA0
  | sr
  | a0
  | a1
  | a2
  | a3
  | regs (i : Fin 10)
  | r15
  | exregs (i : Fin 16)
  | rhi
  | rlo
  deriving DecidableEq

/-- `PS_S`, supervisor mode. -/
def PS_S : BitVec 32 := 0x80000000

/-- The task, as far as user data reaches it. -/
structure Task where
  regs : Slot → BitVec 32
  usp : BitVec 32
  hi : BitVec 32
  lo : BitVec 32
  /-- `fcr`, `fsr` and `fesr`, which follow each other in `thread_struct` -/
  fctl : Nat → BitVec 32
  fp : Nat → BitVec 32
  /-- the two words of the blocked-signal mask -/
  blocked : BitVec 32 × BitVec 32
  sasSsSp : BitVec 32
  sasSsSize : BitVec 32
  /-- `SIGSEGV` has been forced on the task -/
  segv : Bool
  /-- the task died in a kernel oops -/
  dead : Bool

/-- `user_mode(regs)` -/
def userMode (t : Task) : Prop := t.regs .sr &&& PS_S = 0

instance (t : Task) : Decidable (userMode t) :=
  inferInstanceAs (Decidable (t.regs .sr &&& PS_S = 0))

def Task.setReg (t : Task) (r : Slot) (v : BitVec 32) : Task :=
  { t with regs := Function.update t.regs r v }

/-! ### `ptrace` -/

def EIO : Int := 5

def CSKY_HI_NUM : Nat := 34
def CSKY_LO_NUM : Nat := 35
def CSKY_GREG_NUM : Nat := 35
def CSKY_FREG_NUM_LO : Nat := 40
def CSKY_FREG_NUM_HI : Nat := 72
def CSKY_FCR_NUM : Nat := 74

variable (abiV2 : Bool)

def REGNO_USP : Nat := if abiV2 then 14 else 0

/-- `regoff[]`, with `none` for the entries `-1`. -/
def regoff : List (Option Slot) :=
  if abiV2 then
    [some .a0, some .a1, some .a2, some .a3,
      some (.regs 0), some (.regs 1), some (.regs 2), some (.regs 3),
      some (.regs 4), some (.regs 5), some (.regs 6), some (.regs 7),
      some (.regs 8), some (.regs 9), none, some .r15,
      some (.exregs 0), some (.exregs 1), some (.exregs 2), some (.exregs 3),
      some (.exregs 4), some (.exregs 5), some (.exregs 6), some (.exregs 7),
      some (.exregs 8), some (.exregs 9), some (.exregs 10), some (.exregs 11),
      some (.exregs 12), some (.exregs 13), some (.exregs 14), some (.exregs 15),
      some .sr, some .pc, some .rhi, some .rlo]
  else
    [none, some (.regs 9), some .a0, some .a1,
      some .a2, some .a3, some (.regs 0), some (.regs 1),
      some (.regs 2), some (.regs 3), some (.regs 4), some (.regs 5),
      some (.regs 6), some (.regs 7), some (.regs 8), some .r15,
      none, none, none, none,
      none, none, none, none,
      none, none, none, none,
      none, none, none, none,
      some .sr, some .pc, none, none]

def putReg (t : Task) (regno : Nat) (data : BitVec 32) : Int × Task :=
  if regno = REGNO_USP abiV2 then (0, { t with usp := data })
  else if !abiV2 && regno == CSKY_HI_NUM then (0, { t with hi := data })
  else if !abiV2 && regno == CSKY_LO_NUM then (0, { t with lo := data })
  else
    match (regoff abiV2)[regno]? with
    | some (some r) => (0, t.setReg r data)
    | _ => (-1, t)

/-- `arch_ptrace` for `PTRACE_POKEUSR`. -/
def pokeusr (t : Task) (addr data : BitVec 32) : Int × Task :=
  if addr &&& 3 ≠ 0 then (- EIO, t)
  else
    let regno := (addr >>> 2).toNat
    if regno ≤ CSKY_GREG_NUM then
      let (rc, t) := putReg abiV2 t regno data
      if rc ≠ 0 then (- EIO, t) else (0, t)
    else if CSKY_FREG_NUM_LO ≤ regno ∧ regno < CSKY_FREG_NUM_HI then
      (0, { t with fp := Function.update t.fp (regno - CSKY_FREG_NUM_LO) data })
    else if CSKY_FREG_NUM_HI ≤ regno ∧ regno ≤ CSKY_FCR_NUM then
      (0, { t with fctl := Function.update t.fctl (regno - CSKY_FREG_NUM_HI) data })
    else (- EIO, t)

/-- The loop of `PTRACE_SETREGS`, from register `i` on, with `left` to go. The
tracer's memory is `m` and its address limit `seg`. -/
def setregsLoop (abiV2 : Bool) (m : UserMem) (seg : Addr) :
    Nat → Nat → Addr → BitVec 32 → Task → Int × Task
  | 0, _, _, _, t => (0, t)
  | left + 1, i, data, tmp, t =>
    let (ret, tmp) := getUserCheck m seg data tmp
    if ret ≠ 0 then (ret, t)
    else
      let (_, t) := putReg abiV2 t i tmp
      setregsLoop abiV2 m seg left (i + 1) (data + 4) tmp t

/-- `arch_ptrace` for `PTRACE_SETREGS`. -/
def setregs (m : UserMem) (seg : Addr) (t : Task) (data : Addr) : Int × Task :=
  setregsLoop abiV2 m seg (CSKY_GREG_NUM + 1) 0 data 0 t

/-! ### Signal frames -/

variable (cfg : Config)

/-- Offset of `sc_sr` in `struct sigcontext`; `sc_pc` and the FPU part follow. -/
def scSr : Addr := if cfg.cskyV2 then 140 else 68

def scPc : Addr := scSr cfg + 4

def scFcr : Addr := scSr cfg + 8

/-- `sizeof(fpregset_t)`, which is also the size of the FPU part. -/
def sizeofFpregset : Addr := 148

def sizeofSigcontext : Addr := scFcr cfg + sizeofFpregset

/-- The registers `restore_sigframe` reads, in its order, with their offsets. -/
def sigcontextRegs : List (Slot × Addr) :=
  [(.a0, 8), (.a1, 12), (.a2, 16), (.a3, 20)] ++
    (List.finRange 10).map (fun i : Fin 10 => (.regs i, 24 + 4 * BitVec.ofNat 32 i.val)) ++
    [(.r15, 64)] ++
    (if cfg.cskyV2 then
      (List.finRange 16).map (fun i : Fin 16 => (.exregs i, 68 + 4 * BitVec.ofNat 32 i.val)) ++
        [(.rhi, 132), (.rlo, 136)]
    else []) ++
    [(.sr, scSr cfg), (.pc, scPc cfg)]

/-- `err |= __get_user(regs->r, &usc->sc_r)` for one register after the other:
whether there was an error, and the task. -/
def restoreRegs (m : UserMem) (usc : Addr) : List (Slot × Addr) → Bool × Task → Bool × Task
  | [], s => s
  | (r, off) :: rest, (err, t) =>
    let (e, v) := getUserNocheck m (usc + off)
    restoreRegs m usc rest (err || e != 0, t.setReg r v)

/-- The addresses that a signal return gets from its environment: the task's
address limit and the kernel-stack addresses of the locals `set` and `fpregs`. -/
structure Env where
  seg : Addr
  set : Addr
  fpregs : Addr

/-- `restore_fpu_state`; `none` if the copy ends in an oops. Version 2 of the
processor has no `fsr`. -/
def restoreFpuState (env : Env) (m : UserMem) (sc : Addr) (t : Task) :
    Option (Bool × Task) :=
  if cfg.hasFpu then
    match copyFromUser env.seg m env.fpregs (sc + scFcr cfg) sizeofFpregset with
    | .error _ _ => none
    | .ok left c =>
      if left ≠ 0 then some (true, t)
      else
        let word (i : Nat) := load32 c.mem (env.fpregs + 4 * BitVec.ofNat 32 i)
        some (false, { t with
          fctl := fun i => if i < 3 ∧ ¬ (i = 1 ∧ cfg.cskyV2) then word i else t.fctl i
          fp := fun i => if i < 32 then word (5 + i) else t.fp i })
  else some (false, t)

/-- `restore_sigframe`: whether there was an error, the value of `*pr2` and the
task; `none` for an oops, the registers being restored by then. -/
def restoreSigframe (env : Env) (m : UserMem) (usc : Addr) (t : Task) :
    Option (Bool × BitVec 32) × Task :=
  let (err, t) := restoreRegs m usc (sigcontextRegs cfg) (false, t)
  let (e, usp) := getUserNocheck m (usc + 4)
  let t := { t with usp }
  match restoreFpuState cfg env m usc t with
  | none => (none, t)
  | some (e', t) => (some (err || e != 0 || e', t.regs .a0), t)

/-- The label `badframe`. -/
def badframe (t : Task) : BitVec 32 × Task := (0, { t with segv := true })

def oopsed (t : Task) : BitVec 32 × Task := (0, { t with dead := true })

/-- `_BLOCKABLE`: everything but `SIGKILL` (9) and `SIGSTOP` (19). -/
def BLOCKABLE : BitVec 32 := ~~~((1 <<< 8) ||| (1 <<< 18))

/-- Offset of `sc` in `struct sigframe`, after `sig`, `code`, `psc` and one word of
`extramask`. -/
def sigframeSc : Addr := 16

def sizeofSigframe : Addr := sigframeSc + sizeofSigcontext cfg

def doSigreturn (env : Env) (m : UserMem) (t : Task) : BitVec 32 × Task :=
  let frame := t.usp
  if verifyArea .read env.seg frame (sizeofSigframe cfg) ≠ 0 then badframe t
  else
    let (e, sig0) := getUserNocheck m (frame + sigframeSc)
    if e ≠ 0 then badframe t
    else
      match copyFromUser env.seg m (env.set + 4) (frame + 12) 4 with
      | .error _ _ => oopsed t
      | .ok left c =>
        if left ≠ 0 then badframe t
        else
          let t := { t with blocked := (sig0 &&& BLOCKABLE, load32 c.mem (env.set + 4)) }
          match restoreSigframe cfg env m (frame + sigframeSc) t with
          | (none, t) => oopsed t
          | (some (true, _), t) => badframe t
          | (some (false, a0), t) => (a0, t)

/-- Offsets in `struct rt_sigframe`: `uc` follows `sig`, `pinfo`, `puc` and 128 bytes
of `info`; in it come `uc_flags`, `uc_link`, `uc_stack`, `uc_mcontext` and
`uc_sigmask`. -/
def rtSigframeStack : Addr := 148

def rtSigframeMcontext : Addr := 160

def rtSigframeSigmask : Addr := rtSigframeMcontext + sizeofSigcontext cfg

def sizeofRtSigframe : Addr := rtSigframeSigmask cfg + 8

def SS_ONSTACK : BitVec 32 := 1
def SS_DISABLE : BitVec 32 := 2
def MINSIGSTKSZ : BitVec 32 := 2048

def EPERM : Int := 1
def EINVAL : Int := 22
def ENOMEM : Int := 12

def onSigStack (t : Task) (sp : Addr) : Bool :=
  decide (t.sasSsSp < sp) && decide (sp - t.sasSsSp ≤ t.sasSsSize)

/-- `do_sigaltstack` of `kernel/signal.c`, called with `uss` and no `uoss`. -/
def doSigaltstack (seg : Addr) (m : UserMem) (t : Task) (uss sp : Addr) : Int × Task :=
  if !accessOk .read seg uss 12 then (-EFAULT, t)
  else
    let (e1, ssSp) := getUserNocheck m uss
    let (e2, ssFlags) := getUserNocheck m (uss + 4)
    let (e3, ssSize) := getUserNocheck m (uss + 8)
    if e1 ≠ 0 ∨ e2 ≠ 0 ∨ e3 ≠ 0 then (-EFAULT, t)
    else if onSigStack t sp then (-EPERM, t)
    else if ssFlags ≠ SS_DISABLE ∧ ssFlags ≠ SS_ONSTACK ∧ ssFlags ≠ 0 then (-EINVAL, t)
    else if ssFlags = SS_DISABLE then (0, { t with sasSsSp := 0, sasSsSize := 0 })
    else if ssSize < MINSIGSTKSZ then (-ENOMEM, t)
    else (0, { t with sasSsSp := ssSp, sasSsSize := ssSize })

def doRtSigreturn (env : Env) (m : UserMem) (t : Task) : BitVec 32 × Task :=
  let usp := t.usp
  let frame := usp
  if verifyArea .read env.seg frame (sizeofRtSigframe cfg) ≠ 0 then badframe t
  else
    match copyFromUser env.seg m env.set (frame + rtSigframeSigmask cfg) 8 with
    | .error _ _ => oopsed t
    | .ok left c =>
      if left ≠ 0 then badframe t
      else
        let t := { t with
          blocked := (load32 c.mem env.set &&& BLOCKABLE, load32 c.mem (env.set + 4)) }
        match restoreSigframe cfg env m (frame + rtSigframeMcontext) t with
        | (none, t) => oopsed t
        | (some (true, _), t) => badframe t
        | (some (false, a0), t) =>
          let (rc, t) := doSigaltstack env.seg m t (frame + rtSigframeStack) usp
          if rc = -EFAULT then badframe t else (a0, t)

end SilanKernel.Csky
