import SilanKernel.Csky.SavedRegs
import SilanKernel.Data.Run

/-!
# SilanKernel.Csky.Alignment

The alignment trap of `arch/csky/kernel/alignment.c` (`CONFIG_SOFT_HANDMISSALIGN`):
`alignment_c` fetches the trapping instruction, decodes it and emulates the access
byte by byte.

`struct pt_regs` is an array of words here, because the code reaches most registers
by adding to a `long *`; the fields it names are the indices below. The emulated
memory is kept apart from the saved registers. A handler is a program that ends
(`return 1`) or stops (`goto fault`), and what it wrote before it stopped stays.

`__CSKYABIV2__` decides which decoder is compiled, `__CSKY__` the size of
`struct pt_regs`, and the byte order the `BE` shifts. The counters shown in
`/proc/cpu/alignment`, the warnings and the signal of `UM_SIGNAL` are left out.
-/

namespace SilanKernel.Csky

/-! ### `struct pt_regs` as words -/

namespace PtRegs

def PC : Nat := 0
def SR : Nat := 2
def A2 : Nat := 5
def A3 : Nat := 6
/-- `regs[i]` -/
def REGS (i : Nat) : Nat := 7 + i
def R15 : Nat := 17

end PtRegs

open PtRegs

/-- `UM_FIXUP` -/
def UM_FIXUP : BitVec 32 := 2

/-- What the handlers only read: the build, the byte order, which byte accesses go
through, the user stack pointer (`ss1`, that is `cr<14, 1>`), where `regs` lies and
`ai_usermode`. -/
structure TrapEnv where
  config : Config
  be : Bool
  readable : Addr → Bool
  writable : Addr → Bool
  usp : BitVec 32
  regs : Addr
  aiUsermode : BitVec 32

/-- The saved registers and the memory the trapping instruction works on. -/
structure Trapped where
  regs : Nat → BitVec 32
  mem : Addr → BitVec 8

/-- A handler: it ends with `return 1` or leaves through `fault`. -/
abbrev Handle := EStateM Unit Trapped

namespace Trapped

def setReg (t : Trapped) (i : Nat) (v : BitVec 32) : Trapped :=
  { t with regs := Function.update t.regs i v }

/-- `user_mode(regs)` -/
def userMode (t : Trapped) : Bool :=
  t.regs SR &&& PS_S = 0

end Trapped

namespace TrapEnv

variable (env : TrapEnv)

/-- `sizeof(struct pt_regs)` -/
def sizeofPtRegs : BitVec 32 :=
  if env.config.cskyV2 then 144 else 72

/-! ### The byte accesses -/

/-- `__get8_unaligned_check`: the byte, the address after it and the error flag. After
a fault the address stays and the flag is set; the byte is then of no account. -/
def get8 (mem : Addr → BitVec 8) (a : Addr) (err : Bool) : BitVec 32 × Addr × Bool :=
  if env.readable a then ((mem a).setWidth 32, a + 1, err) else (0, a, true)

/-- The body that `get16_unaligned_check` and `get32_unaligned_check` share: one byte
for each shift, and the error flag looked at only when all are through. -/
def getBytes (env : TrapEnv) (mem : Addr → BitVec 8) : List Nat → Addr → Bool → BitVec 32 →
    Option (BitVec 32)
  | [], _, err, val => if err then none else some val
  | shift :: shifts, a, err, val =>
    let (v, a, err) := env.get8 mem a err
    env.getBytes mem shifts a err (val ||| v <<< shift)

def getUnaligned (shifts : List Nat) (addr : Addr) : Handle (BitVec 32) := fun t =>
  match env.getBytes t.mem shifts addr false 0 with
  | some val => .ok val t
  | none => .error () t

/-- `get16_unaligned_check` -/
def get16 (addr : Addr) : Handle (BitVec 32) :=
  env.getUnaligned (if env.be then [8, 0] else [0, 8]) addr

/-- `get32_unaligned_check` -/
def get32 (addr : Addr) : Handle (BitVec 32) :=
  env.getUnaligned (if env.be then [24, 16, 8, 0] else [0, 8, 16, 24]) addr

/-- `NEXT_BYTE` -/
def nextByte (v : BitVec 32) : BitVec 32 :=
  if env.be then v.rotateRight 24 else v >>> 8

/-- The body that `put16_unaligned_check` and `put32_unaligned_check` share: `n` byte
stores, of which the first that faults ends the sequence. -/
def putBytes (env : TrapEnv) : Nat → (Addr → BitVec 8) → BitVec 32 → Addr → (Addr → BitVec 8) × Bool
  | 0, mem, _, _ => (mem, true)
  | n + 1, mem, v, a =>
    if env.writable a then
      env.putBytes n (Function.update mem a (v.setWidth 8)) (env.nextByte v) (a + 1)
    else (mem, false)

def putUnaligned (n : Nat) (v : BitVec 32) (addr : Addr) : Handle Unit := fun t =>
  match env.putBytes n t.mem v addr with
  | (mem, true) => .ok () { t with mem }
  | (mem, false) => .error () { t with mem }

/-- `put16_unaligned_check`, which starts with `FIRST_BYTE_16` -/
def put16 (v : BitVec 32) (addr : Addr) : Handle Unit :=
  env.putUnaligned 2 (if env.be then v.rotateRight 8 else v) addr

/-- `put32_unaligned_check`, which starts with `FIRST_BYTE_32` -/
def put32 (v : BitVec 32) (addr : Addr) : Handle Unit :=
  env.putUnaligned 4 (if env.be then v.rotateRight 24 else v) addr

/-! ### Registers by number -/

/-- The stack pointer as the data of a store: the user's, or what it was before
`regs` was pushed. -/
def dataSp (t : Trapped) : BitVec 32 :=
  if t.userMode then env.usp else env.sizeofPtRegs + env.regs

/-- The store branches of `alignment_handle_ldhsth` and `alignment_handle_ldwstw`, ABIv1. -/
def dataregzV1 (t : Trapped) (regz : Nat) : BitVec 32 :=
  if regz = 0 then env.dataSp t
  else if regz = 1 then t.regs (REGS 9)
  else if regz = 15 then t.regs R15
  else t.regs (regz + 1)

/-- The store branches for 32-bit instructions, ABIv2. -/
def dataregzV2 (t : Trapped) (regz : Nat) : BitVec 32 :=
  if regz < 14 then t.regs (regz + 3)
  else if regz = 14 then env.dataSp t
  else t.regs (regz + 2)

/-- The load branches for 32-bit instructions, ABIv2. The branch that should refuse
`r14` repeats the test before it, so `r14` ends in the last one. -/
def loadV2 (regz : Nat) (val : BitVec 32) : Handle Unit :=
  if regz < 14 then modify (·.setReg (regz + 3) val)
  else if regz < 14 then throw ()
  else modify (·.setReg (regz + 2) val)

/-! ### The handlers -/

/-- `alignment_handle_ldhsth` -/
def alignmentHandleLdhsth (addr : Addr) (instr : BitVec 32) : Handle Unit := do
  let t ← get
  if env.config.abiV2 then
    if instr &&& 0xc0000000 ≠ 0 then
      let regz := ((instr >>> 21) &&& 0x1f).toNat
      if instr &&& 0x04000000 ≠ 0 then
        env.put16 (env.dataregzV2 t regz) addr
      else
        let val ← env.get16 addr
        loadV2 regz val
    else
      let regz := ((instr >>> 5) &&& 0x7).toNat
      if instr &&& 0x2000 ≠ 0 then
        env.put16 (t.regs (regz + 3)) addr
      else
        let val ← env.get16 addr
        modify (·.setReg (regz + 3) val)
  else
    let regz := ((instr >>> 8) &&& 0xf).toNat
    if instr &&& 0x1000 ≠ 0 then
      env.put16 (env.dataregzV1 t regz) addr
    else
      let val ← env.get16 addr
      if regz = 0 then throw ()
      else if regz = 1 then modify (·.setReg (REGS 9) val)
      else if regz = 15 then modify (·.setReg R15 val)
      else modify (·.setReg (regz + 1) val)

/-- `alignment_handle_ldwstw` -/
def alignmentHandleLdwstw (addr : Addr) (instr : BitVec 32) : Handle Unit := do
  let t ← get
  if env.config.abiV2 then
    if instr &&& 0xc0000000 ≠ 0 then
      let regz := ((instr >>> 21) &&& 0x1f).toNat
      if instr &&& 0x04000000 ≠ 0 then
        env.put32 (env.dataregzV2 t regz) addr
      else
        let val ← env.get32 addr
        loadV2 regz val
    else
      let regz := ((instr >>> 5) &&& 0x7).toNat
      if instr &&& 0x2000 ≠ 0 then
        env.put32 (t.regs (regz + 3)) addr
      else
        let val ← env.get32 addr
        modify (·.setReg (regz + 3) val)
  else
    let regz := ((instr >>> 8) &&& 0xf).toNat
    if instr &&& 0x1000 ≠ 0 then
      env.put32 (env.dataregzV1 t regz) addr
    else
      let val ← env.get32 addr
      if regz = 0 then throw ()
      else if regz = 1 then modify (·.setReg (REGS 9) val)
      -- the test for `r15` asks for 1 again
      else if regz = 1 then modify (·.setReg R15 val)
      else modify (·.setReg (regz + 1) val)

/-- `alignment_handle_ldhs` -/
def alignmentHandleLdhs (addr : Addr) (instr : BitVec 32) : Handle Unit := do
  let regz := ((instr >>> 21) &&& 0x1f).toNat
  let val ← env.get16 addr
  loadV2 regz ((val.setWidth 16).signExtend 32)

/-- The two words an `std` stores. -/
def dataregzPair (t : Trapped) (regz : Nat) : BitVec 32 × BitVec 32 :=
  if regz < 13 then (t.regs (regz + 3), t.regs (regz + 4))
  else if regz = 13 then (t.regs (regz + 3), env.dataSp t)
  else if regz = 14 then (env.dataSp t, t.regs (regz + 3))
  else (t.regs (regz + 2), t.regs (regz + 3))

/-- `alignment_handle_lddstd` -/
def alignmentHandleLddstd (addr : Addr) (instr : BitVec 32) : Handle Unit := do
  let regz := ((instr >>> 21) &&& 0x1f).toNat
  if instr &&& 0x04000000 ≠ 0 then
    let t ← get
    let (dataregz, dataregzIn1) := env.dataregzPair t regz
    env.put32 dataregz addr
    env.put32 dataregzIn1 (addr + 4)
  else
    let val1 ← env.get32 addr
    let val2 ← env.get32 (addr + 4)
    if regz < 13 then
      modify fun t => (t.setReg (regz + 3) val1).setReg (regz + 4) val2
    else if 15 < regz then
      modify fun t => (t.setReg (regz + 2) val1).setReg (regz + 3) val2
    else throw ()

/-- `alignment_handle_ldqstq`. The address moves on by one between the four words. -/
def alignmentHandleLdqstq (addr : Addr) (instr : BitVec 32) : Handle Unit := do
  if instr &&& 0x1000 ≠ 0 then
    let t ← get
    env.put32 (t.regs A2) addr
    env.put32 (t.regs A3) (addr + 1)
    env.put32 (t.regs (REGS 0)) (addr + 1 + 1)
    env.put32 (t.regs (REGS 1)) (addr + 1 + 1 + 1)
  else
    let val ← env.get32 addr
    modify (·.setReg A2 val)
    let val ← env.get32 (addr + 1)
    modify (·.setReg A3 val)
    let val ← env.get32 (addr + 1 + 1)
    modify (·.setReg (REGS 0) val)
    let val ← env.get32 (addr + 1 + 1 + 1)
    modify (·.setReg (REGS 1) val)

/-! ### Fetching and decoding -/

/-- `__get_user` of a `u16` under `KERNEL_DS`. -/
def fetch16 (mem : Addr → BitVec 8) (a : Addr) : Option (BitVec 16) :=
  if env.readable a && env.readable (a + 1) then
    some (if env.be then mem a ++ mem (a + 1) else mem (a + 1) ++ mem a)
  else none

/-- The instruction and its size, or `none` when it could not be read. -/
def fetch (t : Trapped) : Option (BitVec 32 × BitVec 32) := do
  let instrptr := t.regs PC
  let tinstr ← env.fetch16 t.mem (instrptr &&& ~~~1)
  if env.config.abiV2 && tinstr &&& 0xc000 == 0xc000 then
    let tinst2 ← env.fetch16 t.mem (instrptr + 2)
    return (tinstr.setWidth 32 <<< 16 ||| tinst2.setWidth 32, 4)
  else
    return (tinstr.setWidth 32, 2)

/-- The base address of `ldq` and `stq`: here `r15` has no case of its own. -/
def quadBase (t : Trapped) (instr : BitVec 32) : Addr :=
  let regx := (instr &&& 0xf).toNat
  if regx = 0 then env.usp
  else if regx = 1 then t.regs (REGS 9)
  else t.regs (regx + 1)

/-- The base register of `ld` and `st`, ABIv1. -/
def baseV1 (t : Trapped) (instr : BitVec 32) : Addr :=
  let regx := (instr &&& 0xf).toNat
  if regx = 0 then env.usp
  else if regx = 1 then t.regs (REGS 9)
  else if regx = 15 then t.regs R15
  else t.regs (regx + 1)

/-- The ABIv1 half of `alignment_c` between `fixup` and the call: the handler applied
to its arguments, or `none` for `goto bad_or_fault`. -/
def decodeV1 (t : Trapped) (instr : BitVec 32) : Option (Handle Unit) :=
  if instr &&& 0x8000 ≠ 0 then
    let imm4 := (instr >>> 4) &&& 0xf
    if instr &&& 0x4000 ≠ 0 then
      some (env.alignmentHandleLdhsth (env.baseV1 t instr + imm4 <<< 1) instr)
    else
      some (env.alignmentHandleLdwstw (env.baseV1 t instr + imm4 <<< 2) instr)
  else if instr &&& 0x60 = 0x40 then
    some (env.alignmentHandleLdqstq (env.quadBase t instr) instr)
  else none

/-- The base register of the 32-bit `ld` and `st`, ABIv2. -/
def baseV2 (t : Trapped) (instr : BitVec 32) : Addr :=
  let regx := ((instr >>> 16) &&& 0x1f).toNat
  if regx < 14 then t.regs (regx + 3)
  else if regx = 14 then env.usp
  else t.regs (regx + 2)

/-- The ABIv2 half. All the ways past the handlers (a null `handler`, and the
`default` of the `switch`) end at `bad_or_fault`. -/
def decodeV2 (t : Trapped) (instr isize : BitVec 32) : Option (Handle Unit) :=
  if isize = 2 then
    if instr &&& 0x8000 ≠ 0 then
      let imm5 := instr &&& 0x1f
      let regx := ((instr >>> 8) &&& 0x7).toNat
      if instr &&& 0x1000 ≠ 0 then
        if instr &&& 0x0800 ≠ 0 then
          let imm := imm5 + ((instr >>> 8) &&& 0x7) <<< 5
          some (env.alignmentHandleLdwstw (env.usp + imm <<< 2) instr)
        else
          some (env.alignmentHandleLdwstw (t.regs (regx + 3) + imm5 <<< 2) instr)
      else
        some (env.alignmentHandleLdhsth (t.regs (regx + 3) + imm5 <<< 1) instr)
    else none
  else if instr &&& 0xf8000000 = 0xD8000000 then
    let offset := instr &&& 0xfff
    let type := instr &&& 0xf000
    if type = 0x1000 then some (env.alignmentHandleLdhsth (env.baseV2 t instr + offset <<< 1) instr)
    else if type = 0x2000 then
      some (env.alignmentHandleLdwstw (env.baseV2 t instr + offset <<< 2) instr)
    else if type = 0x3000 then
      some (env.alignmentHandleLddstd (env.baseV2 t instr + offset <<< 2) instr)
    else if type = 0x5000 then
      some (env.alignmentHandleLdhs (env.baseV2 t instr + offset <<< 1) instr)
    else none
  else none

def decode (t : Trapped) (instr isize : BitVec 32) : Option (Handle Unit) :=
  if env.config.abiV2 then env.decodeV2 t instr isize else env.decodeV1 t instr

end TrapEnv

/-! ### The trap -/

/-- Where `alignment_c` ends: after the emulation, at `bad_or_fault` (before
`fixup_exception` looks up `pc`), or in user mode without `UM_FIXUP`. -/
inductive TrapEnd
  | fixed (t : Trapped)
  | badOrFault (t : Trapped)
  | left (t : Trapped)

namespace TrapEnv

/-- `alignment_c` from the label `fixup`. -/
def fixup (env : TrapEnv) (t : Trapped) (instr isize : BitVec 32) : TrapEnd :=
  let t := t.setReg PC (t.regs PC + isize)
  match env.decode t instr isize with
  | none => .badOrFault t
  | some handler =>
    match handler t with
    | .ok _ t => .fixed t
    | .error _ t => .badOrFault (t.setReg PC (t.regs PC - 2))

/-- `alignment_c` -/
def alignmentC (env : TrapEnv) (t : Trapped) : TrapEnd :=
  match env.fetch t with
  | none => .badOrFault t
  | some (instr, isize) =>
    if t.userMode then
      if env.aiUsermode &&& UM_FIXUP ≠ 0 then env.fixup t instr isize else .left t
    else env.fixup t instr isize

end TrapEnv

end SilanKernel.Csky
