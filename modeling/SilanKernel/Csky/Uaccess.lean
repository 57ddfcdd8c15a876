import Mathlib.Algebra.Group.Nat.Defs
import Mathlib.Logic.Function.Basic

/-!
# SilanKernel.Csky.Uaccess

User memory access on csky with an MMU: `arch/csky/include/asm/uaccess.h` and
`arch/csky/lib/usercopy.c`.

Kernel and user share one address space of 32-bit addresses; `access_ok` is all
that keeps a user pointer out of the kernel's part of it. The copy loops are
inline assembly. They are embedded block by block over the three registers they
work on (`%0` the bytes left, `%1` the destination, `%2` the source), the memory,
and the list of **user-side bytes touched so far**, whether or not the access
went through. An access to an unmapped page faults: the machine then goes on at
the fix-up code if the instruction has an entry in `__ex_table` and dies in an
oops if it has none.
-/

namespace SilanKernel.Csky

abbrev Addr := BitVec 32

theorem addr_add (a : Addr) (i j : Nat) : a + BitVec.ofNat 32 i + BitVec.ofNat 32 j =
    a + BitVec.ofNat 32 (i + j) := by
  rw [BitVec.add_assoc, BitVec.ofNat_add]

theorem addr_succ (a : Addr) (i : Nat) : a + 1 + BitVec.ofNat 32 i = a + BitVec.ofNat 32
    (i + 1) := by
  rw [Nat.add_comm i]
  exact addr_add a 1 i

def EFAULT : Int := 14

inductive Verify
  | read
  | write
  deriving DecidableEq

/-- `access_ok`, with `addr_limit.seg` as `seg`. The sum wraps. -/
def accessOk (_type : Verify) (seg addr size : Addr) : Bool :=
  decide (addr < seg) && decide (addr + size < seg)

def verifyArea (type : Verify) (seg addr size : Addr) : Int :=
  if accessOk type seg addr size then 0 else -EFAULT

/-! ### Memory -/

/-- The page an address lies in. -/
def page (a : Addr) : BitVec 20 := a.extractLsb' 12 20

/-- The addresses of `len` consecutive bytes from `a` on. -/
def span (a : Addr) (len : Nat) : List Addr :=
  (List.range len).map fun i => a + BitVec.ofNat 32 i

theorem toNat_append_add (x : BitVec m) (y : BitVec n) :
    (x ++ y).toNat = x.toNat * 2 ^ n + y.toNat := by
  rw [BitVec.toNat_append, ← Nat.shiftLeft_add_eq_or_of_lt y.isLt, Nat.shiftLeft_eq]

def load32 (mem : Addr → BitVec 8) (a : Addr) : BitVec 32 :=
  mem (a + 3) ++ mem (a + 2) ++ mem (a + 1) ++ mem a

def store32 (mem : Addr → BitVec 8) (a : Addr) (w : BitVec 32) : Addr → BitVec 8 :=
  let mem := Function.update mem a (w.extractLsb' 0 8)
  let mem := Function.update mem (a + 1) (w.extractLsb' 8 8)
  let mem := Function.update mem (a + 2) (w.extractLsb' 16 8)
  Function.update mem (a + 3) (w.extractLsb' 24 8)

def memset (mem : Addr → BitVec 8) (dst : Addr) (v : BitVec 8) (n : Addr) : Addr → BitVec 8 :=
  fun a => if (a - dst).toNat < n.toNat then v else mem a

/-- Memory as user-access code meets it: contents, and the pages that are mapped. -/
structure UserMem where
  byte : Addr → BitVec 8
  mapped : BitVec 20 → Bool

/-- Every byte of the span is on a mapped page. -/
def allMapped (mapped : BitVec 20 → Bool) (a : Addr) (len : Nat) : Bool :=
  (span a len).all fun b => mapped (page b)

/-! ### Single values -/

/-- `__get_user` of a word: the error code and the value, which the fix-up code
sets to zero. -/
def getUserNocheck (m : UserMem) (ptr : Addr) : Int × BitVec 32 :=
  if allMapped m.mapped ptr 4 then (0, load32 m.byte ptr) else (-EFAULT, 0)

/-- `get_user` of a word into a variable that holds `x`. -/
def getUserCheck (m : UserMem) (seg ptr : Addr) (x : BitVec 32) : Int × BitVec 32 :=
  if accessOk .read seg ptr 4 && decide (ptr ≠ 0) then getUserNocheck m ptr else (-EFAULT, x)

/-! ### The copy machine -/

/-- Registers of the copy loops, the memory, and the user-side bytes touched. -/
structure CopyState where
  n : Addr
  dst : Addr
  src : Addr
  mem : Addr → BitVec 8
  touched : List Addr

/-- Why a piece of assembly does not reach its end: a fault that continues at the
fix-up code, a fault that does not, or a loop that has not ended. -/
inductive Stop
  | fixup
  | oops
  | spin
  deriving DecidableEq

abbrev Asm := EStateM Stop CopyState

/-- How an instruction reaches memory: on the kernel side, or on the user side
with or without an entry in `__ex_table`. -/
inductive Access
  | kernel
  | user (tabled : Bool)
  deriving DecidableEq

section

variable (mapped : BitVec 20 → Bool)

def touch (acc : Access) (a : Addr) (len : Nat) : Asm Unit := fun c =>
  match acc with
  | .kernel => .ok () c
  | .user tabled =>
    let c := { c with touched := span a len ++ c.touched }
    if allMapped mapped a len then .ok () c
    else .error (if tabled then .fixup else .oops) c

/-- `ldw w, (%2, off)` -/
def ldw (acc : Access) (off : Addr) : Asm (BitVec 32) := do
  let c ← get
  touch mapped acc (c.src + off) 4
  return load32 c.mem (c.src + off)

/-- `stw w, (%1, off)` -/
def stw (acc : Access) (off : Addr) (w : BitVec 32) : Asm Unit := do
  let c ← get
  touch mapped acc (c.dst + off) 4
  modify fun c => { c with mem := store32 c.mem (c.dst + off) w }

/-- `ldb b, (%2, off)` -/
def ldb (acc : Access) (off : Addr) : Asm (BitVec 8) := do
  let c ← get
  touch mapped acc (c.src + off) 1
  return c.mem (c.src + off)

/-- `stb b, (%1, off)` -/
def stb (acc : Access) (off : Addr) (b : BitVec 8) : Asm Unit := do
  let c ← get
  touch mapped acc (c.dst + off) 1
  modify fun c => { c with mem := Function.update c.mem (c.dst + off) b }

/-- `addi %2, k; addi %1, k; subi %0, k` -/
def advance (k : Addr) : Asm Unit :=
  modify fun c => { c with src := c.src + k, dst := c.dst + k, n := c.n - k }

/-- A loop that leaves when `stop` holds of the bytes left. -/
def loop (stop : Addr → Bool) (body : Asm Unit) : Nat → Asm Unit
  | 0 => throw .spin
  | fuel + 1 => do
    let c ← get
    if stop c.n then pure ()
    else do
      body
      loop stop body fuel

/-- The frame that `__copy_user` and `__copy_user_zeroing` share: four words at a
time, then one, then bytes, if both pointers are aligned; else bytes only.
`cmplti` compares signed. -/
def copyFrame (body4W body1W body1B : Asm Unit) : Asm Unit := do
  let c ← get
  if c.dst = 0 then pure ()
  else do
    (if (c.dst ||| c.src) &&& 3 = 0 then do
      loop (fun n => n.slt 16) body4W (c.n.toNat + 1)
      loop (fun n => n.slt 4) body1W (c.n.toNat + 1)
    else pure ())
    loop (fun n => n == 0) body1B (c.n.toNat + 1)

def copyUser4W : Asm Unit := do
  let w0 ← ldw mapped .kernel 0
  let w1 ← ldw mapped .kernel 4
  let w2 ← ldw mapped .kernel 8
  let w3 ← ldw mapped .kernel 12
  stw mapped (.user true) 0 w0
  stw mapped (.user false) 4 w1
  stw mapped (.user false) 8 w2
  stw mapped (.user false) 12 w3
  advance 16

def copyUser1W : Asm Unit := do
  let w0 ← ldw mapped .kernel 0
  stw mapped (.user true) 0 w0
  advance 4

def copyUser1B : Asm Unit := do
  let b ← ldb mapped .kernel 0
  stb mapped (.user true) 0 b
  advance 1

/-- `__copy_user`, whose fix-up code does nothing. -/
def copyUser : Asm Unit :=
  copyFrame (copyUser4W mapped) (copyUser1W mapped) (copyUser1B mapped)

def copyUserZeroing4W : Asm Unit := do
  let w0 ← ldw mapped (.user true) 0
  let w1 ← ldw mapped (.user false) 4
  stw mapped .kernel 0 w0
  stw mapped .kernel 4 w1
  let w0 ← ldw mapped (.user false) 8
  let w1 ← ldw mapped (.user false) 12
  stw mapped .kernel 8 w0
  stw mapped .kernel 12 w1
  advance 16

def copyUserZeroing1W : Asm Unit := do
  let w0 ← ldw mapped (.user true) 0
  stw mapped .kernel 0 w0
  advance 4

def copyUserZeroing1B : Asm Unit := do
  let b ← ldb mapped (.user true) 0
  stb mapped .kernel 0 b
  advance 1

/-- `__copy_user_zeroing` up to its fix-up code. -/
def copyUserZeroing : Asm Unit :=
  copyFrame (copyUserZeroing4W mapped) (copyUserZeroing1W mapped) (copyUserZeroing1B mapped)

/-- The fix-up code of `__copy_user_zeroing`, with `%3` as `left`: at least one
byte is set to zero. -/
def zeroTail : Nat → Addr → Asm Unit
  | 0, _ => throw .spin
  | fuel + 1, left => do
    stb mapped .kernel 0 0
    modify fun c => { c with dst := c.dst + 1 }
    if left - 1 = 0 then pure () else zeroTail fuel (left - 1)

/-- `__do_clear_user`, whose fix-up code does nothing. -/
def doClearUser : Asm Unit := do
  let c ← get
  if c.dst = 0 then pure ()
  else
    loop (fun n => n == 0)
      (do
        stb mapped (.user true) 0 0
        modify fun c => { c with n := c.n - 1, dst := c.dst + 1 })
      (c.n.toNat + 1)

end

/-! ### The copy functions -/

/-- How a copy function ends: with the bytes not copied, or not at all. -/
abbrev CopyResult := EStateM.Result Stop CopyState Addr

/-- Leaving the assembly: `%0` holds the bytes not copied, also after a fix-up that
does nothing else. -/
def bytesLeft : EStateM.Result Stop CopyState Unit → CopyResult
  | .ok _ c => .ok c.n c
  | .error .fixup c => .ok c.n c
  | .error e c => .error e c

/-- `__copy_user_zeroing` with its fix-up code. -/
def copyUserZeroingFixup (mapped : BitVec 20 → Bool) (c : CopyState) :
    EStateM.Result Stop CopyState Unit :=
  match copyUserZeroing mapped c with
  | .error .fixup c => zeroTail mapped (2 ^ 32) c.n c
  | r => r

/-- `copy_from_user`, that is `__generic_copy_from_user`. -/
def copyFromUser (seg : Addr) (m : UserMem) (dst src n : Addr) : CopyResult :=
  let c : CopyState := { n, dst, src, mem := m.byte, touched := [] }
  if accessOk .read seg src n then bytesLeft (copyUserZeroingFixup m.mapped c)
  else .ok n { c with mem := memset c.mem dst 0 n }

/-- `copy_to_user`, that is `__generic_copy_to_user`. -/
def copyToUser (seg : Addr) (m : UserMem) (dst src n : Addr) : CopyResult :=
  let c : CopyState := { n, dst, src, mem := m.byte, touched := [] }
  if accessOk .write seg dst n then bytesLeft (copyUser m.mapped c) else .ok n c

def clearUser (seg : Addr) (m : UserMem) (dst n : Addr) : CopyResult :=
  let c : CopyState := { n, dst, src := 0, mem := m.byte, touched := [] }
  if accessOk .write seg dst n then bytesLeft (doClearUser m.mapped c) else .ok n c

end SilanKernel.Csky
