import SilanKernel.Data.Run
import SilanKernel.Data.Mask
import SilanKernel.Data.Sweep

/-!
# SilanKernel.Csky.CacheFlush

A model of the **line flushes** of `arch/csky/mm/cachev1.c`, which push lines out of a
two-way cache by touching an array of the cache's size.

* The array `__flush_retention` is as large as the cache and aligned to that size, so its
  first half maps to one way and its second half to the other. `Geometry` has the sizes and
  the place of the array.
* `__flush_dcache_range` loads one byte every 16 bytes; the model returns the addresses it
  loads from.
* `__flush_icache_range` executes the array. The lines of the first half hold `jmp r2`,
  those of the second half `jmp r15`, so that one `jsr` runs through a line of either way and
  comes back. The model returns the addresses that are executed, or says where control went
  when it did not stay on these instructions.

The assembler loops change a register that is only an input for the compiler; the model takes
the loops as they are written and gives every loop its operands afresh, as the C text does.
-/

namespace SilanKernel.Csky.CacheFlush

open Function

abbrev Addr := BitVec 32

def JMP_R2 : BitVec 8 := 0xc2

def JMP_R15 : BitVec 8 := 0xcf

def INS_CACHE : BitVec 32 := 0x1
def DATA_CACHE : BitVec 32 := 0x2
def CACHE_INV : BitVec 32 := 0x10
def CACHE_CLR : BitVec 32 := 0x20

/-- A two-way cache with lines of 16 bytes, and where the retention array lies. The array is
an object of the kernel, so the address after its end does not wrap. -/
structure Geometry where
  /-- The way size is this power of two. -/
  wayShift : Nat
  line_le_way : 4 ≤ wayShift
  /-- `RES_START` -/
  resStart : Addr
  aligned : 2 ^ (wayShift + 1) ∣ resStart.toNat
  fits : resStart.toNat + 2 ^ (wayShift + 1) < 2 ^ 32

/-- What a flush does to the cache. -/
inductive Flush
  /-- It writes an operation for the whole cache to `cr17`. -/
  | whole (cr17 : BitVec 32)
  /-- It loads from these addresses, or executes them. -/
  | lines (touched : List Addr)
  deriving DecidableEq, Repr

/-- How the execution of the retention array can go wrong. -/
inductive Leave
  /-- A jump to an address that is not in the array. -/
  | outside (target : Addr)
  /-- A jump into the array, but not to one of its two instructions. -/
  | unknown (target : Addr)
  /-- A loop that does not end. -/
  | endless
  deriving DecidableEq, Repr

namespace Geometry

variable (g : Geometry)

def cacheSize : Addr := BitVec.ofNat 32 (2 ^ (g.wayShift + 1))

def waySize : Addr := g.cacheSize / 2

def waySizeMask : Addr := g.waySize - 1

/-- `L1_CACHE_BYTES - 1` -/
def lineLenMask : Addr := 16 - 1

def addrMask : Addr := g.waySizeMask &&& ~~~lineLenMask

/-! ### The data cache -/

/-- `ldw_range`. A loop that has not come to an end after as many turns as there are cursors
never does. -/
def ldwRange : Nat → Addr → Addr → Option (List Addr)
  | 0, _, _ => none
  | fuel + 1, start, stop =>
    if stop ≤ start + 16 then
      some [start]
    else do
      let rest ← ldwRange fuel (start + 16) stop
      some (start :: rest)

def loopBound : Nat := 2 ^ 28

/-- `__flush_dcache_range` -/
def flushDcacheRange (start stop : Addr) : Option Flush :=
  let len := stop - start
  if len < g.waySize then do
    let startaddr := (start &&& g.waySizeMask) ||| g.resStart
    let endaddr := ((stop &&& g.waySizeMask) ||| g.resStart) + 16
    if startaddr > endaddr then do
      let first ← ldwRange loopBound g.resStart endaddr
      let second ← ldwRange loopBound startaddr (endaddr + g.waySize)
      let third ← ldwRange loopBound (startaddr + g.waySize) (g.resStart + g.cacheSize)
      some (.lines (first ++ second ++ third))
    else do
      let first ← ldwRange loopBound startaddr endaddr
      let second ← ldwRange loopBound (startaddr + g.waySize) (endaddr + g.waySize)
      some (.lines (first ++ second))
  else
    some (.whole 0x32)

/-! ### The instruction cache -/

/-- Half the number of lines of the array, `hindex`. -/
def hindex : Nat := (g.cacheSize / 16 / 2).toNat

/-- The loop of `__cache_fluch_init`, after some turns, on the first byte of each line. -/
def fluchInitLoop (first : Nat → BitVec 8) : Nat → Nat → BitVec 8
  | 0 => first
  | i + 1 =>
    Function.update (Function.update (fluchInitLoop first i) i JMP_R2) (i + g.hindex) JMP_R15

/-- `__cache_fluch_init` -/
def cacheFluchInit (first : Nat → BitVec 8) : Nat → BitVec 8 := g.fluchInitLoop first g.hindex

theorem fluchInitLoop_lines (first : Nat → BitVec 8) (hn : n ≤ g.hindex) :
    ∀ i < n, g.fluchInitLoop first n i = JMP_R2 ∧
      g.fluchInitLoop first n (i + g.hindex) = JMP_R15 := by
  induction n with
  | zero => exact fun i hi => absurd hi (Nat.not_lt_zero i)
  | succ n ih =>
    intro i hi
    rw [fluchInitLoop]
    rcases Nat.lt_succ_iff_lt_or_eq.mp hi with hlt | rfl
    · obtain ⟨hlow, hhigh⟩ := ih (by omega) i hlt
      rw [update_of_ne (by omega), update_of_ne (by omega), update_of_ne (by omega),
        update_of_ne (by omega)]
      exact ⟨hlow, hhigh⟩
    · rw [update_of_ne (by omega), update_self, update_self]
      exact ⟨rfl, rfl⟩

/-- The first byte of every line of the array, and `array_have_init`. The other bytes stay
zero, which makes the byte the low half of a 16-bit instruction. -/
structure Retention where
  haveInit : Bool
  first : Nat → BitVec 8
  inited : haveInit = true → ∀ i < g.hindex, first i = JMP_R2 ∧ first (i + g.hindex) = JMP_R15

/-- The array at boot. -/
def Retention.boot : g.Retention where
  haveInit := false
  first _ := 0
  inited h := nomatch h

/-- An instruction of the array. -/
inductive Insn
  | jmpR2
  | jmpR15
  deriving DecidableEq, Repr

namespace Retention

variable {g} (s : g.Retention)

/-- The first statement of `__flush_icache_range`. -/
def ready : g.Retention :=
  if s.haveInit then s
  else
    { haveInit := true
      first := g.cacheFluchInit s.first
      inited := fun _ => g.fluchInitLoop_lines s.first (Nat.le_refl _) }

/-- The instruction at an address. -/
def fetch (pc : Addr) : Except Leave Insn :=
  if pc < g.resStart ∨ g.resStart + g.cacheSize ≤ pc then
    throw (.outside pc)
  else if (pc - g.resStart) &&& lineLenMask ≠ 0 then
    throw (.unknown pc)
  else
    let byte := s.first ((pc - g.resStart) / 16).toNat
    if byte = JMP_R2 then pure .jmpR2
    else if byte = JMP_R15 then pure .jmpR15
    else throw (.unknown pc)

/-- `jsr` to `pc`: the addresses that are executed until control is back. -/
def jsr (r2 pc : Addr) : Except Leave (List Addr) := do
  match ← s.fetch pc with
  | .jmpR15 => pure [pc]
  | .jmpR2 =>
    match ← s.fetch r2 with
    | .jmpR15 => pure [pc, r2]
    | .jmpR2 => throw .endless

/-- `jsr_range`. The assembler text works on its own copy of `r2`. -/
def jsrRange : Nat → Addr → Addr → Addr → Except Leave (List Addr)
  | 0, _, _, _ => throw .endless
  | fuel + 1, r2, start, stop => do
    let executed ← s.jsr r2 start
    if stop ≤ start + 16 then
      pure executed
    else do
      let rest ← jsrRange fuel (r2 + 16) (start + 16) stop
      pure (executed ++ rest)

/-- `__flush_icache_range` -/
def flushIcacheRange (start stop : Addr) : Except Leave (g.Retention × Flush) :=
  let s := s.ready
  let len := stop - start
  if len < g.waySize then do
    let startaddr := (start &&& g.addrMask) ||| g.resStart
    let needend := (stop + lineLenMask) &&& ~~~lineLenMask
    let endaddr := (needend &&& g.addrMask) ||| g.resStart
    let r2 := startaddr + g.waySize
    if startaddr > endaddr then do
      let first ← s.jsrRange loopBound r2 g.resStart endaddr
      let second ← s.jsrRange loopBound r2 startaddr (g.resStart + g.waySize)
      pure (s, .lines (first ++ second))
    else do
      let executed ← s.jsrRange loopBound r2 startaddr endaddr
      pure (s, .lines executed)
  else
    pure (s, .whole 0x11)

end Retention

end Geometry

end SilanKernel.Csky.CacheFlush
