import Mathlib.Logic.Function.Basic

/-!
# SilanKernel.Csky.MmuContext

Address-space identifiers on one csky CPU: `arch/csky/include/asm/mmu_context.h`
and the parts of `arch/csky/mm/tlbv1.c` that write the TLB.

The hardware tags TLB entries with an **8-bit ASID**. The kernel hands ASIDs out
of a 32-bit counter `asid_cache`, whose upper bits are a software **version**: a
context of an older version is stale and its mm gets a new one when it is next
switched to. When the ASIDs of a version are used up the whole TLB is flushed.

Every TLB entry carries, besides what the hardware keeps, the mm it was installed
for. `wrapped` remembers that the counter has gone past `2 ^ 32`. Neither is read
by the code.

`flush_cache_all`, the page-directory register of `TLBMISS_HANDLER_SETUP_PGD` and
the page mask are left out.
-/

namespace SilanKernel.Csky

def ASID_INC : BitVec 32 := 1
def ASID_MASK : BitVec 32 := 0xff
def ASID_VERSION_MASK : BitVec 32 := ~~~(ASID_MASK ||| (ASID_MASK - 1))
def ASID_FIRST_VERSION : BitVec 32 := ~~~ASID_VERSION_MASK + 1

def KSEG0 : BitVec 32 := 0x80000000

structure TlbEntry (MM : Type) where
  hi : BitVec 32
  lo0 : BitVec 32
  lo1 : BitVec 32
  owner : Option MM

/-- An entry maps something; one that the kernel has blasted away does not. -/
def TlbEntry.Valid {MM : Type} (e : TlbEntry MM) : Prop := e.lo0 ≠ 0 ∨ e.lo1 ≠ 0

/-- One CPU with its MMU. `inited` are the mms that have been through
`init_new_context`. -/
structure Mmu (MM : Type) where
  asidCache : BitVec 32
  context : MM → BitVec 32
  cpumask : MM → Bool
  inited : MM → Bool
  activeMm : MM
  entryhi : BitVec 32
  wired : Nat
  tlbsize : Nat
  tlb : Nat → TlbEntry MM
  wrapped : Bool

variable {MM : Type}

variable (s : Mmu MM)

def Mmu.tlbWrite (index : Nat) (e : TlbEntry MM) : Mmu MM :=
  { s with tlb := Function.update s.tlb index e }

/-- The loop of `local_flush_tlb_all`, `left` entries from the end of the TLB. -/
def flushLoop (s : Mmu MM) : Nat → Mmu MM
  | 0 => s
  | left + 1 =>
    let entry := s.tlbsize - (left + 1)
    flushLoop
      (s.tlbWrite entry
        { hi := KSEG0 + BitVec.ofNat 32 entry * 0x2000, lo0 := 0, lo1 := 0, owner := none })
      left

/-- `local_flush_tlb_all`; `entryhi` is saved and put back. -/
def localFlushTlbAll : Mmu MM := flushLoop s (s.tlbsize - s.wired)

variable [DecidableEq MM]

def Mmu.setContext (mm : MM) (asid : BitVec 32) : Mmu MM :=
  { s with context := Function.update s.context mm asid }

def getNewMmuContext (mm : MM) : Mmu MM :=
  let asid := s.asidCache + ASID_INC
  if asid &&& ASID_MASK = 0 then
    let s := localFlushTlbAll s
    let s := { s with wrapped := s.wrapped || asid == 0 }
    let asid := if asid = 0 then ASID_FIRST_VERSION else asid
    { s with asidCache := asid }.setContext mm asid
  else { s with asidCache := asid }.setContext mm asid

/-- `init_new_context`, with the `mm_init_cpumask` that its callers do first. -/
def initNewContext (mm : MM) : Mmu MM :=
  { s.setContext mm 0 with
    cpumask := Function.update s.cpumask mm false
    inited := Function.update s.inited mm true }

/-- The common end of `switch_mm` and `activate_mm`. -/
def enterMm (prev next : MM) : Mmu MM :=
  { s with
    entryhi := s.context next
    cpumask := Function.update (Function.update s.cpumask prev false) next true
    activeMm := next }

def switchMm (prev next : MM) : Mmu MM :=
  let s :=
    if (s.context next ^^^ s.asidCache) &&& ASID_VERSION_MASK ≠ 0 then getNewMmuContext s next
    else s
  enterMm s prev next

def activateMm (prev next : MM) : Mmu MM :=
  enterMm (getNewMmuContext s next) prev next

def dropMmuContext (mm : MM) : Mmu MM :=
  if s.cpumask mm then
    let s := getNewMmuContext s mm
    { s with entryhi := s.context mm &&& ASID_MASK }
  else s.setContext mm 0

/-- What the hardware decides in `__update_tlb`: the answer of `tlb_probe`, and where
`tlb_invalid_indexed` and `tlb_write_random` strike if there was no match. -/
structure TlbChoice where
  probe : Option Nat
  invalid : Nat
  random : Nat

/-- `__update_tlb` for a vma of `mm`; `lo0` and `lo1` come from its page table. -/
def updateTlb (mm : MM) (address lo0 lo1 : BitVec 32) (c : TlbChoice) : Mmu MM :=
  if s.activeMm ≠ mm then s
  else
    let pid := s.entryhi &&& ASID_MASK
    let address := address &&& ~~~0x1fff#32
    let s := { s with entryhi := address ||| pid }
    let e : TlbEntry MM := { hi := s.entryhi, lo0, lo1, owner := some mm }
    match c.probe with
    | none =>
      let old := s.tlb c.invalid
      let s := s.tlbWrite c.invalid { old with lo0 := 0, lo1 := 0 }
      s.tlbWrite c.random e
    | some idx => s.tlbWrite idx e

/-! ### Runs -/

/-- A call, with the choices of the hardware. -/
inductive MmuCall (MM : Type)
  | initNewContext (mm : MM)
  | switchMm (next : MM)
  | activateMm (next : MM)
  | dropMmuContext (mm : MM)
  | updateTlb (mm : MM) (address lo0 lo1 : BitVec 32) (c : TlbChoice)

/-- One call, as the callers make them: a context is set up once for an mm that is
new; `switch_mm` and `activate_mm` get `active_mm` as `prev` and an mm that has a
context (or `init_mm`); a vma belongs to an mm that has been set up, `init_mm`
having none. The hardware chooses indices within the TLB. -/
def mmuStep (initMm : MM) (s : Mmu MM) : MmuCall MM → Option (Mmu MM)
  | .initNewContext mm =>
    if s.inited mm ∨ mm = initMm then none else some (initNewContext s mm)
  | .switchMm next =>
    if s.inited next ∨ next = initMm then some (switchMm s s.activeMm next) else none
  | .activateMm next =>
    if s.inited next ∨ next = initMm then some (activateMm s s.activeMm next) else none
  | .dropMmuContext mm =>
    if s.inited mm ∨ mm = initMm then some (dropMmuContext s mm) else none
  | .updateTlb mm address lo0 lo1 c =>
    if s.inited mm ∧ (∀ i ∈ c.probe, i < s.tlbsize) ∧ c.invalid < s.tlbsize ∧
        c.random < s.tlbsize then
      some (updateTlb s mm address lo0 lo1 c)
    else none

/-- The CPU after boot: no ASID handed out, nothing in the TLB, `init_mm` active and
the register `entryhi` with whatever it came up with. -/
def bootMmu (initMm : MM) (tlbsize : Nat) (entryhi : BitVec 32) (hi : Nat → BitVec 32) : Mmu MM :=
  { asidCache := ASID_FIRST_VERSION
    context := fun _ => 0
    cpumask := fun _ => false
    inited := fun _ => false
    activeMm := initMm
    entryhi
    wired := 0
    tlbsize
    tlb := fun i => { hi := hi i, lo0 := 0, lo1 := 0, owner := none }
    wrapped := false }

end SilanKernel.Csky
