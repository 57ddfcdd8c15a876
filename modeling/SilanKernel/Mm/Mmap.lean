import SilanKernel.Lib.Rbtree

/-!
# SilanKernel.Mm.Mmap

A model of the parts of `mm/mmap.c` that keep an address space: **the VMA list, the VMA tree
and their counters**.

A `vm_area_struct` is named by its address. Its fields are kept in one function per field
(or group of fields) from addresses: `area` holds the fields that say what is mapped,
`vmNext` and `vmPrev` the links, `anonVma` and `anonChain` the state of the reverse map. An
address at which no object is live has no `area`; reading or writing a field of such an
object is a fault. So is a null pointer that is followed, a `BUG_ON` that fires and a loop
that does not come to an end: all are `none`.

The searches, linking and unlinking, `vma_adjust` and `vma_merge` are modelled; the system
calls that use them are not. The one thing they ask of the rest of the kernel is whether
`anon_vma_clone` finds memory, and `clones` has the answers. Page tables, the prio trees of
files, memory policies, huge pages, the sums of pages that are mapped, locked or committed
and the search hints for free areas are not part of the model.
-/

namespace SilanKernel.Mmap

open Rbtree

/-! ### Constants -/

abbrev Flags := BitVec 32

def VM_READ : Flags := 0x1
def VM_WRITE : Flags := 0x2
def VM_PFNMAP : Flags := 0x400
def VM_IO : Flags := 0x4000
def VM_DONTEXPAND : Flags := 0x40000
def VM_RESERVED : Flags := 0x80000
def VM_CAN_NONLINEAR : Flags := 0x8000000

def VM_SPECIAL : Flags := VM_PFNMAP ||| VM_IO ||| VM_DONTEXPAND ||| VM_RESERVED

def TASK_SIZE : Nat := 0x7fff8000

def ENOMEM : Int := 12
def EINVAL : Int := 22

/-- `PAGE_SIZE`; `PAGE_SHIFT` is 12. -/
def PAGE_SIZE : Nat := 4096

/-- The number of pages between two addresses, as a `pgoff_t`. -/
def pgoffOf (bytes : Nat) : BitVec 32 := BitVec.ofNat 32 (bytes / PAGE_SIZE)

/-! ### The state -/

abbrev Ptr := Nat

/-- What a VMA maps. -/
structure Area where
  vmStart : Nat
  vmEnd : Nat
  vmPgoff : BitVec 32
  vmFlags : Flags
  vmFile : Option Nat
  /-- `vm_ops` has a `close` method. -/
  vmClose : Bool
  deriving DecidableEq, Repr

/-- An `mm_struct` and the VMAs that exist. -/
structure Mm where
  area : Ptr → Option Area
  vmNext : Ptr → Option Ptr
  vmPrev : Ptr → Option Ptr
  anonVma : Ptr → Option Nat
  anonChain : Ptr → List Nat
  mmap : Option Ptr
  mmRb : Rbtree.Tree Ptr
  mmapCache : Option Ptr
  mapCount : Int
  /-- The results of `anon_vma_clone` where it has to allocate, first ones first. -/
  clones : List Int

/-- An `mm_struct` without VMAs. -/
def Mm.empty : Mm where
  area _ := none
  vmNext _ := none
  vmPrev _ := none
  anonVma _ := none
  anonChain _ := []
  mmap := none
  mmRb := .leaf
  mmapCache := none
  mapCount := 0
  clones := []

namespace Mm

variable (mm : Mm)

def setArea (p : Ptr) (a : Area) : Mm :=
  { mm with area := Function.update mm.area p (some a) }

/-- `kmem_cache_free` -/
def free (p : Ptr) : Mm :=
  { mm with area := Function.update mm.area p none }

/-- `p->vm_next` -/
def next (p : Ptr) : Option (Option Ptr) := (mm.area p).map fun _ => mm.vmNext p

/-- `p->vm_next = q` -/
def setNext (p : Ptr) (q : Option Ptr) : Option Mm :=
  (mm.area p).map fun _ => { mm with vmNext := Function.update mm.vmNext p q }

/-- `p->vm_prev = q` -/
def setPrev (p : Ptr) (q : Option Ptr) : Option Mm :=
  (mm.area p).map fun _ => { mm with vmPrev := Function.update mm.vmPrev p q }

/-- `if (p) p->vm_prev = q` -/
def setPrev? (p q : Option Ptr) : Option Mm :=
  match p with
  | none => some mm
  | some p => mm.setPrev p q

/-- `p ? p->vm_next : mm->mmap` -/
def nextOrFirst (p : Option Ptr) : Option (Option Ptr) :=
  match p with
  | none => some mm.mmap
  | some p => mm.next p

end Mm

/-! ### The reverse map of anonymous pages -/

variable (mm : Mm)

/-- `anon_vma_clone`. It allocates an entry for each entry of the source's chain, and on
failure drops those of the target's chain. -/
def anonVmaClone (dst src : Ptr) : Mm × Int :=
  if mm.anonChain src = [] then
    (mm, 0)
  else if mm.clones.headD 0 = 0 then
    ({ mm with
       anonChain := Function.update mm.anonChain dst (mm.anonChain src ++ mm.anonChain dst)
       clones := mm.clones.tail }, 0)
  else
    ({ mm with
       anonChain := Function.update mm.anonChain dst []
       clones := mm.clones.tail }, -ENOMEM)

/-- The part of `vma_adjust` that gives the expanding VMA an `anon_vma` if the shrinking
one has one. -/
def importAnonVma (importer exporter : Ptr) : Mm × Int :=
  if (mm.anonVma exporter).isSome && (mm.anonVma importer).isNone then
    let (mm, err) := anonVmaClone mm importer exporter
    if err ≠ 0 then (mm, -ENOMEM)
    else ({ mm with anonVma := Function.update mm.anonVma importer (mm.anonVma exporter) }, 0)
  else
    (mm, 0)

/-! ### Looking up VMAs -/

def findVmaLoop (mm : Mm) (addr : Nat) : Rbtree.Tree Ptr → Option Ptr → Option (Option Ptr)
  | .leaf, vma => some vma
  | .node _ l tmp r, vma => do
    let a ← mm.area tmp
    if a.vmEnd > addr then
      if a.vmStart ≤ addr then some (some tmp) else findVmaLoop mm addr l (some tmp)
    else
      findVmaLoop mm addr r vma

/-- The search of `find_vma` after the cache has missed. -/
def findVmaTree (addr : Nat) : Option (Mm × Option Ptr) := do
  let vma ← findVmaLoop mm addr mm.mmRb none
  match vma with
  | some p => some ({ mm with mmapCache := some p }, some p)
  | none => some (mm, none)

/-- `find_vma`: the first VMA that ends above `addr`. -/
def findVma (addr : Nat) : Option (Mm × Option Ptr) :=
  match mm.mmapCache with
  | none => findVmaTree mm addr
  | some p => do
    let a ← mm.area p
    if a.vmEnd > addr ∧ a.vmStart ≤ addr then some (mm, some p) else findVmaTree mm addr

def findVmaPrevLoop (mm : Mm) (addr : Nat) : Rbtree.Tree Ptr → Option Ptr → Option (Option Ptr)
  | .leaf, prev => some prev
  | .node _ l tmp r, prev => do
    let a ← mm.area tmp
    if addr < a.vmEnd then
      findVmaPrevLoop mm addr l prev
    else
      match mm.vmNext tmp with
      | none => some (some tmp)
      | some next => do
        let b ← mm.area next
        if addr < b.vmEnd then some (some tmp) else findVmaPrevLoop mm addr r (some tmp)

/-- `find_vma_prev`: the same VMA, and the one before it. -/
def findVmaPrev (addr : Nat) : Option (Option Ptr × Option Ptr) := do
  let prev ← findVmaPrevLoop mm addr mm.mmRb none
  let vma ← mm.nextOrFirst prev
  some (vma, prev)

def findVmaPrepareLoop (mm : Mm) (addr : Nat) :
    Rbtree.Tree Ptr → Path Ptr → Option Ptr → Option Ptr →
      Option (Option Ptr × Option Ptr × Path Ptr)
  | .leaf, path, vma, prev => some (vma, prev, path)
  | .node c l tmp r, path, vma, prev => do
    let a ← mm.area tmp
    if a.vmEnd > addr then
      if a.vmStart ≤ addr then
        some (some tmp, prev, path)
      else
        findVmaPrepareLoop mm addr l
          ({ dir := .left, color := c, entry := tmp, other := r } :: path) (some tmp) prev
    else
      findVmaPrepareLoop mm addr r
        ({ dir := .right, color := c, entry := tmp, other := l } :: path) vma (some tmp)

/-- `find_vma_prepare`: the VMA, the one before it in the list, and the place in the tree
where `rb_link` points; `rb_parent` is the entry of the place's first frame. -/
def findVmaPrepare (addr : Nat) : Option (Option Ptr × Option Ptr × Path Ptr) :=
  findVmaPrepareLoop mm addr mm.mmRb [] none none

/-! ### Linking and unlinking -/

/-- `__vma_link_list`. Without a VMA before it, the new one goes before `rb_parent`. -/
def vmaLinkList (vma : Ptr) (prev : Option Ptr) (path : Path Ptr) : Option Mm := do
  let mm ← mm.setPrev vma prev
  match prev with
  | some p => do
    let next ← mm.next p
    let mm ← mm.setNext p (some vma)
    let mm ← mm.setNext vma next
    mm.setPrev? next (some vma)
  | none => do
    let next := path.head?.map Frame.entry
    let mm ← { mm with mmap := some vma }.setNext vma next
    mm.setPrev? next (some vma)

/-- `__vma_link_rb`. The place is still one of the tree, and free. -/
def vmaLinkRb (vma : Ptr) (path : Path Ptr) : Option Mm := do
  guard (plug path .leaf = mm.mmRb)
  let mmRb ← rbInsert vma path
  some { mm with mmRb := mmRb }

/-- `vma_link` -/
def vmaLink (vma : Ptr) (prev : Option Ptr) (path : Path Ptr) : Option Mm := do
  let mm ← vmaLinkList mm vma prev path
  let mm ← vmaLinkRb mm vma path
  some { mm with mapCount := mm.mapCount + 1 }

/-- `__insert_vm_struct` -/
def insertVmStruct (vma : Ptr) : Option Mm := do
  let a ← mm.area vma
  let (found, prev, path) ← findVmaPrepare mm a.vmStart
  match found with
  | none => vmaLink mm vma prev path
  | some q => do
    let b ← mm.area q
    -- BUG_ON(__vma && __vma->vm_start < vma->vm_end)
    guard (¬ b.vmStart < a.vmEnd)
    vmaLink mm vma prev path

/-- `__vma_unlink` -/
def vmaUnlink (vma prev : Ptr) : Option Mm := do
  let next ← mm.next vma
  let mm ← mm.setNext prev next
  let mm ← mm.setPrev? next (some prev)
  let mmRb ← rbErase vma mm.mmRb
  some { mm with
    mmRb := mmRb
    mmapCache := if mm.mmapCache = some vma then some prev else mm.mmapCache }

/-! ### Adjusting, merging and splitting -/

def setExtent (vma : Ptr) (vmStart vmEnd : Nat) (vmPgoff : BitVec 32) : Option Mm := do
  let a ← mm.area vma
  some (mm.setArea vma { a with vmStart := vmStart, vmEnd := vmEnd, vmPgoff := vmPgoff })

/-- The passes of `vma_adjust` from the label `again`: `vma` grows over all of `next`, and
where `end` is beyond that over the VMA after it too. The number bounds the passes; a third
one is not possible in a sorted list. -/
def vmaAdjustRemove : Nat → Mm → Ptr → Nat → Nat → BitVec 32 → Ptr → Option (Mm × Int)
  | 0, _, _, _, _, _, _ => none
  | n + 1, mm, vma, vmStart, vmEnd, pgoff, next => do
    let b ← mm.area next
    let (mm, err) := importAnonVma mm vma next
    if err ≠ 0 then
      some (mm, err)
    else
      let mm ← setExtent mm vma vmStart b.vmEnd pgoff
      let mm ← vmaUnlink mm next vma
      let mm := { mm with mapCount := mm.mapCount - 1 }.free next
      if vmEnd > b.vmEnd then
        match ← mm.next vma with
        | none => none
        | some next => vmaAdjustRemove n mm vma vmStart b.vmEnd pgoff next
      else
        some (mm, 0)

/-- `vma_adjust` where the boundary between `vma` and `next` moves by `adjust_next` pages,
up or down. -/
def vmaAdjustShift (vma : Ptr) (vmStart vmEnd : Nat) (pgoff : BitVec 32) (next : Ptr)
    (importer exporter : Ptr) (nextStart : Nat) (adjustNext : BitVec 32) : Option (Mm × Int) := do
  let (mm, err) := importAnonVma mm importer exporter
  if err ≠ 0 then
    some (mm, err)
  else
    let mm ← setExtent mm vma vmStart vmEnd pgoff
    let b ← mm.area next
    let mm ← setExtent mm next nextStart b.vmEnd (b.vmPgoff + adjustNext)
    some (mm, 0)

/-- `vma_adjust` -/
def vmaAdjust (vma : Ptr) (vmStart vmEnd : Nat) (pgoff : BitVec 32)
    (insert : Option Ptr) : Option (Mm × Int) := do
  let a ← mm.area vma
  match insert, mm.vmNext vma with
  | some new, _ => do
    let mm ← setExtent mm vma vmStart vmEnd pgoff
    let mm ← insertVmStruct mm new
    some (mm, 0)
  | none, none => do
    let mm ← setExtent mm vma vmStart vmEnd pgoff
    some (mm, 0)
  | none, some next => do
    let b ← mm.area next
    if vmEnd ≥ b.vmEnd then
      vmaAdjustRemove 2 mm vma vmStart vmEnd pgoff next
    else if vmEnd > b.vmStart then
      -- mprotect case 5 shifting the boundary up
      vmaAdjustShift mm vma vmStart vmEnd pgoff next vma next
        (b.vmStart + (vmEnd - b.vmStart) / PAGE_SIZE * PAGE_SIZE) (pgoffOf (vmEnd - b.vmStart))
    else if vmEnd < a.vmEnd then
      -- mprotect case 4 shifting the boundary down
      vmaAdjustShift mm vma vmStart vmEnd pgoff next next vma
        (b.vmStart - (a.vmEnd - vmEnd) / PAGE_SIZE * PAGE_SIZE) (-pgoffOf (a.vmEnd - vmEnd))
    else do
      let mm ← setExtent mm vma vmStart vmEnd pgoff
      some (mm, 0)

/-- `is_mergeable_vma` -/
def isMergeableVma (a : Area) (file : Option Nat) (vmFlags : Flags) : Bool :=
  (a.vmFlags ^^^ vmFlags) &&& ~~~VM_CAN_NONLINEAR == 0 && a.vmFile == file && !a.vmClose

/-- `is_mergeable_anon_vma`; without a VMA there is no chain to look at. -/
def isMergeableAnonVma (anonVma1 anonVma2 : Option Nat) (chain : Option (List Nat)) : Bool :=
  ((anonVma1.isNone || anonVma2.isNone) &&
    match chain with
    | none => true
    | some chain => chain.length == 1) || anonVma1 == anonVma2

/-- `can_vma_merge_before` -/
def canVmaMergeBefore (vma : Ptr) (a : Area) (vmFlags : Flags) (anonVma : Option Nat)
    (file : Option Nat) (pgoff : BitVec 32) : Bool :=
  isMergeableVma a file vmFlags &&
    isMergeableAnonVma anonVma (mm.anonVma vma) (some (mm.anonChain vma)) && a.vmPgoff == pgoff

/-- `can_vma_merge_after` -/
def canVmaMergeAfter (vma : Ptr) (a : Area) (vmFlags : Flags) (anonVma : Option Nat)
    (file : Option Nat) (pgoff : BitVec 32) : Bool :=
  isMergeableVma a file vmFlags &&
    isMergeableAnonVma anonVma (mm.anonVma vma) (some (mm.anonChain vma)) &&
    a.vmPgoff + pgoffOf (a.vmEnd - a.vmStart) == pgoff

/-- A VMA that may be null, with its fields. -/
def derefOpt (p : Option Ptr) : Option (Option (Ptr × Area)) :=
  match p with
  | none => some none
  | some p => (mm.area p).map fun a => some (p, a)

/-- The VMA after the area, which is the one after `area` where that ends at `end`
(cases 6, 7, 8 of mprotect). -/
def mergeNext (area : Option (Ptr × Area)) (vmEnd : Nat) :
    Option (Option (Ptr × Area)) :=
  match area with
  | none => some none
  | some (p, a) => if a.vmEnd = vmEnd then derefOpt mm (mm.vmNext p) else some (some (p, a))

/-- `vma_merge`. The result is the VMA that covers the area afterwards, if there is one. -/
def vmaMerge (prev : Option Ptr) (addr vmEnd : Nat) (vmFlags : Flags)
    (anonVma file : Option Nat) (pgoff : BitVec 32) : Option (Mm × Option Ptr) :=
  if vmFlags &&& VM_SPECIAL ≠ 0 then
    some (mm, none)
  else do
    let area ← derefOpt mm (← mm.nextOrFirst prev)
    let next ← mergeNext mm area vmEnd
    let prev ← derefOpt mm prev
    let mergesBefore := next.filter fun (q, b) => vmEnd == b.vmStart &&
      canVmaMergeBefore mm q b vmFlags anonVma file (pgoff + pgoffOf (vmEnd - addr))
    let mergesAfter := prev.filter fun (p, a) => a.vmEnd == addr &&
      canVmaMergeAfter mm p a vmFlags anonVma file pgoff
    match mergesAfter, mergesBefore with
    | some (p, a), some (q, b) => do
      let upTo := if isMergeableAnonVma (mm.anonVma p) (mm.anonVma q) none then b.vmEnd else vmEnd
      let (mm, err) ← vmaAdjust mm p a.vmStart upTo a.vmPgoff none
      some (mm, if err ≠ 0 then none else some p)
    | some (p, a), none => do
      let (mm, err) ← vmaAdjust mm p a.vmStart vmEnd a.vmPgoff none
      some (mm, if err ≠ 0 then none else some p)
    | none, some (_, b) => do
      let (area, _) ← area
      let (mm, err) ←
        match prev with
        | some (p, a) =>
          if addr < a.vmEnd then vmaAdjust mm p a.vmStart addr a.vmPgoff none
          else vmaAdjust mm area addr b.vmEnd (b.vmPgoff - pgoffOf (vmEnd - addr)) none
        | none => vmaAdjust mm area addr b.vmEnd (b.vmPgoff - pgoffOf (vmEnd - addr)) none
      some (mm, if err ≠ 0 then none else some area)
    | none, none => some (mm, none)

end SilanKernel.Mmap
