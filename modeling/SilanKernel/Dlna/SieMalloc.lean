import SilanKernel.Data.DList

/-!
# SilanKernel.Dlna.SieMalloc

The physical-memory heap of the DLNA driver, `arch/csky/silan_dlna/sie_malloc.c`.

The heap manages one region through `TOTAL_RAM_FRAG` **fragment descriptors**,
each of which sits on one of three doubly linked lists: the pool of unused
descriptors (`mem_frag_free`), the free fragments sorted by size, and the
fragments in use. `sie_malloc` cuts a piece off the first free fragment that is
large enough; `sie_free` puts a piece back and joins it with its neighbours.

Descriptor pointers are indices into `mem_frag_pool`, `none` being the null
pointer. Addresses and sizes are 32-bit words and all arithmetic on them wraps.
The list walks carry a fuel of one more than the number of descriptors; a walk
that outlives it returns `none`, which stands for a loop that does not end.

`printk` output, `RESTRICT_IN`/`RESTRICT_OUT` (both empty) and the two fields of
`sie_heap_ctrl` that nothing reads back (`ram_address`, `ram_size`) are left out.
-/

namespace SilanKernel.Dlna

def ERR_OCCUR : Int := -1
def NONE_ERR : Int := 0

def TOTAL_RAM_FRAG : Nat := 128

/-- The driver's static data. `mem_frag_pool` is kept field by field: each field
of `ram_frag_t` is a function of the descriptor's index. Then the three list
heads. -/
structure SieHeap where
  ramStart : Nat → BitVec 32
  ramSize : Nat → BitVec 32
  next : Nat → Option Nat
  pre : Nat → Option Nat
  memFragFree : Option Nat
  free : Option Nat
  used : Option Nat

/-- The two lists of `sie_heap_ctrl` whose operations differ only in the head
they update. -/
inductive Head
  | free
  | used
  deriving DecidableEq

namespace SieHeap

variable (h : SieHeap)

def head : Head → Option Nat
  | .free => h.free
  | .used => h.used

def setNext (f : Nat) (v : Option Nat) : SieHeap :=
  { h with next := Function.update h.next f v }

def setPre (f : Nat) (v : Option Nat) : SieHeap :=
  { h with pre := Function.update h.pre f v }

def setStart (f : Nat) (v : BitVec 32) : SieHeap :=
  { h with ramStart := Function.update h.ramStart f v }

def setSize (f : Nat) (v : BitVec 32) : SieHeap :=
  { h with ramSize := Function.update h.ramSize f v }

def setHead : Head → Option Nat → SieHeap
  | .free, v => { h with free := v }
  | .used, v => { h with used := v }

end SieHeap

/-! ### The descriptor pool -/

/-- The loop of `init_mem_frag_pool`: link descriptor `i` behind `tmp` and go on,
`n` descriptors being left. -/
def initMemFragPoolLoop : Nat → Nat → SieHeap → SieHeap
  | 0, _, h => h
  | n + 1, tmp, h =>
    let tmp2 := tmp + 1
    let h := h.setNext tmp (some tmp2)
    let h := h.setPre tmp2 (some tmp)
    let h := h.setNext tmp2 none
    initMemFragPoolLoop n tmp2 h

variable (h : SieHeap)

def initMemFragPool : SieHeap :=
  let h := { h with memFragFree := some 0 }
  let h := h.setPre 0 none
  initMemFragPoolLoop (TOTAL_RAM_FRAG - 1) 0 h

def allocMemFrag : Option Nat × SieHeap :=
  match h.memFragFree with
  | none => (none, h)
  | some tmp =>
    let h := { h with memFragFree := h.next tmp }
    match h.memFragFree with
    | none => (some tmp, h)
    | some f => (some tmp, h.setPre f none)

/-- `if_frag_valid`: the pointer is not null and points into the array. -/
def ifFragValid : Option Nat → Int
  | none => ERR_OCCUR
  | some f => if TOTAL_RAM_FRAG - 1 < f then ERR_OCCUR else NONE_ERR

def freeMemFrag (frag : Option Nat) : Int × SieHeap :=
  match frag with
  | none => (ERR_OCCUR, h)
  | some f =>
    if ifFragValid (some f) = ERR_OCCUR then (ERR_OCCUR, h)
    else
      let h := h.setPre f none
      let h := h.setNext f h.memFragFree
      let h :=
        match h.memFragFree with
        | none => h
        | some g => h.setPre g (some f)
      (NONE_ERR, { h with memFragFree := some f })

/-! ### The free and the used list -/

/-- The common body of `get_out_of_free_list` and `get_out_of_used_list`. -/
def getOutOfList (id : Head) (h : SieHeap) (frag : Option Nat) : Int × SieHeap :=
  match frag with
  | none => (ERR_OCCUR, h)
  | some f =>
    if ifFragValid (some f) = ERR_OCCUR then (ERR_OCCUR, h)
    else
      match h.pre f with
      | none =>
        let h := h.setHead id (h.next f)
        match h.next f with
        | none => (NONE_ERR, h)
        | some n => (NONE_ERR, h.setPre n none)
      | some p =>
        let h := h.setNext p (h.next f)
        match h.next f with
        | none => (NONE_ERR, h)
        | some n => (NONE_ERR, h.setPre n (h.pre f))

def getOutOfFreeList : SieHeap → Option Nat → Int × SieHeap := getOutOfList .free

def getOutOfUsedList : SieHeap → Option Nat → Int × SieHeap := getOutOfList .used

/-- The loop of `add_into_free_list`, at the list position `tmp`. -/
def addIntoFreeListLoop (frag : Nat) : Nat → SieHeap → Option Nat → Option (Int × SieHeap)
  | 0, _, _ => none
  | _ + 1, h, none => some (NONE_ERR, h)
  | n + 1, h, some tmp =>
    if h.ramSize frag ≤ h.ramSize tmp then
      let h := h.setPre frag (h.pre tmp)
      let h := h.setNext frag (some tmp)
      let h := h.setPre tmp (some frag)
      match h.pre frag with
      | none => some (NONE_ERR, h.setHead .free (some frag))
      | some p => some (NONE_ERR, h.setNext p (some frag))
    else if h.next tmp = none then
      let h := h.setNext tmp (some frag)
      let h := h.setPre frag (some tmp)
      let h := h.setNext frag none
      some (NONE_ERR, h)
    else addIntoFreeListLoop frag n h (h.next tmp)

def addIntoFreeList (frag : Option Nat) : Option (Int × SieHeap) :=
  match frag with
  | none => some (ERR_OCCUR, h)
  | some f =>
    if ifFragValid (some f) = ERR_OCCUR then some (ERR_OCCUR, h)
    else
      match h.free with
      | none =>
        let h := h.setNext f none
        let h := h.setPre f none
        some (NONE_ERR, h.setHead .free (some f))
      | some tmp => addIntoFreeListLoop f (TOTAL_RAM_FRAG + 1) h (some tmp)

def addIntoUsedList (frag : Option Nat) : Int × SieHeap :=
  match frag with
  | none => (ERR_OCCUR, h)
  | some f =>
    if ifFragValid (some f) = ERR_OCCUR then (ERR_OCCUR, h)
    else
      let h := h.setNext f h.used
      let h := h.setPre f none
      let h :=
        match h.used with
        | none => h
        | some g => h.setPre g (some f)
      (NONE_ERR, h.setHead .used (some f))

/-! ### Searches -/

/-- `find_fit_frag`: the first free fragment of at least `size` bytes. -/
def findFitFrag (size : BitVec 32) : Option (Option Nat) :=
  DList.walk h.next (fun tmp => decide (size ≤ h.ramSize tmp)) (TOTAL_RAM_FRAG + 1) h.free

/-- The `mode` argument of `find_frag_by_addr`. -/
inductive Mode
  | atThisAddr
  | beforeThisAddr
  deriving DecidableEq

/-- The `is_true` of `find_frag_by_addr`, at the list position `tmp`. -/
def isTrue (addr : BitVec 32) : Mode → Nat → Bool
  | .atThisAddr, tmp => h.ramStart tmp == addr
  | .beforeThisAddr, tmp => h.ramStart tmp + h.ramSize tmp == addr

def findFragByAddr (addr : BitVec 32) (head : Option Nat) (mode : Mode) :
    Option (Option Nat) :=
  if addr = 0 then some none
  else DList.walk h.next (isTrue h addr mode) (TOTAL_RAM_FRAG + 1) head

/-! ### The interface -/

/-- `ASSIGNED_FOR_1024BYTE`: round a request up to a multiple of 1024 bytes. -/
def assignedFor1024Byte (sz : BitVec 32) : BitVec 32 :=
  if sz = 0 then 1024#32 else (sz + 1023#32) &&& ~~~1023#32

/-- `init_sie_heap`: whatever the driver's data held before, set up the pool and
one free fragment for the whole region. The two `kzalloc`ed list heads are
overwritten before use. -/
def initSieHeap (addr : BitVec 32) (sz : BitVec 32) : Int × SieHeap :=
  let h := initMemFragPool h
  match allocMemFrag h with
  | (none, h) => (ERR_OCCUR, h)
  | (some tmp, h) =>
    let h := h.setStart tmp addr
    let h := h.setSize tmp sz
    let h := h.setNext tmp none
    let h := h.setPre tmp none
    let h := h.setHead .free (some tmp)
    let h := h.setHead .used none
    (NONE_ERR, h)

/-- `sie_malloc`; the null pointer is `0`. -/
def sieMalloc (sz : BitVec 32) : Option (BitVec 32 × SieHeap) := do
  let size := assignedFor1024Byte sz
  match ← findFitFrag h size with
  | none => some (0, h)
  | some tmp =>
    match allocMemFrag h with
    | (none, h) => some (0, h)
    | (some newTmp, h) =>
      let (rc, h) := getOutOfFreeList h (some tmp)
      if rc = ERR_OCCUR then some (0, h)
      else
        let h := h.setStart newTmp (h.ramStart tmp)
        let h := h.setSize newTmp size
        let (rc, h) := addIntoUsedList h (some newTmp)
        if rc = ERR_OCCUR then some (0, h)
        else
          let h := h.setStart tmp (h.ramStart tmp + size)
          let h := h.setSize tmp (h.ramSize tmp - size)
          let (rc, h) ←
            if h.ramSize tmp = 0 then some (freeMemFrag h (some tmp))
            else addIntoFreeList h (some tmp)
          if rc = ERR_OCCUR then some (0, h)
          else some (h.ramStart newTmp, h)

/-- The coalescing part of `sie_free`: join the fragment `tmp`, already off the
used list, with the free fragment `tmp1` right after it and the free fragment
`tmp2` right before it. Returns the fragment to put on the free list, or `none`
for the exit through `failed`. -/
def sieFreeJoin (tmp : Nat) (tmp1 tmp2 : Option Nat) :
    Option Nat × SieHeap :=
  match tmp1, tmp2 with
  | none, none => (some tmp, h)
  | some t1, none =>
    if ifFragValid (some t1) = ERR_OCCUR then (none, h)
    else
      let (rc, h) := getOutOfFreeList h (some t1)
      if rc = ERR_OCCUR then (none, h)
      else
        let (rc, h) := freeMemFrag h (some t1)
        if rc = ERR_OCCUR then (none, h)
        else (some tmp, h.setSize tmp (h.ramSize tmp + h.ramSize t1))
  | none, some t2 =>
    if ifFragValid (some t2) = ERR_OCCUR then (none, h)
    else
      let (rc, h) := getOutOfFreeList h (some t2)
      if rc = ERR_OCCUR then (none, h)
      else
        let (rc, h) := freeMemFrag h (some tmp)
        if rc = ERR_OCCUR then (none, h)
        else (some t2, h.setSize t2 (h.ramSize t2 + h.ramSize tmp))
  | some t1, some t2 =>
    if ifFragValid (some t1) = ERR_OCCUR ∨ ifFragValid (some t2) = ERR_OCCUR then (none, h)
    else
      let (rc, h) := getOutOfFreeList h (some t1)
      if rc = ERR_OCCUR then (none, h)
      else
        let (rc, h) := freeMemFrag h (some t1)
        if rc = ERR_OCCUR then (none, h)
        else
          let (rc, h) := getOutOfFreeList h (some t2)
          if rc = ERR_OCCUR then (none, h)
          else
            let (rc, h) := freeMemFrag h (some tmp)
            if rc = ERR_OCCUR then (none, h)
            else
              (some t2, h.setSize t2 (h.ramSize t2 + (h.ramSize tmp + h.ramSize t1)))

def sieFree (addr : BitVec 32) : Option (Int × SieHeap) := do
  match ← findFragByAddr h addr h.used .atThisAddr with
  -- A pointer that is not in use goes straight to `right_end`, where
  -- `add_into_free_list` turns the null fragment down.
  | none => addIntoFreeList h none
  | some tmp =>
    if ifFragValid (some tmp) = ERR_OCCUR then addIntoFreeList h (some tmp)
    else
      let (rc, h) := getOutOfUsedList h (some tmp)
      if rc = ERR_OCCUR then addIntoFreeList h (some tmp)
      else
        let tmp1 ← findFragByAddr h (addr + h.ramSize tmp) h.free .atThisAddr
        let tmp2 ← findFragByAddr h addr h.free .beforeThisAddr
        match sieFreeJoin h tmp tmp1 tmp2 with
        | (none, h) => some (ERR_OCCUR, h)
        | (some tmp, h) =>
          let (rc, h) ← addIntoFreeList h (some tmp)
          if rc = ERR_OCCUR then some (ERR_OCCUR, h) else some (NONE_ERR, h)

end SilanKernel.Dlna
