import Mathlib.Algebra.Order.Ring.Int
import SilanKernel.Data.Memory

/-!
# SilanKernel.Fs.Locks

A model of `__posix_lock_file` of `fs/locks.c`: **POSIX byte-range locks** on one inode.

The locks of an inode are a linked list, with the slot `i_flock` at its head; the scan over the
owner's locks changes fields of locks in the list, and `request` comes to point into it. So the
list is a list in memory here. Left out are the waiters of a lock, the copy of the conflicting
lock for the caller, and private data of a lock manager. Whether `posix_locks_deadlock` finds a
cycle is a parameter, and so are the two structures that are allocated in advance, with null for
an allocation that fails. `none` stands for a null pointer that is followed and for a loop that
has not ended after `loopBound` turns.
-/

namespace SilanKernel.Locks

open Memory

def ENOENT : Int := 2
def EAGAIN : Int := 11
def EDEADLK : Int := 35
def ENOLCK : Int := 37

/-- A positive value: the request waits. -/
def FILE_LOCK_DEFERRED : Int := 1

def OFFSET_MAX : Int := 2 ^ 63 - 1

/-- `F_RDLCK`, `F_WRLCK`, `F_UNLCK` -/
inductive LockType where
  | rdlck
  | wrlck
  | unlck
  deriving DecidableEq, Repr

/-- `struct file_lock` without its link. The last four fields are the flags `FL_POSIX`,
`FL_ACCESS`, `FL_SLEEP` and `FL_EXISTS`. -/
structure Lock where
  flOwner : Ptr
  flType : LockType
  flStart : Int
  flEnd : Int
  flPosix : Bool
  flAccess : Bool
  flSleep : Bool
  flExists : Bool
  deriving DecidableEq, Repr

structure FileLock extends Lock where
  flNext : Ptr
  deriving DecidableEq, Repr

/-- The locks in memory and `inode->i_flock`. -/
structure Inode where
  mem : Mem FileLock
  iFlock : Ptr

/-- What a `struct file_lock **` points to. -/
inductive Slot where
  | head
  | next (fl : Ptr)
  deriving DecidableEq, Repr

namespace Inode

variable (n : Inode)

def read : Slot → Option Ptr
  | .head => some n.iFlock
  | .next p => (load n.mem p).map FileLock.flNext

def write (slot : Slot) (v : Ptr) : Option Inode :=
  match slot with
  | .head => some { n with iFlock := v }
  | .next p => (modify n.mem p fun f => { f with flNext := v }).map fun mem => { n with mem := mem }

/-- An assignment to fields of the lock at `p`. -/
def update (p : Ptr) (f : FileLock → FileLock) : Option Inode :=
  (modify n.mem p f).map fun mem => { n with mem := mem }

end Inode

/-! ### Conflicts -/

/-- `locks_overlap` -/
def locksOverlap (fl1 fl2 : Lock) : Bool := fl1.flEnd ≥ fl2.flStart && fl2.flEnd ≥ fl1.flStart

/-- `posix_same_owner`, without a lock manager. -/
def posixSameOwner (fl1 fl2 : Lock) : Bool := fl1.flOwner = fl2.flOwner

/-- `locks_conflict` -/
def locksConflict (caller sys : Lock) : Bool := sys.flType = .wrlck || caller.flType = .wrlck

/-- `posix_locks_conflict` -/
def posixLocksConflict (caller sys : Lock) : Bool :=
  if !sys.flPosix || posixSameOwner caller sys then false
  else if !locksOverlap caller sys then false
  else locksConflict caller sys

/-- The search for a conflicting lock; null if there is none. -/
def findConflict : Nat → Inode → Lock → Ptr → Option Ptr
  | 0, _, _, _ => none
  | fuel + 1, n, request, p =>
    if p = 0 then some 0
    else
      (load n.mem p).bind fun fl =>
        if fl.flPosix && posixLocksConflict request fl.toLock then some p
        else findConflict fuel n request fl.flNext

/-! ### The list -/

variable (n : Inode)

/-- `locks_delete_lock` -/
def locksDeleteLock (slot : Slot) : Option Inode := do
  let p ← n.read slot
  let fl ← load n.mem p
  let n ← n.write slot fl.flNext
  n.update p fun fl => { fl with flNext := 0 }

/-- `locks_copy_lock` -/
def locksCopyLock (new fl : Ptr) : Option Inode := do
  let f ← load n.mem fl
  n.update new fun g => { f with flNext := g.flNext }

/-- `locks_insert_lock` -/
def locksInsertLock (slot : Slot) (fl : Ptr) : Option Inode := do
  let next ← n.read slot
  let n ← n.update fl fun f => { f with flNext := next }
  n.write slot fl

/-- Skips the locks of other owners. -/
def skipOthers : Nat → Inode → Lock → Slot → Option Slot
  | 0, _, _, _ => none
  | fuel + 1, n, request, slot =>
    (n.read slot).bind fun p =>
      if p = 0 then some slot
      else
        (load n.mem p).bind fun fl =>
          if !fl.flPosix || !posixSameOwner request fl.toLock then
            skipOthers fuel n request (.next p)
          else some slot

/-! ### The locks of the owner -/

/-- The variables of the loop; `left` and `right` are null at first. -/
structure Scan where
  inode : Inode
  request : Ptr
  before : Slot
  left : Ptr
  right : Ptr
  added : Bool

def Scan.start (request : Ptr) (before : Slot) : Scan where
  inode := n
  request := request
  before := before
  left := 0
  right := 0
  added := false

/-- How the body of the loop is left: at the label `next_lock`, by `continue` or by `break`. -/
inductive Turn where
  | next (s : Scan)
  | again (s : Scan)
  | leave (s : Scan)

/-- The lower start address of both locks, in both of them. -/
def mergeStarts (request fl : Ptr) (f r : Lock) : Option Inode :=
  if f.flStart > r.flStart then n.update fl fun f => { f with flStart := r.flStart }
  else n.update request fun r => { r with flStart := f.flStart }

/-- The higher end address of both locks, in both of them. -/
def mergeEnds (request fl : Ptr) (f r : Lock) : Option Inode :=
  if f.flEnd < r.flEnd then n.update fl fun f => { f with flEnd := r.flEnd }
  else n.update request fun r => { r with flEnd := f.flEnd }

def mergeRanges (request fl : Ptr) (f r : Lock) : Option Inode := do
  let n ← mergeStarts n request fl f r
  mergeEnds n request fl f r

/-- A lock of the requested type. -/
def sameType (s : Scan) (fl : Ptr) (f r : Lock) : Option Turn :=
  if f.flEnd < r.flStart - 1 then some (.next s)
  else if f.flStart - 1 > r.flEnd then some (.leave s)
  else
    (mergeRanges s.inode s.request fl f r).bind fun n =>
      if s.added then
        (locksDeleteLock n s.before).bind fun n => some (.again { s with inode := n })
      else some (.next { s with inode := n, request := fl, added := true })

/-- The old lock becomes the new one. -/
def replaceLock (s : Scan) (fl : Ptr) (r : Lock) : Option Turn :=
  (s.inode.update fl fun f => { f with
    flStart := r.flStart, flEnd := r.flEnd, flType := r.flType }).bind fun n =>
      some (.next { s with inode := n, request := fl, added := true })

/-- A lock of another type. -/
def otherType (s : Scan) (fl : Ptr) (f r : Lock) : Option Turn :=
  if f.flEnd < r.flStart then some (.next s)
  else if f.flStart > r.flEnd then some (.leave s)
  else
    let s := if r.flType = .unlck then { s with added := true } else s
    let s := if f.flStart < r.flStart then { s with left := fl } else s
    if f.flEnd > r.flEnd then some (.leave { s with right := fl })
    else if f.flStart ≥ r.flStart then
      if s.added then
        (locksDeleteLock s.inode s.before).bind fun n => some (.again { s with inode := n })
      else replaceLock s fl r
    else some (.next s)

/-- The loop over the locks of the owner. -/
def ownerLoop : Nat → Scan → Option Scan
  | 0, _ => none
  | fuel + 1, s =>
    (s.inode.read s.before).bind fun fl =>
      if fl = 0 then some s
      else
        (load s.inode.mem fl).bind fun f =>
          (load s.inode.mem s.request).bind fun r =>
            if !posixSameOwner r.toLock f.toLock then some s
            else
              (if r.flType = f.flType then sameType s fl f.toLock r.toLock
                else otherType s fl f.toLock r.toLock).bind fun turn =>
                match turn with
                | .next s => ownerLoop fuel { s with before := .next fl }
                | .again s => ownerLoop fuel s
                | .leave s => some s

/-! ### After the loop -/

/-- The new lock is put into the list. -/
def insertNew (s : Scan) (newFl : Ptr) : Option Inode := do
  let n ← locksCopyLock s.inode newFl s.request
  locksInsertLock n s.before newFl

/-- The lock `right` loses what is before the end of the request; if it is also `left`, its first
part becomes a lock of its own. The result includes `left`. -/
def cutRight (s : Scan) (newFl2 : Ptr) : Option (Inode × Ptr) :=
  if s.right = 0 then some (n, s.left)
  else do
    let r ← load n.mem s.request
    if s.left = s.right then do
      let n ← locksCopyLock n newFl2 s.right
      let n ← locksInsertLock n s.before newFl2
      let n ← n.update s.right fun f => { f with flStart := r.flEnd + 1 }
      some (n, newFl2)
    else do
      let n ← n.update s.right fun f => { f with flStart := r.flEnd + 1 }
      some (n, s.left)

/-- The lock `left` loses what is after the start of the request. -/
def cutLeft (request left : Ptr) : Option Inode :=
  if left = 0 then some n
  else do
    let r ← load n.mem request
    n.update left fun f => { f with flEnd := r.flStart - 1 }

/-- The rest of `__posix_lock_file` once the new lock is in the list. -/
def cutOld (s : Scan) (newFl2 : Ptr) : Option (Inode × Int) := do
  let (n, left) ← cutRight n s newFl2
  let n ← cutLeft n s.request left
  some (n, 0)

/-- The part of `__posix_lock_file` after the loop. -/
def finish (s : Scan) (newFl newFl2 : Ptr) : Option (Inode × Int) :=
  if s.right ≠ 0 ∧ s.left = s.right ∧ newFl2 = 0 then some (s.inode, -ENOLCK)
  else if s.added then cutOld s.inode s newFl2
  else
    (load s.inode.mem s.request).bind fun r =>
      if r.flType = .unlck then some (s.inode, if r.flExists then -ENOENT else 0)
      else if newFl = 0 then some (s.inode, -ENOLCK)
      else (insertNew s newFl).bind fun n => cutOld n s newFl2

/-- `__posix_lock_file`. `newFl` and `newFl2` are what the two allocations return. -/
def posixLockFile (request newFl newFl2 : Ptr) (deadlock : Bool) :
    Option (Inode × Int) :=
  (load n.mem request).bind fun r =>
    let alloc := !r.flAccess && (r.flType ≠ .unlck || r.flStart ≠ 0 || r.flEnd ≠ OFFSET_MAX)
    let newFl := if alloc then newFl else 0
    let newFl2 := if alloc then newFl2 else 0
    (if r.flType = .unlck then some 0 else findConflict loopBound n r.toLock n.iFlock).bind
      fun fl =>
      if fl ≠ 0 then
        some (n, if !r.flSleep then -EAGAIN else if deadlock then -EDEADLK else FILE_LOCK_DEFERRED)
      else if r.flAccess then some (n, 0)
      else
        (skipOthers loopBound n r.toLock .head).bind fun before =>
          (ownerLoop loopBound (Scan.start n request before)).bind fun s => finish s newFl newFl2

end SilanKernel.Locks
