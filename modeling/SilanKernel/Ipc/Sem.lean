import Mathlib.Algebra.BigOperators.Group.List.Basic
import SilanKernel.Data.Run

/-!
# SilanKernel.Ipc.Sem

System V semaphores, `ipc/sem.c`: one semaphore array, its undo structures and the
operations that sleep on it.

The array is a record with one map for each field of `struct sem` (`semval`, `sempid` and the
queue `simplePending` of single operations), the queue `semPending` of all sleeping
operations, and the heaps of `struct sem_queue` and of `sem_undo.semadj`. A list of waiters
holds the addresses of their `struct sem_queue`; an undo structure is named by the
`sem_undo_list` of its task group, of which an array has at most one undo structure.
`semval` never leaves `0..SEMVMX` by more than one `short`, so it is an integer; `sem_op` and
`semadj` are `short`s and are kept as 16-bit words. **`none` stands for a null pointer that
is followed, a failed `BUG_ON` and a loop that does not end.**
-/

namespace SilanKernel.Ipc

def SEMVMX : Int := 32767
def SEMAEM : Int := SEMVMX
def SEM_UNDO : BitVec 16 := 0x1000
def IPC_NOWAIT : BitVec 16 := 0x800

def EINTR : Int := 4
def E2BIG : Int := 7
def EAGAIN : Int := 11
def ENOMEM : Int := 12
def EINVAL : Int := 22
def EFBIG : Int := 27
def ERANGE : Int := 34
/-- The status of an operation whose task is about to be woken up. -/
def IN_WAKEUP : Int := 1

/-! ### Data -/

/-- `struct sembuf`, one operation of a vector. -/
structure Sembuf where
  semNum : Nat
  semOp : BitVec 16
  semFlg : BitVec 16
deriving DecidableEq, Repr

namespace Sembuf

/-- `sop->sem_op` as an `int`. -/
def op (sop : Sembuf) : Int := sop.semOp.toInt

/-- `sop->sem_flg & SEM_UNDO` -/
def undo (sop : Sembuf) : Bool := sop.semFlg &&& SEM_UNDO ≠ 0

/-- `sop->sem_flg & IPC_NOWAIT` -/
def nowait (sop : Sembuf) : Bool := sop.semFlg &&& IPC_NOWAIT ≠ 0

end Sembuf

/-- `struct sem_queue`, an operation vector whose task sleeps; `nsops` is its length. -/
structure SemQueue where
  undo : Option Nat
  pid : Int
  status : Int
  sops : List Sembuf
  alter : Bool
deriving DecidableEq, Repr

/-- `struct sem_array` with the `struct sem`s, `struct sem_queue`s and undo structures that
belong to it. -/
structure SemArray where
  semval : Nat → Int
  sempid : Nat → Int
  simplePending : Nat → List Nat
  semPending : List Nat
  listId : List Nat
  semNsems : Nat
  complexCount : Int
  semOtime : Int
  semCtime : Int
  semadj : Nat → Nat → BitVec 16
  queue : Nat → Option SemQueue

namespace SemArray

/-- The array that `newary` sets up. -/
def newary (nsems : Nat) (now : Int) : SemArray where
  semval _ := 0
  sempid _ := 0
  simplePending _ := []
  semPending := []
  listId := []
  semNsems := nsems
  complexCount := 0
  semOtime := 0
  semCtime := now
  semadj _ _ := 0
  queue _ := none

variable (sma : SemArray)

def setSemval (n : Nat) (v : Int) : SemArray :=
  { sma with semval := Function.update sma.semval n v }

def setSempid (n : Nat) (pid : Int) : SemArray :=
  { sma with sempid := Function.update sma.sempid n pid }

def setSemadj (u n : Nat) (adj : BitVec 16) : SemArray :=
  { sma with semadj := Function.update sma.semadj u (Function.update (sma.semadj u) n adj) }

def setQueue (q : Nat) (sq : Option SemQueue) : SemArray :=
  { sma with queue := Function.update sma.queue q sq }

end SemArray

/-! ### `try_atomic_semop` -/

/-- How the forward pass ends: all operations performed, or the label it jumps to. -/
inductive Verdict where
  | passed
  | wouldBlock (sop : Sembuf)
  | outOfRange
deriving DecidableEq

variable (sma : SemArray)

/-- The test of `un->semadj[sop->sem_num] - sem_op`, made for a `SEM_UNDO` operation. -/
def undoOutOfRange (un : Option Nat) (sop : Sembuf) : Option Bool :=
  if sop.undo then
    un.map fun u =>
      let undo := (sma.semadj u sop.semNum).toInt - sop.op
      decide (undo < -SEMAEM - 1 ∨ undo > SEMAEM)
  else some false

/-- The `for` loop. `done` holds the operations performed so far, the last one first: the
two backward loops go through it from its head. -/
def semopForward (un : Option Nat) (sma : SemArray) (done : List Sembuf) :
    List Sembuf → Option (SemArray × List Sembuf × Verdict)
  | [] => some (sma, done, .passed)
  | sop :: sops =>
    if sop.op = 0 ∧ sma.semval sop.semNum ≠ 0 then some (sma, done, .wouldBlock sop)
    else if sma.semval sop.semNum + sop.op < 0 then some (sma, done, .wouldBlock sop)
    else if sma.semval sop.semNum + sop.op > SEMVMX then some (sma, done, .outOfRange)
    else
      (undoOutOfRange sma un sop).bind fun exceeds =>
        if exceeds then some (sma, done, .outOfRange)
        else
          semopForward un (sma.setSemval sop.semNum (sma.semval sop.semNum + sop.op)) (sop :: done)
            sops

/-- The backward loop after success: `sempid`, and `semadj`, a `short`. -/
def semopCommit (un : Option Nat) (pid : Int) (sma : SemArray) : List Sembuf → Option SemArray
  | [] => some sma
  | sop :: done =>
    if sop.undo then
      un.bind fun u =>
        semopCommit un pid ((sma.setSempid sop.semNum pid).setSemadj u sop.semNum
          (sma.semadj u sop.semNum - sop.semOp)) done
    else semopCommit un pid (sma.setSempid sop.semNum pid) done

/-- The backward loop at the label `undo`. -/
def semopUndo (sma : SemArray) : List Sembuf → SemArray
  | [] => sma
  | sop :: done => semopUndo (sma.setSemval sop.semNum (sma.semval sop.semNum - sop.op)) done

def tryAtomicSemop (sops : List Sembuf) (un : Option Nat) (pid : Int) :
    Option (SemArray × Int) :=
  (semopForward un sma [] sops).bind fun (sma, done, verdict) =>
    match verdict with
    | .passed => (semopCommit un pid sma done).map (·, 0)
    | .outOfRange => some (semopUndo sma done, -ERANGE)
    | .wouldBlock sop => some (semopUndo sma done, if sop.nowait then -EAGAIN else 1)

/-! ### Waking up -/

/-- `wake_up_sem_queue_prepare`; `pt` lists the operations whose tasks are to be woken up. -/
def wakeUpSemQueuePrepare (pt : List Nat) (w : Nat) (q : SemQueue) (error : Int) :
    SemArray × List Nat :=
  (sma.setQueue w (some { q with status := IN_WAKEUP, pid := error }), pt ++ [w])

/-- `wake_up_sem_queue_do`, which runs after the lock has been released. -/
def wakeUpSemQueueDo (sma : SemArray) : List Nat → Option SemArray
  | [] => some sma
  | w :: pt =>
    (sma.queue w).bind fun q =>
      wakeUpSemQueueDo (sma.setQueue w (some { q with status := q.pid })) pt

def unlinkQueue (w : Nat) (q : SemQueue) : SemArray :=
  match q.sops with
  | [sop] =>
    { sma with
      semPending := sma.semPending.erase w
      simplePending :=
        Function.update sma.simplePending sop.semNum ((sma.simplePending sop.semNum).erase w) }
  | _ =>
    { sma with semPending := sma.semPending.erase w, complexCount := sma.complexCount - 1 }

/-- `check_restart`, for the operation `q` that was just completed. -/
def checkRestart (q : SemQueue) : Option Bool :=
  if q.alter = false then some false
  else if sma.complexCount ≠ 0 then some true
  else if q.sops.length > 1 then some true
  else
    q.sops.head?.bind fun sop =>
      match sma.simplePending sop.semNum with
      | [] => some false
      | h :: _ =>
        if sma.semval sop.semNum ≠ 0 then
          -- BUG_ON(q->sops[0].sem_op >= 0)
          if sop.op ≥ 0 then none else some false
        else
          (sma.queue h).bind fun first =>
            match first.sops with
            | [hsop] => if hsop.semNum ≠ sop.semNum then none else some (decide (hsop.op = 0))
            -- BUG_ON(h->nsops != 1)
            | _ => none

/-- What `update_queue` carries along: the array, the tasks to wake up, `semop_completed`. -/
structure Update where
  sma : SemArray
  pt : List Nat
  completed : Bool

/-- The list `update_queue` walks: all sleeping operations for `semnum = -1`. -/
def pendingList : Option Nat → List Nat
  | none => sma.semPending
  | some n => sma.simplePending n

/-- The test at the head of the loop that ends the walk over one semaphore's queue. -/
def noneCanFollow (semnum : Option Nat) (q : SemQueue) : Bool :=
  match semnum with
  | none => false
  | some n => decide (sma.semval n = 0) && q.alter

/-- The `while` loop; `true` asks for `goto again`. The list loses only the operation at
hand, so the rest of it is the walk that is left. -/
def updateWalk (semnum : Option Nat) (st : Update) : List Nat → Option (Update × Bool)
  | [] => some (st, false)
  | w :: walk =>
    (st.sma.queue w).bind fun q =>
      if noneCanFollow st.sma semnum q then some (st, false)
      else
        (tryAtomicSemop st.sma q.sops q.undo q.pid).bind fun (sma, error) =>
          if error > 0 then updateWalk semnum { st with sma := sma } walk
          else
            let sma := unlinkQueue sma w q
            if error ≠ 0 then
              let (sma, pt) := wakeUpSemQueuePrepare sma st.pt w q error
              updateWalk semnum { st with sma := sma, pt := pt } walk
            else
              (checkRestart sma q).bind fun restart =>
                let (sma, pt) := wakeUpSemQueuePrepare sma st.pt w q error
                if restart then some ({ sma := sma, pt := pt, completed := true }, true)
                else updateWalk semnum { sma := sma, pt := pt, completed := true } walk

/-- The label `again`. -/
def updateAgain (semnum : Option Nat) : Nat → Update → Option Update
  | 0, _ => none
  | fuel + 1, st =>
    (updateWalk semnum st (pendingList st.sma semnum)).bind fun (st, again) =>
      if again then updateAgain semnum fuel st else some st

/-- `update_queue`; `none` is the `semnum` of `-1`. Each `goto again` has taken an
operation off the queue, which bounds their number. -/
def updateQueue (semnum : Option Nat) (pt : List Nat) : Option Update :=
  let semnum := if sma.complexCount ≠ 0 then none else semnum
  updateAgain semnum (sma.semPending.length + 1) { sma := sma, pt := pt, completed := false }

/-- The loop of `do_smart_update` over the operations that were performed. -/
def smartLoop (sma : SemArray) (otime : Bool) (pt : List Nat) :
    List Sembuf → Option (SemArray × Bool × List Nat)
  | [] => some (sma, otime, pt)
  | sop :: sops =>
    if sop.op > 0 ∨ (sop.op < 0 ∧ sma.semval sop.semNum = 0) then
      (updateQueue sma (some sop.semNum) pt).bind fun st =>
        smartLoop st.sma (otime || st.completed) st.pt sops
    else smartLoop sma otime pt sops

/-- `do_smart_update`; `none` is the null `sops`. `now` is what `get_seconds` returns. -/
def doSmartUpdate (sops : Option (List Sembuf)) (otime : Bool) (now : Int)
    (pt : List Nat) : Option (SemArray × List Nat) :=
  let updated : Option (SemArray × Bool × List Nat) :=
    match sops with
    | none => (updateQueue sma none pt).map fun st => (st.sma, otime || st.completed, st.pt)
    | some sops =>
      if sma.complexCount ≠ 0 then
        (updateQueue sma none pt).map fun st => (st.sma, otime || st.completed, st.pt)
      else smartLoop sma otime pt sops
  updated.map fun (sma, otime, pt) => (if otime then { sma with semOtime := now } else sma, pt)

/-! ### The system calls -/

/-- `find_alloc_undo`: the undo structure of the list `ulp`, which is allocated where there is
none; `mem` says whether that succeeds. -/
def findAllocUndo (ulp : Nat) (mem : Bool) : Except Int SemArray :=
  if ulp ∈ sma.listId then .ok sma
  else if mem then
    .ok { sma with
          listId := ulp :: sma.listId
          semadj := Function.update sma.semadj ulp fun _ => 0 }
  else .error (-ENOMEM)

/-- `max` of the first loop of `sys_semtimedop`. -/
def maxSemNum (sops : List Sembuf) : Nat := sops.foldl (fun m sop => max m sop.semNum) 0

/-- `list_add_tail` for an operation that alters the array, `list_add` for one that waits. -/
def queueAdd (alter : Bool) (w : Nat) (l : List Nat) : List Nat :=
  if alter then l ++ [w] else w :: l

/-- The operation goes to sleep: it is put on the queues. -/
def enqueue (w : Nat) (q : SemQueue) : SemArray :=
  let sma := sma.setQueue w (some q)
  let sma := { sma with semPending := queueAdd q.alter w sma.semPending }
  match q.sops with
  | [sop] =>
    { sma with
      simplePending := Function.update sma.simplePending sop.semNum
        (queueAdd q.alter w (sma.simplePending sop.semNum)) }
  | _ => { sma with complexCount := sma.complexCount + 1 }

/-- What `sys_semtimedop` asks of its surroundings: the limit `sc_semopm`, whether the undo
structure can be allocated, the answer of `ipcperms` and `security_sem_semop`, the time. -/
structure SemEnv where
  semopm : Nat
  mem : Bool
  denied : Option Int
  now : Int

/-- `sys_semtimedop` from the call of `try_atomic_semop` to `schedule`, with the undo structure
`un`; `w` is the address of its `queue`. The result is the value returned, or `none` if the
task sleeps. -/
def semtimedopTry (un : Option Nat) (pid : Int) (w : Nat) (now : Int)
    (sops : List Sembuf) : Option (SemArray × Option Int) :=
  let alter := sops.any fun sop => decide (sop.op ≠ 0)
  (tryAtomicSemop sma sops un pid).bind fun (sma, error) =>
    if error ≤ 0 then
      if alter ∧ error = 0 then
        (doSmartUpdate sma (some sops) true now []).bind fun (sma, pt) =>
          (wakeUpSemQueueDo sma pt).map (·, some error)
      else some (sma, some error)
    else
      some (enqueue sma w
        { undo := un, pid := pid, status := -EINTR, sops := sops, alter := alter }, none)

/-- The tests made with the array locked. -/
def semtimedopLocked (env : SemEnv) (un : Option Nat) (pid : Int) (w : Nat)
    (sops : List Sembuf) : Option (SemArray × Option Int) :=
  if maxSemNum sops ≥ sma.semNsems then some (sma, some (-EFBIG))
  else
    match env.denied with
    | some e => some (sma, some e)
    | none => semtimedopTry sma un pid w env.now sops

/-- `sys_semtimedop` up to `schedule`, called by the task group with undo list `ulp`. -/
def sysSemtimedop (env : SemEnv) (ulp : Nat) (pid : Int) (w : Nat)
    (sops : List Sembuf) : Option (SemArray × Option Int) :=
  if sops.length < 1 then some (sma, some (-EINVAL))
  else if sops.length > env.semopm then some (sma, some (-E2BIG))
  else if sops.any Sembuf.undo then
    match findAllocUndo sma ulp env.mem with
    | .error e => some (sma, some e)
    | .ok sma => semtimedopLocked sma env (some ulp) pid w sops
  else semtimedopLocked sma env none pid w sops

/-- The rest of `sys_semtimedop`, run when the task leaves `schedule` because it was woken up
or interrupted or its time is over. The `queue` of the call is gone afterwards. -/
def semtimedopResume (w : Nat) (timedOut : Bool) : SemArray × Option Int :=
  match sma.queue w with
  | none => (sma, none)
  | some q =>
    if q.status ≠ -EINTR then (sma.setQueue w none, some q.status)
    else
      ((unlinkQueue sma w q).setQueue w none, some (if timedOut then -EAGAIN else -EINTR))

/-- `semctl_main` for `SETVAL`. -/
def semctlSetval (denied : Option Int) (semnum val pid now : Int) :
    Option (SemArray × Int) :=
  match denied with
  | some e => some (sma, e)
  | none =>
    if semnum < 0 ∨ semnum ≥ sma.semNsems then some (sma, -EINVAL)
    else if val > SEMVMX ∨ val < 0 then some (sma, -ERANGE)
    else
      let n := semnum.toNat
      let sma := { sma with
        semadj := fun u => if u ∈ sma.listId then Function.update (sma.semadj u) n 0
          else sma.semadj u }
      let sma := { (sma.setSemval n val).setSempid n pid with semCtime := now }
      (doSmartUpdate sma none false now []).bind fun (sma, pt) =>
        (wakeUpSemQueueDo sma pt).map (·, 0)

/-- `semctl_main` for `SETALL`; `semIo` is the array of `ushort`s copied from the user. -/
def semctlSetall (denied : Option Int) (semIo : Nat → BitVec 16) (now : Int) :
    Option (SemArray × Int) :=
  match denied with
  | some e => some (sma, e)
  | none =>
    if (List.range sma.semNsems).any fun i => decide (((semIo i).toNat : Int) > SEMVMX) then
      some (sma, -ERANGE)
    else
      let sma := { sma with
        semval := fun i => if i < sma.semNsems then (semIo i).toNat else sma.semval i
        semadj := fun u i => if u ∈ sma.listId ∧ i < sma.semNsems then 0 else sma.semadj u i
        semCtime := now }
      (doSmartUpdate sma none false now []).bind fun (sma, pt) =>
        (wakeUpSemQueueDo sma pt).map (·, 0)

/-- One semaphore's adjustment in `exit_sem`. -/
def exitAdjust (u : Nat) (pid : Int) (i : Nat) : SemArray :=
  if sma.semadj u i ≠ 0 then
    let semval := sma.semval i + (sma.semadj u i).toInt
    let semval := if semval < 0 then 0 else semval
    let semval := if semval > SEMVMX then SEMVMX else semval
    (sma.setSemval i semval).setSempid i pid
  else sma

/-- `exit_sem` of the last task with the undo list `ulp`, as far as this array goes. -/
def exitSem (ulp : Nat) (pid now : Int) : Option SemArray :=
  if ulp ∈ sma.listId then
    let sma := { sma with listId := sma.listId.erase ulp }
    let sma := (List.range sma.semNsems).foldl (fun sma i => exitAdjust sma ulp pid i) sma
    (doSmartUpdate sma none true now []).bind fun (sma, pt) => wakeUpSemQueueDo sma pt
  else some sma

/-! ### Runs -/

/-- The calls made on one array. -/
inductive SemCall where
  | semop (env : SemEnv) (ulp : Nat) (pid : Int) (w : Nat) (sops : List Sembuf)
  | resume (w : Nat) (timedOut : Bool)
  | setval (denied : Option Int) (semnum val pid now : Int)
  | setall (denied : Option Int) (semIo : Nat → BitVec 16) (now : Int)
  | exit (ulp : Nat) (pid now : Int)

def semStep : SemCall → Option SemArray
  | .semop env ulp pid w sops => (sysSemtimedop sma env ulp pid w sops).map Prod.fst
  | .resume w timedOut => some (semtimedopResume sma w timedOut).1
  | .setval denied semnum val pid now => (semctlSetval sma denied semnum val pid now).map Prod.fst
  | .setall denied semIo now => (semctlSetall sma denied semIo now).map Prod.fst
  | .exit ulp pid now => exitSem sma ulp pid now

end SilanKernel.Ipc
