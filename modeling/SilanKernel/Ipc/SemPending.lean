import Mathlib.Data.List.Count
import SilanKernel.Ipc.SemAtomic

/-!
# SilanKernel.Ipc.SemPending

No operation that could be completed is left asleep.

`Queues` is what holds of the queues at any time: the queues of single operations are the
single operations of `semPending`, those that wait for zero come first, `complexCount` counts
the others, and **a single operation that sleeps is a decrement or waits for zero**. The
informal arguments by which `update_queue` skips work all follow from that. A walk over a queue
leaves `Settled` whatever it has passed (`updateWalk_spec`), a call of `update_queue` the whole
queue it is for (`updateQueue_spec`), and `do_smart_update` everything.
-/

namespace SilanKernel.Ipc

open List Function SemArray Verdict

/-! ### Operations that sleep -/

/-- What holds of an operation from the moment it is put to sleep. -/
structure Waiter (q : SemQueue) : Prop where
  nonempty : q.sops ≠ []
  alter : q.alter = q.sops.any fun sop => decide (sop.op ≠ 0)
  undo : HasUndo q.undo q.sops
  simple : ∀ sop, q.sops = [sop] → sop.op ≤ 0 ∧ sop.nowait = false
  status : q.status = -EINTR

/-- `try_atomic_semop` would put the operation to sleep again. -/
def Blocks (sma : SemArray) (q : SemQueue) : Prop :=
  ∃ sop, verdict sma q.undo q.sops = some (.wouldBlock sop) ∧ sop.nowait = false

theorem semopForward_congr (hval : sma'.semval = sma.semval)
    (hadj : ∀ u ∈ un, sma'.semadj u = sma.semadj u) (done sops : List Sembuf) :
    (semopForward un sma' done sops).map Prod.snd = (semopForward un sma done sops).map
      Prod.snd := by
  induction sops generalizing sma sma' done with
  | nil => rfl
  | cons sop sops ih =>
    have hundo : undoOutOfRange sma' un sop = undoOutOfRange sma un sop := by
      cases un with
      | none => simp [undoOutOfRange]
      | some u => simp [undoOutOfRange, hadj u rfl]
    have hnext : (sma'.setSemval sop.semNum (sma.semval sop.semNum + sop.op)).semval =
        (sma.setSemval sop.semNum (sma.semval sop.semNum + sop.op)).semval := by
      simp only [setSemval, hval]
    rw [semopForward, semopForward, hval, hundo]
    split
    · simp
    split
    · simp
    split
    · simp
    cases undoOutOfRange sma un sop with
    | none => rfl
    | some b =>
      cases b with
      | true => simp
      | false => simpa using ih hnext hadj (sop :: done)

/-- Whether an operation blocks depends on the values and on its undo structure. -/
theorem Blocks.congr (h : Blocks sma q)
    (hval : sma'.semval = sma.semval) (hadj : ∀ u ∈ q.undo, sma'.semadj u = sma.semadj u) :
    Blocks sma' q := by
  obtain ⟨sop, hv, hn⟩ := h
  refine ⟨sop, ?_, hn⟩
  have := congrArg (Option.map Prod.snd) (semopForward_congr hval hadj [] q.sops)
  simp only [Option.map_map] at this
  exact this.trans hv

/-- Only an operation that may sleep is put to sleep. -/
theorem Verdict.eq_wouldBlock {v : Verdict} (h : ¬ v.code ≤ 0) :
    ∃ sop, v = .wouldBlock sop ∧ sop.nowait = false := by
  cases v with
  | passed => exact absurd (le_refl 0) h
  | outOfRange => exact absurd (by decide) h
  | wouldBlock sop =>
    refine ⟨sop, rfl, Bool.eq_false_iff.mpr fun hn => h ?_⟩
    rw [code, if_pos hn]
    decide

theorem blocks_iff (hq : Waiter q) (sma : SemArray) :
    Blocks sma q ↔ ∃ sma', tryAtomicSemop sma q.sops q.undo q.pid = some (sma', 1) := by
  obtain ⟨v, hv, -, htry⟩ := tryAtomicSemop_spec hq.undo sma q.pid
  constructor
  · rintro ⟨sop, hblock, hn⟩
    obtain rfl := Option.some.inj (hv.symm.trans hblock)
    exact ⟨sma, htry.trans (by simp [code, hn])⟩
  · rintro ⟨sma', hone⟩
    have hcode : v.code = 1 := congrArg Prod.snd (Option.some.inj (htry.symm.trans hone))
    obtain ⟨sop, rfl, hn⟩ := eq_wouldBlock (v := v) (by omega)
    exact ⟨sop, hv, hn⟩

/-- An operation that finds the value it needs does not block. -/
theorem verdict_single_ne (hzero : ¬ (sop.op = 0 ∧ sma.semval sop.semNum ≠ 0))
    (hneg : ¬ sma.semval sop.semNum + sop.op < 0) (s : Sembuf) :
    verdict sma un [sop] ≠ some (.wouldBlock s) := by
  intro hs
  rw [verdict, semopForward, if_neg hzero, if_neg hneg] at hs
  split at hs
  · simp at hs
  · cases hb : undoOutOfRange sma un sop with
    | none => simp [hb] at hs
    | some b => cases b <;> simp [hb, semopForward] at hs

/-- A single operation that sleeps waits for zero, or for a value it can be subtracted from. -/
theorem blocks_single (hq : Waiter q) (hs : q.sops = [sop]) (sma : SemArray) :
    Blocks sma q ↔ if sop.op = 0 then sma.semval sop.semNum ≠ 0
      else sma.semval sop.semNum + sop.op < 0 := by
  have hn := (hq.simple sop hs).2
  rw [Blocks, hs]
  by_cases hzero : sop.op = 0 ∧ sma.semval sop.semNum ≠ 0
  · rw [if_pos hzero.1]
    refine ⟨fun _ => hzero.2, fun _ => ⟨sop, ?_, hn⟩⟩
    rw [verdict, semopForward, if_pos hzero]
    rfl
  by_cases hneg : sma.semval sop.semNum + sop.op < 0
  · have hne : sop.op ≠ 0 := fun h0 => hzero ⟨h0, by omega⟩
    rw [if_neg hne]
    refine ⟨fun _ => hneg, fun _ => ⟨sop, ?_, hn⟩⟩
    rw [verdict, semopForward, if_neg hzero, if_pos hneg]
    rfl
  · constructor
    · rintro ⟨s, hv, -⟩
      exact absurd hv (verdict_single_ne hzero hneg s)
    · intro hc
      split at hc
      next h0 => exact absurd ⟨h0, hc⟩ hzero
      next => exact absurd hc hneg

/-! ### The queues -/

/-- `q->alter` of the operation at address `w`. -/
def alterAt (sma : SemArray) (w : Nat) : Bool := (sma.queue w).any SemQueue.alter

/-- The operation at address `w` is a vector of more than one. -/
def complexAt (sma : SemArray) (w : Nat) : Bool :=
  (sma.queue w).any fun q => decide (q.sops.length ≠ 1)

structure Queues (sma : SemArray) : Prop where
  range : InRange sma
  nodup : sma.semPending.Nodup
  waiter : ∀ w ∈ sma.semPending, ∃ q, sma.queue w = some q ∧ Waiter q
  simple : ∀ n w, w ∈ sma.simplePending n ↔
    w ∈ sma.semPending ∧ ∃ q sop, sma.queue w = some q ∧ q.sops = [sop] ∧ sop.semNum = n
  simpleNodup : ∀ n, (sma.simplePending n).Nodup
  order : ∀ n, (sma.simplePending n).Pairwise fun w w' => alterAt sma w = true →
    alterAt sma w' = true
  count : sma.complexCount = sma.semPending.countP (complexAt sma)
  asleep : ∀ w q, sma.queue w = some q → q.status = -EINTR → w ∈ sma.semPending
  live : ∀ w ∈ sma.semPending, ∀ q, sma.queue w = some q → ∀ u ∈ q.undo, u ∈ sma.listId

/-- The operation at address `w` blocks. -/
def Settled (sma : SemArray) (w : Nat) : Prop := ∀ q, sma.queue w = some q → Blocks sma q

namespace Queues

/-- The queues do not depend on the values, as long as these are in range. -/
theorem congr (h : Queues sma) (hr : InRange sma')
    (hp : sma'.semPending = sma.semPending) (hsp : sma'.simplePending = sma.simplePending)
    (hc : sma'.complexCount = sma.complexCount) (hq : sma'.queue = sma.queue)
    (hl : ∀ w ∈ sma.semPending, ∀ q, sma.queue w = some q → ∀ u ∈ q.undo, u ∈ sma'.listId) :
    Queues sma' where
  range := hr
  nodup := hp ▸ h.nodup
  waiter := by rw [hp, hq]; exact h.waiter
  simple := by rw [hp, hsp, hq]; exact h.simple
  simpleNodup := by rw [hsp]; exact h.simpleNodup
  order := by
    have ha : alterAt sma' = alterAt sma := by funext w; rw [alterAt, hq, alterAt]
    rw [hsp, ha]
    exact h.order
  count := by
    have ha : complexAt sma' = complexAt sma := by funext w; rw [complexAt, hq, complexAt]
    rw [hp, hc, ha]
    exact h.count
  asleep := by rw [hp, hq]; exact h.asleep
  live := by rw [hp, hq]; exact hl

/-- Without complex operations every operation that sleeps is a single one. -/
theorem single (h : Queues sma) (hc : sma.complexCount = 0) (hw : w ∈ sma.semPending)
    (hq : sma.queue w = some q) : ∃ sop, q.sops = [sop] := by
  rw [h.count] at hc
  have hnot := countP_eq_zero.mp (Int.ofNat_eq_zero.mp hc) w hw
  rw [complexAt, hq, Option.any_some] at hnot
  exact length_eq_one_iff.mp (by simpa using hnot)

theorem waiter_of (h : Queues sma) (hw : w ∈ sma.semPending) (hq : sma.queue w = some q)
    : Waiter q := by
  obtain ⟨q', hq', hwait⟩ := h.waiter w hw
  obtain rfl := Option.some.inj (hq.symm.trans hq')
  exact hwait

end Queues

/-- An operation leaves the queues, and its `struct sem_queue` gets a new content. -/
def remove (sma : SemArray) (w : Nat) (q : SemQueue) (new : Option SemQueue) : SemArray :=
  (unlinkQueue sma w q).setQueue w new

@[simp] theorem remove_semval : (remove sma w q new).semval = sma.semval := by
  unfold remove unlinkQueue setQueue
  split <;> rfl

@[simp] theorem remove_semadj : (remove sma w q new).semadj = sma.semadj := by
  unfold remove unlinkQueue setQueue
  split <;> rfl

@[simp] theorem remove_semPending : (remove sma w q new).semPending = sma.semPending.erase w := by
  unfold remove unlinkQueue setQueue
  split <;> rfl

@[simp] theorem remove_listId : (remove sma w q new).listId = sma.listId := by
  unfold remove unlinkQueue setQueue
  split <;> rfl

theorem remove_queue : (remove sma w q new).queue = update sma.queue w new := by
  unfold remove unlinkQueue setQueue
  split <;> rfl

theorem remove_queue_of_ne (hv : v ≠ w) : (remove sma w q new).queue v = sma.queue v := by
  rw [remove_queue, update_of_ne hv]

/-- Each queue of single operations loses `w`, if it was on it. -/
theorem remove_simplePending (h : Queues sma) (hq : sma.queue w = some q) (n : Nat) :
    (remove sma w q new).simplePending n = (sma.simplePending n).erase w := by
  have hoff : (∀ sop, q.sops = [sop] → sop.semNum ≠ n) → (sma.simplePending n).erase w =
      sma.simplePending n := by
    intro hne
    refine erase_of_not_mem fun hmem => ?_
    obtain ⟨-, q', sop, hq', hs, hnum⟩ := (h.simple n w).mp hmem
    obtain rfl := Option.some.inj (hq.symm.trans hq')
    exact hne sop hs hnum
  unfold remove unlinkQueue setQueue
  split
  next sop hs =>
    by_cases hn : n = sop.semNum
    · subst hn
      exact update_self ..
    dsimp only
    rw [update_of_ne hn, hoff]
    intro s hs' hnum
    rw [hs] at hs'
    cases hs'
    exact hn hnum.symm
  next hs => exact (hoff fun sop hs' => absurd hs' (hs sop)).symm

theorem remove_complexCount (hq : sma.queue w = some q) : (remove sma w q new).complexCount =
      sma.complexCount - if complexAt sma w = true then 1 else 0 := by
  unfold remove unlinkQueue setQueue complexAt
  rw [hq, Option.any_some]
  split
  next sop hs => simp [hs]
  next hs =>
    rw [if_pos]
    rw [decide_eq_true_iff]
    intro hlen
    obtain ⟨sop, hs'⟩ := length_eq_one_iff.mp hlen
    exact hs sop hs'

/-- Removal keeps the queues. -/
theorem Queues.remove (h : Queues sma) (hw : w ∈ sma.semPending) (hq : sma.queue w = some q)
    (hnew : ∀ q' ∈ new, q'.status ≠ -EINTR) : Queues (remove sma w q new) := by
  have hqueue : ∀ v, v ∈ sma.semPending.erase w →
      (Ipc.remove sma w q new).queue v = sma.queue v := fun v hv =>
    remove_queue_of_ne (h.nodup.mem_erase_iff.mp hv).1
  have hsimple : ∀ n v, v ∈ (sma.simplePending n).erase w →
      (Ipc.remove sma w q new).queue v = sma.queue v := fun n v hv =>
    remove_queue_of_ne ((h.simpleNodup n).mem_erase_iff.mp hv).1
  refine ⟨fun
    n => by
    rw [remove_semval]; exact h.range n, by
      rw [remove_semPending]; exact h.nodup.erase w, ?_, ?_, ?_, ?_, ?_, ?_, ?_⟩
  · intro v hv
    rw [remove_semPending] at hv
    rw [hqueue v hv]
    exact h.waiter v (mem_of_mem_erase hv)
  · intro n v
    rw [remove_simplePending h hq, remove_semPending, (h.simpleNodup n).mem_erase_iff, h.simple,
      h.nodup.mem_erase_iff, and_assoc]
    refine and_congr_right fun hv => ?_
    rw [remove_queue_of_ne hv]
  · intro n
    rw [remove_simplePending h hq]
    exact (h.simpleNodup n).erase w
  · intro n
    rw [remove_simplePending h hq]
    refine List.Pairwise.imp_of_mem ?_ ((h.order n).sublist erase_sublist)
    intro a b ha hb hab
    rw [alterAt, alterAt, hsimple n a ha, hsimple n b hb]
    exact hab
  · have hcongr : (sma.semPending.erase w).countP (complexAt (Ipc.remove sma w q new)) =
        (sma.semPending.erase w).countP (complexAt sma) :=
      countP_congr fun v hv => by rw [complexAt, hqueue v hv, complexAt]
    rw [remove_complexCount hq, remove_semPending, hcongr, countP_erase, h.count]
    by_cases hc : complexAt sma w = true
    · have hpos : 0 < sma.semPending.countP (complexAt sma) := countP_pos_iff.mpr ⟨w, hw, hc⟩
      rw [if_pos hc, if_pos ⟨hw, hc⟩]
      omega
    · rw [if_neg hc, if_neg fun hc' => hc hc'.2]
      omega
  · intro v q' hq' hst
    rw [remove_semPending, h.nodup.mem_erase_iff]
    by_cases hv : v = w
    · subst hv
      rw [remove_queue, update_self] at hq'
      exact absurd hst (hnew q' hq')
    · rw [remove_queue_of_ne hv] at hq'
      exact ⟨hv, h.asleep v q' hq' hst⟩
  · intro v hv r hr
    rw [remove_semPending] at hv
    rw [hqueue v hv] at hr
    rw [remove_listId]
    exact h.live v (mem_of_mem_erase hv) r hr

/-! ### After an operation has been completed -/

section

theorem Waiter.op_eq_zero (hq : Waiter q) (ha : q.alter = false) : ∀ sop ∈ q.sops, sop.op = 0 := by
  intro sop hsop
  have hany := hq.alter.symm.trans ha
  rw [any_eq_false] at hany
  simpa using hany sop hsop

theorem Waiter.single_neg (hq : Waiter q) (hs : q.sops = [sop]) (ha : q.alter = true) :
    sop.op < 0 := by
  have hany := hq.alter.symm.trans ha
  rw [hs, any_cons, any_nil, Bool.or_false, decide_eq_true_iff] at hany
  have := (hq.simple sop hs).1
  omega

theorem opSum_eq_zero (h : ∀ sop ∈ sops, sop.op = 0) (n : Nat) : opSum n sops = 0 :=
  sum_eq_zero (forall_mem_map.mpr fun sop hs => by rw [h sop hs, ite_self])

theorem undoSum_eq_zero (h : ∀ sop ∈ sops, sop.op = 0) (n : Nat) : undoSum n sops = 0 :=
  sum_eq_zero (forall_mem_map.mpr fun sop hs => by rw [h sop hs, ite_self])

/-- A vector that waits for zero everywhere changes no value and no undo value. -/
theorem perform_of_zero (sma : SemArray) (h : ∀ sop ∈ sops, sop.op = 0)
    (un : Option Nat) (pid : Int) : (sma.perform sops un pid).semval = sma.semval ∧
      (sma.perform sops un pid).semadj = sma.semadj := by
  constructor
  · funext n
    simp [perform, opSum_eq_zero h]
  · funext u n
    simp only [perform, undoSum_eq_zero h]
    simp

/-- Why `check_restart` may answer no: the operation changed nothing, or it was a single
decrement and whoever sleeps on the same semaphore does not wait for the new value. -/
def NoRestart (sma : SemArray) (w : Nat) (q : SemQueue) : Prop :=
  q.alter = false ∨
    (unlinkQueue sma w q).complexCount = 0 ∧ ∃ sop, q.sops = [sop] ∧ sop.op < 0 ∧
      ∀ v ∈ (sma.simplePending sop.semNum).erase w,
        sma.semval sop.semNum ≠ 0 ∨ alterAt sma v = true

theorem unlinkQueue_semval : (unlinkQueue sma w q).semval = sma.semval := by
  unfold unlinkQueue
  split <;> rfl

theorem unlinkQueue_queue : (unlinkQueue sma w q).queue = sma.queue := by
  unfold unlinkQueue
  split <;> rfl

variable (h : Queues sma) (hw : w ∈ sma.semPending) (hq : sma.queue w = some q)

include h hw hq

/-- `check_restart` comes to an end, past its `BUG_ON`s, and has a reason to answer no. -/
theorem checkRestart_spec : Ends (checkRestart (unlinkQueue sma w q) q) fun restart =>
    restart = false → NoRestart sma w q := by
  have hwait := h.waiter_of hw hq
  cases ha : q.alter with
  | false =>
    rw [checkRestart, if_pos ha]
    exact .ret fun _ => .inl ha
  | true =>
    rw [checkRestart, if_neg (by simp [ha])]
    refine .ite (fun _ => .ret nofun) fun hcount => ?_
    refine .ite (fun _ => .ret nofun) fun hlen => ?_
    obtain ⟨sop, hs⟩ : ∃ sop, q.sops = [sop] := by
      have := length_pos_iff.mpr hwait.nonempty
      exact length_eq_one_iff.mp (by omega)
    have hneg := hwait.single_neg hs ha
    let queue := sma.simplePending sop.semNum
    have hlist : (unlinkQueue sma w q).simplePending sop.semNum =
        queue.erase w :=
      (remove_simplePending h hq sop.semNum : (remove sma w q none).simplePending _ = _)
    have hno : (∀ v ∈ queue.erase w,
        sma.semval sop.semNum ≠ 0 ∨ alterAt sma v = true) → NoRestart sma w q := fun hall =>
      .inr ⟨not_not.mp hcount, sop, hs, hneg, hall⟩
    rw [hs, head?_cons, Option.bind_some, hlist, unlinkQueue_semval, unlinkQueue_queue]
    cases hrest : queue.erase w with
    | nil => exact .ret fun _ => hno (by rw [hrest]; simp)
    | cons first rest =>
      refine .ite (fun hval => ?_) fun _ => ?_
      · rw [if_neg (by omega)]
        exact .ret fun _ => hno fun v _ => .inl hval
      -- The first operation on the queue stands for all of them: zero waiters come first.
      have hmem : first ∈ sma.simplePending sop.semNum :=
        mem_of_mem_erase (hrest ▸ mem_cons_self)
      obtain ⟨hfirst, q1, sop1, hq1, hs1, hnum⟩ := (h.simple _ first).mp hmem
      rw [hq1, Option.bind_some, hs1]
      dsimp only
      rw [if_neg (by simpa using hnum)]
      refine .ret fun hzero => hno fun v hv => .inr ?_
      have hfirstAlter : alterAt sma first = true := by
        rw [alterAt, hq1, Option.any_some, (h.waiter_of hfirst hq1).alter, hs1]
        simpa using hzero
      have horder := (h.order sop.semNum).sublist (erase_sublist (a := w))
      rw [hrest] at horder hv
      rcases mem_cons.mp hv with rfl | hv
      · exact hfirstAlter
      · exact rel_of_pairwise_cons horder hv hfirstAlter

/-- After a completion that asks for no restart, who was asleep for a reason still is. -/
theorem Settled.complete (hno : NoRestart (sma.perform q.sops q.undo q.pid) w q)
    (hv : v ∈ sma.semPending) (hvw : v ≠ w) (hset : Settled sma v) :
    Settled (remove (sma.perform q.sops q.undo q.pid) w q new) v := by
  have hwait := h.waiter_of hw hq
  intro r hr
  rw [remove_queue_of_ne hvw] at hr
  replace hr : sma.queue v = some r := hr
  have hblock : Blocks sma r := hset r hr
  rcases hno with ha | ⟨hcount, sop, hs, hneg, hall⟩
  · obtain ⟨hval, hadj⟩ := perform_of_zero sma (hwait.op_eq_zero ha) q.undo q.pid
    exact hblock.congr (remove_semval.trans hval) fun u _ => by rw [remove_semadj, hadj]
  have hcount0 : sma.complexCount = 0 := by
    simpa only [unlinkQueue, hs, perform] using hcount
  obtain ⟨sop', hs'⟩ := h.single hcount0 hv hr
  have hwait' := h.waiter_of hv hr
  have hval : (remove (sma.perform q.sops q.undo q.pid) w q new).semval sop'.semNum =
      sma.semval sop'.semNum + if sop.semNum = sop'.semNum then sop.op else 0 := by
    rw [remove_semval, perform, hs]
    simp
  rw [blocks_single hwait' hs'] at hblock ⊢
  rw [hval]
  by_cases hnum : sop.semNum = sop'.semNum
  · rw [if_pos hnum]
    by_cases hzero : sop'.op = 0
    · -- A zero waiter on the same semaphore: the new value is not zero.
      have hmem : v ∈ (sma.simplePending sop.semNum).erase w :=
        (h.simpleNodup _).mem_erase_iff.mpr
          ⟨hvw, (h.simple _ v).mpr ⟨hv, r, sop', hr, hs', hnum.symm⟩⟩
      rw [if_pos hzero]
      rcases hall v hmem with hne | halter
      · rw [← hnum]
        intro hc
        refine hne ?_
        show sma.semval sop.semNum + opSum sop.semNum q.sops = 0
        rw [hs]
        simpa using hc
      · have hra : r.alter = true := by
          have : alterAt sma v = true := halter
          rwa [alterAt, hr, Option.any_some] at this
        exact absurd (hwait'.single_neg hs' hra) (by omega)
    · rw [if_neg hzero] at hblock ⊢
      omega
  · rw [if_neg hnum, Int.add_zero]
    exact hblock

end

/-! ### `update_queue` -/

/-- What a walk over a queue does to the array: operations leave the queues, and a walk over
one semaphore's queue changes no other semaphore. -/
structure Walked (semnum : Option Nat) (sma sma' : SemArray) : Prop where
  queues : Queues sma'
  sub : ∀ w ∈ sma'.semPending, w ∈ sma.semPending
  queue : ∀ w ∈ sma'.semPending, sma'.queue w = sma.queue w
  frame : ∀ n ∈ semnum, ∀ m, m ≠ n → sma'.semval m = sma.semval m
  shrink : sma'.semPending.length ≤ sma.semPending.length

/-- The operations to be woken up are off the queues, each with its result. -/
def Woken (sma : SemArray) (pt : List Nat) : Prop :=
  ∀ w ∈ pt, ∃ q, sma.queue w = some q ∧ w ∉ sma.semPending ∧ q.pid ≠ -EINTR

theorem Walked.refl (h : Queues sma) : Walked semnum sma sma :=
  ⟨h, fun _ hw => hw, fun _ _ => rfl, fun _ _ _ _ => rfl, le_refl _⟩

theorem Walked.trans (h : Walked semnum sma sma') (h' : Walked semnum sma' sma'') :
    Walked semnum sma sma'' where
  queues := h'.queues
  sub w hw := h.sub w (h'.sub w hw)
  queue w hw := (h'.queue w hw).trans (h.queue w (h'.sub w hw))
  frame n hn m hm := (h'.frame n hn m hm).trans (h.frame n hn m hm)
  shrink := le_trans h'.shrink h.shrink

theorem Walked.complexCount (h : Queues sma) (hw : Walked semnum sma sma')
    (hc : sma.complexCount = 0) : sma'.complexCount = 0 := by
  rw [hw.queues.count, Int.ofNat_eq_zero, countP_eq_zero]
  intro v hv
  obtain ⟨q, hq, -⟩ := hw.queues.waiter v hv
  obtain ⟨sop, hs⟩ := h.single hc (hw.sub v hv) ((hw.queue v hv).symm.trans hq)
  simp [complexAt, hq, hs]

/-- An operation that goes, after the values have changed from `sma` to `sma'`. -/
theorem walked_remove (h : Queues sma') (hp : sma'.semPending = sma.semPending)
    (hqueue : sma'.queue = sma.queue) (hw : w ∈ sma.semPending) (hq : sma.queue w = some q)
    (hnew : ∀ q' ∈ new, q'.status ≠ -EINTR)
    (hframe : ∀ n ∈ semnum, ∀ m, m ≠ n → sma'.semval m = sma.semval m) :
    Walked semnum sma (remove sma' w q new) := by
  have hsub : ∀ v ∈ (remove sma' w q new).semPending, v ≠ w ∧ v ∈ sma.semPending := by
    intro v hv
    rw [remove_semPending, h.nodup.mem_erase_iff, hp] at hv
    exact hv
  refine ⟨h.remove (hp ▸ hw) (hqueue ▸ hq) hnew, fun v hv => (hsub v hv).2, fun v hv => ?_, ?_, ?_⟩
  · rw [remove_queue_of_ne (hsub v hv).1, hqueue]
  · intro n hn m hm
    rw [remove_semval]
    exact hframe n hn m hm
  · rw [remove_semPending, hp]
    exact length_erase_le

theorem Woken.remove {pt : List Nat} (h : Woken sma pt) (hn : sma.semPending.Nodup)
    (hw : w ∈ sma.semPending) (q q' : SemQueue) (hpid : q'.pid ≠ -EINTR) :
    Woken (remove sma w q (some q')) (pt ++ [w]) := by
  intro v hv
  rw [remove_semPending, hn.mem_erase_iff]
  rcases mem_append.mp hv with hv | hv
  · obtain ⟨r, hr, hoff, hr'⟩ := h v hv
    have hvw : v ≠ w := fun hc => hoff (hc ▸ hw)
    exact ⟨r, (remove_queue_of_ne hvw).trans hr, fun hc => hoff hc.2, hr'⟩
  · obtain rfl := mem_singleton.mp hv
    exact ⟨q', by rw [remove_queue, update_self], fun hc => hc.1 rfl, hpid⟩

/-- The operations on other semaphores do not notice. -/
theorem Settled.other (h : Queues sma) (hc : sma.complexCount = 0) (hv : v ∈ sma.semPending)
    (hn : v ∉ sma.simplePending n) (hqueue : sma'.queue v = sma.queue v)
    (hframe : ∀ m, m ≠ n → sma'.semval m = sma.semval m) (hset : Settled sma v) :
    Settled sma' v := by
  intro r hr
  rw [hqueue] at hr
  obtain ⟨sop, hs⟩ := h.single hc hv hr
  have hnum : sop.semNum ≠ n := fun heq => hn ((h.simple n v).mpr ⟨hv, r, sop, hr, hs, heq⟩)
  have hblock := hset r hr
  rw [blocks_single (h.waiter_of hv hr) hs] at hblock ⊢
  rwa [hframe _ hnum]

theorem Settled.of_eq (hset : Settled sma v) (hqueue : sma'.queue v = sma.queue v)
    (hval : sma'.semval = sma.semval) (hadj : sma'.semadj = sma.semadj) : Settled sma' v := by
  intro r hr
  rw [hqueue] at hr
  exact (hset r hr).congr hval fun u _ => by rw [hadj]

theorem pendingList_sub (h : Queues sma) (hv : v ∈ pendingList sma semnum) :
    v ∈ sma.semPending := by
  cases semnum with
  | none => exact hv
  | some n => exact ((h.simple n v).mp hv).1

/-- An operation on the list that was walked is on it as long as it sleeps. -/
theorem Walked.pendingList (h : Queues sma) (hw : Walked semnum sma sma')
    (hv : v ∈ Ipc.pendingList sma semnum) (hv' : v ∈ sma'.semPending) :
    v ∈ Ipc.pendingList sma' semnum := by
  cases semnum with
  | none => exact hv'
  | some n =>
    obtain ⟨-, q, sop, hq, hs, hn⟩ := (h.simple n v).mp hv
    exact (hw.queues.simple n v).mpr ⟨hv', q, sop, (hw.queue v hv').trans hq, hs, hn⟩

section

variable (h : Queues sma) (hq : sma.queue w = some q)

include h hq

theorem pendingList_remove (new : Option SemQueue) :
    pendingList (remove sma w q new) semnum = (pendingList sma semnum).erase w := by
  cases semnum with
  | none => exact remove_semPending
  | some n => exact remove_simplePending h hq n

/-- The rest of the walk, once the operation at its head has gone. -/
theorem walk_remove (new : Option SemQueue) (hwalk : (w :: walk).Sublist (pendingList sma semnum)) :
    walk.Sublist (pendingList (remove sma w q new) semnum) := by
  rw [pendingList_remove h hq]
  have := hwalk.erase w
  rwa [erase_cons_head] at this

/-- Nothing left on a semaphore's queue can follow once its value is zero and an altering
operation is next. -/
theorem settled_of_noneCanFollow (hwalk : (w :: walk).Sublist (pendingList sma semnum))
    (hnone : noneCanFollow sma semnum q = true) (hv : v ∈ w :: walk) : Settled sma v := by
  cases semnum with
  | none => exact absurd hnone (by simp [noneCanFollow])
  | some n =>
    simp only [noneCanFollow, Bool.and_eq_true, decide_eq_true_iff] at hnone
    obtain ⟨-, r, sop, hr, hs, hn⟩ := (h.simple n v).mp (hwalk.subset hv)
    have hvp := pendingList_sub h (hwalk.subset hv)
    have halter : alterAt sma v = true := by
      have hwa : alterAt sma w = true := by rw [alterAt, hq]; exact hnone.2
      rcases mem_cons.mp hv with rfl | hv
      · exact hwa
      · exact rel_of_pairwise_cons ((h.order n).sublist hwalk) hv hwa
    intro r' hr'
    obtain rfl := Option.some.inj (hr.symm.trans hr')
    have hwait := h.waiter_of hvp hr
    have hneg := hwait.single_neg hs (by rwa [alterAt, hr] at halter)
    rw [blocks_single hwait hs, if_neg (by omega), hn, hnone.1]
    omega

end

/-- A walk over the rest `walk` of a queue, after which the operations in `S` are to be
settled: they are, or are still to come. -/
structure Walking (semnum : Option Nat) (S : Nat → Prop) (sma : SemArray) (pt walk : List Nat) :
    Prop where
  queues : Queues sma
  woken : Woken sma pt
  count : semnum ≠ none → sma.complexCount = 0
  rest : walk.Sublist (pendingList sma semnum)
  cover : ∀ v ∈ sma.semPending, S v → v ∈ walk ∨ Settled sma v

/-- How far a walk brings the operations in `S`: all settled at its end, and where it asks to
start again the queue has lost one and holds whoever may not be settled. -/
structure Advanced (semnum : Option Nat) (S : Nat → Prop) (sma : SemArray) (r : Update × Bool) :
    Prop where
  walked : Walked semnum sma r.1.sma
  woken : Woken r.1.sma r.1.pt
  settled : r.2 = false → ∀ v ∈ r.1.sma.semPending, S v → Settled r.1.sma v
  again : r.2 = true → r.1.sma.semPending.length < sma.semPending.length ∧
    ∀ v ∈ r.1.sma.semPending, S v → v ∈ pendingList r.1.sma semnum ∨ Settled r.1.sma v

theorem Advanced.after {r : Update × Bool} (hw : Walked semnum sma sma')
    (h : Advanced semnum S sma' r) : Advanced semnum S sma r :=
  ⟨hw.trans h.walked, h.woken, h.settled,
    fun ha => ⟨lt_of_lt_of_le (h.again ha).1 hw.shrink, (h.again ha).2⟩⟩

/-- The operation as it is prepared for its wake-up. -/
def SemQueue.prepared (q : SemQueue) (error : Int) : SemQueue :=
  { q with status := IN_WAKEUP, pid := error }

theorem prepared_status (q : SemQueue) (error : Int) :
    ∀ q' ∈ some (q.prepared error), q'.status ≠ -EINTR := by
  rintro q' ⟨⟩
  exact (by decide : IN_WAKEUP ≠ -EINTR)

section

variable (h : Walking semnum S sma pt (w :: walk))

include h

/-- The operation at the head of the walk sleeps on. -/
theorem Walking.keep (hq : sma.queue w = some q)
    (hblock : Blocks sma q) : Walking semnum S sma pt walk where
  queues := h.queues
  woken := h.woken
  count := h.count
  rest := (sublist_cons_self w walk).trans h.rest
  cover := by
    intro v hv hSv
    rcases h.cover v hv hSv with hmem | hset
    · rcases mem_cons.mp hmem with rfl | hmem
      · refine .inr fun r hr => ?_
        obtain rfl := Option.some.inj (hq.symm.trans hr)
        exact hblock
      · exact .inl hmem
    · exact .inr hset

/-- The operation at the head of the walk goes, and whoever was settled still is. -/
theorem Walking.drop {error : Int} (hq : sma.queue w = some q) (herror : error ≠ -EINTR)
    (hqueues : Queues sma') (hp : sma'.semPending = sma.semPending)
    (hsp : sma'.simplePending = sma.simplePending) (hqueue : sma'.queue = sma.queue)
    (hwalked : Walked semnum sma (remove sma' w q (some (q.prepared error))))
    (hset : ∀ v ∈ sma.semPending, v ≠ w → Settled sma v →
      Settled (remove sma' w q (some (q.prepared error))) v) :
    Walking semnum S (remove sma' w q (some (q.prepared error))) (pt ++ [w]) walk := by
  have hw : w ∈ sma.semPending := pendingList_sub h.queues (h.rest.subset mem_cons_self)
  have hlist : pendingList sma' semnum = pendingList sma semnum := by
    cases semnum with
    | none => exact hp
    | some n => exact congrFun hsp n
  refine ⟨hwalked.queues, ?_, fun hs => hwalked.complexCount h.queues (h.count hs), ?_, ?_⟩
  · have hwoken : Woken sma' pt := by
      intro v hv
      rw [hqueue, hp]
      exact h.woken v hv
    exact hwoken.remove hqueues.nodup (hp ▸ hw) q _ herror
  · exact walk_remove hqueues (hqueue ▸ hq) _ (hlist ▸ h.rest)
  · intro v hv hSv
    have hvw : v ≠ w := by
      rw [remove_semPending] at hv
      exact (hqueues.nodup.mem_erase_iff.mp hv).1
    rcases h.cover v (hwalked.sub v hv) hSv with hmem | hv'
    · exact .inl ((mem_cons.mp hmem).resolve_left hvw)
    · exact .inr (hset v (hwalked.sub v hv) hvw hv')

/-- The walk stops to start again. -/
theorem Walking.again {pt' : List Nat} {completed : Bool} (hw : w ∈ sma.semPending)
    (hwalked : Walked semnum sma sma') (hwoken : Woken sma' pt')
    (hp : sma'.semPending = sma.semPending.erase w) :
    Advanced semnum S sma (⟨sma', pt', completed⟩, true) := by
  refine ⟨hwalked, hwoken, nofun, fun _ => ⟨?_, fun v hv hSv => ?_⟩⟩
  · show sma'.semPending.length < sma.semPending.length
    rw [hp, length_erase_of_mem hw]
    exact Nat.sub_lt (length_pos_of_mem hw) one_pos
  by_cases hvl : v ∈ pendingList sma semnum
  · exact .inl (hwalked.pendingList h.queues hvl hv)
  have hset := (h.cover v (hwalked.sub v hv) hSv).resolve_left fun hc => hvl (h.rest.subset hc)
  cases semnum with
  | none => exact absurd (hwalked.sub v hv) hvl
  | some n =>
    exact .inr (hset.other h.queues (h.count (by simp)) (hwalked.sub v hv) hvl
      (hwalked.queue v hv) (hwalked.frame n rfl))

end

/-- The operation at the head of the walk is completed and goes. -/
theorem walked_perform (h : Queues sma) (hw : w ∈ pendingList sma semnum)
    (hq : sma.queue w = some q) (hgoes : Goes sma q.undo q.sops) :
    Queues (sma.perform q.sops q.undo q.pid) ∧
      Walked semnum sma (remove (sma.perform q.sops q.undo q.pid) w q (some (q.prepared 0))) := by
  have hqueues : Queues (sma.perform q.sops q.undo q.pid) :=
    h.congr (hgoes.inRange h.range) rfl rfl rfl rfl h.live
  refine ⟨hqueues, walked_remove hqueues rfl rfl (pendingList_sub h hw) hq (prepared_status q 0) ?_⟩
  intro n hn m hm
  obtain rfl : semnum = some n := hn
  obtain ⟨-, q', sop, hq', hs, hnum⟩ := (h.simple _ w).mp hw
  obtain rfl := Option.some.inj (hq.symm.trans hq')
  show sma.semval m + opSum m q.sops = sma.semval m
  rw [hs, opSum_cons, opSum_nil, if_neg fun hc => hm (hc.symm.trans hnum)]
  omega

theorem Verdict.code_ne_eintr (v : Verdict) : v.code ≠ -EINTR := by
  cases v with
  | passed => decide
  | outOfRange => decide
  | wouldBlock sop =>
    simp only [code]
    split <;> decide

theorem updateWalk_spec (walk : List Nat) (st : Update) (h : Walking semnum S st.sma st.pt walk) :
    Ends (updateWalk semnum st walk) (Advanced semnum S st.sma) := by
  induction walk generalizing st with
  | nil =>
    refine .ret ⟨Walked.refl h.queues, h.woken, fun _ v hv hSv => ?_, nofun⟩
    exact (h.cover v hv hSv).resolve_left not_mem_nil
  | cons w walk ih =>
    have hwmem := h.rest.subset mem_cons_self
    have hw := pendingList_sub h.queues hwmem
    obtain ⟨q, hq, hwait⟩ := h.queues.waiter w hw
    rw [updateWalk, hq, Option.bind_some]
    refine .ite (fun hnone => ?_) fun _ => ?_
    · refine .ret ⟨Walked.refl h.queues, h.woken, fun _ v hv hSv => ?_, nofun⟩
      rcases h.cover v hv hSv with hmem | hset
      · exact settled_of_noneCanFollow h.queues hq h.rest hnone hmem
      · exact hset
    obtain ⟨v, hv, hends, htry⟩ := tryAtomicSemop_spec hwait.undo st.sma q.pid
    rw [htry, Option.bind_some]
    dsimp only
    by_cases hpassed : v = .passed
    · -- The operation is completed, and `check_restart` is asked.
      subst hpassed
      rw [if_pos rfl, if_neg (by decide), if_neg (by decide)]
      obtain ⟨hqueues, hwalked⟩ := walked_perform h.queues hwmem hq hends
      refine .bind (checkRestart_spec hqueues hw hq) fun restart hno => ?_
      refine .ite (fun _ => .ret ?_) fun hrestart => ?_
      · have hwoken : Woken (st.sma.perform q.sops q.undo q.pid) st.pt := h.woken
        exact h.again hw hwalked (hwoken.remove hqueues.nodup hw q (q.prepared 0)
          (by decide : (0 : Int) ≠ -EINTR)) remove_semPending
      · refine (ih _ (h.drop hq (by decide : (0 : Int) ≠ -EINTR) hqueues rfl rfl rfl hwalked
          fun v hv hvw hset => ?_)).mono fun r hr => hr.after hwalked
        exact hset.complete h.queues hw hq (hno (by simpa using hrestart)) hv hvw
    · rw [if_neg hpassed]
      refine .ite (fun hpos => ?_) fun hpos => ?_
      · -- It sleeps on.
        obtain ⟨sop, rfl, hn⟩ := eq_wouldBlock (not_le.mpr hpos)
        exact ih _ (h.keep hq ⟨sop, hv, hn⟩)
      -- It is turned down; no value has changed.
      rw [if_pos fun hc => hpassed (code_eq_zero.mp hc)]
      have hwalked : Walked semnum st.sma (remove st.sma w q (some (q.prepared v.code))) :=
        walked_remove h.queues rfl rfl hw hq (prepared_status q _) fun _ _ _ _ => rfl
      refine (ih _ (h.drop hq v.code_ne_eintr h.queues rfl rfl rfl hwalked
        fun v hv hvw hset => ?_)).mono fun r hr => hr.after hwalked
      exact hset.of_eq (remove_queue_of_ne hvw) remove_semval remove_semadj

/-- Enough fuel for every operation on the queues is enough. -/
theorem updateAgain_spec (fuel : Nat) (st : Update)
    (h : Walking semnum S st.sma st.pt (pendingList st.sma semnum))
    (hfuel : st.sma.semPending.length < fuel) :
    Ends (updateAgain semnum fuel st) fun st' =>
      Walked semnum st.sma st'.sma ∧ Woken st'.sma st'.pt ∧
        ∀ v ∈ st'.sma.semPending, S v → Settled st'.sma v := by
  induction fuel generalizing st with
  | zero => omega
  | succ fuel ih =>
    rw [updateAgain]
    refine .bind (updateWalk_spec _ st h) fun (st', again) hadv => ?_
    dsimp only
    cases again with
    | false =>
      rw [if_neg (by decide)]
      exact .ret ⟨hadv.walked, hadv.woken, hadv.settled rfl⟩
    | true =>
      obtain ⟨hless, hcover⟩ := hadv.again rfl
      have hcount : semnum ≠ none → st'.sma.complexCount = 0 := fun hs =>
        hadv.walked.complexCount h.queues (h.count hs)
      rw [if_pos rfl]
      refine .mono (ih st' ⟨hadv.walked.queues, hadv.woken, hcount, List.Sublist.refl _,
        hcover⟩ (by dsimp only at hless; omega)) ?_
      rintro st'' ⟨hw, hwoken, hset⟩
      exact ⟨hadv.walked.trans hw, hwoken, hset⟩

/-- **`update_queue` settles the queue it is called for**, and unsettles nobody. -/
theorem updateQueue_spec (h : Queues sma) (hpt : Woken sma pt) (semnum : Option Nat) :
    Ends (updateQueue sma semnum pt) fun st =>
      Walked (if sma.complexCount ≠ 0 then none else semnum) sma st.sma ∧ Woken st.sma st.pt ∧
        ∀ v ∈ st.sma.semPending, v ∈ pendingList sma semnum ∨ Settled sma v → Settled st.sma v := by
  refine updateAgain_spec _ { sma := sma, pt := pt, completed := false }
    ⟨h, hpt, ?_, List.Sublist.refl _, ?_⟩ (Nat.lt_succ_self _)
  · intro hs
    by_contra hc
    exact hs (if_pos hc)
  intro v hv hSv
  by_cases hc : sma.complexCount ≠ 0
  · rw [if_pos hc]
    exact .inl hv
  · rw [if_neg hc]
    exact hSv

/-! ### `do_smart_update` -/

/-- The operations on the list still have to be seen to: one of `sops` will do it. -/
def Due (sma : SemArray) (sops : List Sembuf) (v : Nat) : Prop :=
  ∃ sop ∈ sops, v ∈ sma.simplePending sop.semNum ∧
    (sop.op > 0 ∨ sop.op < 0 ∧ sma.semval sop.semNum = 0)

/-- Every operation that sleeps blocks. -/
def AllSettled (sma : SemArray) : Prop := ∀ v ∈ sma.semPending, Settled sma v

theorem Due.walked (h : Queues sma)
    (hw : Walked (some sop.semNum) sma sma') (hv : v ∈ sma'.semPending)
    (hother : v ∉ sma.simplePending sop.semNum) (hdue : Due sma (sop :: sops) v) :
    Due sma' sops v := by
  obtain ⟨sop', hmem, hlist, hop⟩ := hdue
  have hnum : sop'.semNum ≠ sop.semNum := fun hc => hother (hc ▸ hlist)
  obtain ⟨-, q, s, hq, hs, hn⟩ := (h.simple _ v).mp hlist
  refine ⟨sop', (mem_cons.mp hmem).resolve_left fun hc => hnum (by rw [hc]), ?_, ?_⟩
  · exact (hw.queues.simple _ v).mpr ⟨hv, q, s, (hw.queue v hv).trans hq, hs, hn⟩
  · rwa [hw.frame _ rfl _ hnum]

theorem smartLoop_spec (sops : List Sembuf) (otime : Bool) (h : Queues sma) (hpt : Woken sma pt)
    (hcount : sma.complexCount = 0) (hdue : ∀ v ∈ sma.semPending, Settled sma v ∨ Due sma sops v) :
    Ends (smartLoop sma otime pt sops) fun r =>
      Queues r.1 ∧ Woken r.1 r.2.2 ∧ AllSettled r.1 := by
  induction sops generalizing sma pt otime with
  | nil =>
    refine .ret ⟨h, hpt, fun v hv => (hdue v hv).resolve_right ?_⟩
    rintro ⟨sop, hmem, -⟩
    exact absurd hmem not_mem_nil
  | cons sop sops ih =>
    rw [smartLoop]
    refine .ite (fun _ => ?_) fun hop => ?_
    · refine .bind (updateQueue_spec h hpt (some sop.semNum)) fun st hst => ?_
      rw [if_neg (by simpa using hcount)] at hst
      obtain ⟨hw, hwoken, hset⟩ := hst
      refine ih _ hw.queues hwoken (hw.complexCount h hcount) fun v hv => ?_
      by_cases hlist : v ∈ sma.simplePending sop.semNum
      · exact .inl (hset v hv (.inl hlist))
      · rcases hdue v (hw.sub v hv) with hs | hd
        · exact .inl (hset v hv (.inr hs))
        · exact .inr (hd.walked h hw hv hlist)
    · refine ih _ h hpt hcount fun v hv => (hdue v hv).imp_right ?_
      rintro ⟨sop', hmem, hlist, hop'⟩
      rcases mem_cons.mp hmem with rfl | hmem
      · exact absurd hop' hop
      · exact ⟨sop', hmem, hlist, hop'⟩

/-- What `do_smart_update` leaves behind. -/
def Updated (r : SemArray × List Nat) : Prop := Queues r.1 ∧ Woken r.1 r.2 ∧ AllSettled r.1

theorem doSmartUpdate_of {sops : Option (List Sembuf)} {otime : Bool} {now : Int}
    {c : Option (SemArray × Bool × List Nat)}
    (hc : Ends c fun r => Queues r.1 ∧ Woken r.1 r.2.2 ∧ AllSettled r.1)
    (heq : doSmartUpdate sma sops otime now pt =
      c.map fun (sma, otime, pt) => (if otime then { sma with semOtime := now } else sma, pt)) :
    Ends (doSmartUpdate sma sops otime now pt) Updated := by
  obtain ⟨⟨sma', otime', pt'⟩, rfl, hq, hwoken, hset⟩ := hc
  refine ⟨_, heq, ?_⟩
  cases otime' with
  | false => exact ⟨hq, hwoken, hset⟩
  | true => exact ⟨hq.congr hq.range rfl rfl rfl rfl hq.live, hwoken, fun v hv q hvq =>
    (hset v hv q hvq).congr rfl fun _ _ => rfl⟩

section

variable (h : Queues sma) (hpt : Woken sma pt) (otime : Bool)

include h hpt otime

theorem updateQueue_all :
    Ends ((updateQueue sma none pt).map fun st => (st.sma, otime || st.completed, st.pt)) fun r =>
      Queues r.1 ∧ Woken r.1 r.2.2 ∧ AllSettled r.1 := by
  obtain ⟨st, hst, hw, hwoken, hset⟩ := updateQueue_spec h hpt none
  rw [hst]
  exact .ret ⟨hw.queues, hwoken, fun v hv => hset v hv (.inl (hw.sub v hv))⟩

/-- After a change that may concern anyone. -/
theorem doSmartUpdate_all (now : Int) : Ends (doSmartUpdate sma none otime now pt) Updated :=
  doSmartUpdate_of (updateQueue_all h hpt otime) rfl

/-- After the operations `sops`. -/
theorem doSmartUpdate_ops (now : Int) (hdue : sma.complexCount = 0 →
      ∀ v ∈ sma.semPending, Settled sma v ∨ Due sma sops v) :
    Ends (doSmartUpdate sma (some sops) otime now pt) Updated := by
  by_cases hc : sma.complexCount ≠ 0
  · exact doSmartUpdate_of (updateQueue_all h hpt otime) (by simp only [doSmartUpdate, if_pos hc])
  · exact doSmartUpdate_of (smartLoop_spec sops otime h hpt (not_not.mp hc) (hdue (not_not.mp hc)))
      (by simp only [doSmartUpdate, if_neg hc])

end

end SilanKernel.Ipc
