import SilanKernel.Ipc.SemPending

/-!
# SilanKernel.Ipc.SemRun

Every call on a semaphore array leaves it **at rest**: whoever still sleeps would be put to
sleep again. An operation that goes to sleep has just blocked; one that is completed, and
`SETVAL`, `SETALL` and `exit_sem`, end with `do_smart_update`; one that is interrupted leaves the
queues. The last section puts the calls together to runs.
-/

namespace SilanKernel.Ipc

open List Function Option

/-- The array between two calls. -/
structure AtRest (sma : SemArray) : Prop where
  queues : Queues sma
  settled : AllSettled sma

/-! ### After the lock has been released -/

section

variable {sma : SemArray} {w v : Nat} {q : SemQueue}

theorem setQueue_self (new : Option SemQueue) : (sma.setQueue w new).queue w = new :=
  update_self ..

theorem setQueue_of_ne (hv : v ≠ w) (new : Option SemQueue) :
    (sma.setQueue w new).queue v = sma.queue v :=
  update_of_ne hv ..

/-- The `struct sem_queue` of an operation off the queues may change. -/
theorem Queues.setQueue (h : Queues sma) (hw : w ∉ sma.semPending)
    (hnew : ∀ q' ∈ new, q'.status ≠ -EINTR) : Queues (sma.setQueue w new) := by
  let sma' := sma.setQueue w new
  have hqueue : ∀ v ∈ sma.semPending, sma'.queue v = sma.queue v := fun v hv =>
    setQueue_of_ne (fun hc : v = w => hw (hc ▸ hv)) new
  have hlist : ∀ n v, v ∈ sma.simplePending n → sma'.queue v = sma.queue v :=
    fun n v hv => hqueue v ((h.simple n v).mp hv).1
  refine ⟨h.range, h.nodup, fun v hv => ?_, fun n v => ?_, h.simpleNodup, fun n => ?_, ?_, ?_, ?_⟩
  · rw [hqueue v hv]
    exact h.waiter v hv
  · rw [show v ∈ sma'.simplePending n ↔ _ from h.simple n v]
    refine and_congr_right fun hv => ?_
    rw [hqueue v hv]
  · refine List.Pairwise.imp_of_mem ?_ (h.order n)
    intro a b ha hb hab
    rw [alterAt, alterAt, hlist n a ha, hlist n b hb]
    exact hab
  · rw [show sma'.complexCount = _ from h.count]
    exact congrArg _ (countP_congr fun v hv => by rw [complexAt, complexAt, hqueue v hv])
  · intro v r hr hst
    by_cases hv : v = w
    · subst hv
      rw [setQueue_self] at hr
      exact absurd hst (hnew r hr)
    · rw [setQueue_of_ne hv] at hr
      exact h.asleep v r hr hst
  · intro v hv r hr
    rw [hqueue v hv] at hr
    exact h.live v hv r hr

theorem AllSettled.setQueue (h : AllSettled sma) (hw : w ∉ sma.semPending) (new : Option SemQueue) :
    AllSettled (sma.setQueue w new) := by
  intro v hv
  have hvw : v ≠ w := fun hc => hw (hc ▸ hv)
  exact (h v hv).of_eq (setQueue_of_ne hvw new) rfl rfl

theorem wakeUpSemQueueDo_spec (pt : List Nat) (h : AtRest sma) (hpt : Woken sma pt) :
    Ends (wakeUpSemQueueDo sma pt) AtRest := by
  induction pt generalizing sma with
  | nil => exact .ret h
  | cons w pt ih =>
    obtain ⟨q, hq, hoff, hpid⟩ := hpt w mem_cons_self
    rw [wakeUpSemQueueDo, hq, bind_some]
    refine ih ⟨h.queues.setQueue hoff ?_, h.settled.setQueue hoff _⟩ fun v hv => ?_
    · rintro q' ⟨⟩
      exact hpid
    by_cases hvw : v = w
    · subst hvw
      exact ⟨_, setQueue_self _, hoff, hpid⟩
    · obtain ⟨r, hr, hr'⟩ := hpt v (mem_cons_of_mem w hv)
      exact ⟨r, (setQueue_of_ne hvw _).trans hr, hr'⟩

theorem woken_nil : Woken sma [] := fun _ hw => absurd hw not_mem_nil

/-- The end of every call that has updated the queues. -/
theorem wake_after {β : Type} {c : Option (SemArray × List Nat)} (f : SemArray → β)
    {Q : β → Prop} (h : Ends c Updated) (hf : ∀ sma, AtRest sma → Q (f sma)) :
    Ends (c.bind fun (sma, pt) => (wakeUpSemQueueDo sma pt).map f) Q := by
  refine .bind h fun (sma, pt) ⟨hq, hwoken, hset⟩ => ?_
  obtain ⟨sma', hdo, hrest⟩ := wakeUpSemQueueDo_spec pt ⟨hq, hset⟩ hwoken
  have hmap : (wakeUpSemQueueDo sma pt).map f = some (f sma') := by
    rw [show wakeUpSemQueueDo sma pt = some sma' from hdo, map_some]
  exact ⟨f sma', hmap, hf sma' hrest⟩

end

/-! ### Going to sleep -/

section

variable {sma : SemArray} {w : Nat} {q : SemQueue} {alter : Bool}

theorem mem_queueAdd : v ∈ queueAdd alter w l ↔ v = w ∨ v ∈ l := by
  cases alter with
  | true => simp [queueAdd, or_comm]
  | false => simp [queueAdd]

theorem perm_queueAdd (alter : Bool) (w : Nat) (l : List Nat) :
    (queueAdd alter w l).Perm (w :: l) := by
  cases alter with
  | true => exact perm_append_singleton w l
  | false => exact List.Perm.refl _

theorem enqueue_semPending : (enqueue sma w q).semPending = queueAdd q.alter w sma.semPending := by
  unfold enqueue
  split <;> rfl

theorem mem_enqueue_semPending : v ∈ (enqueue sma w q).semPending ↔ v = w ∨ v ∈ sma.semPending := by
  rw [enqueue_semPending, mem_queueAdd]

theorem enqueue_queue : (enqueue sma w q).queue = update sma.queue w (some q) := by
  unfold enqueue
  split <;> rfl

theorem enqueue_queue_of_ne (hv : v ≠ w) : (enqueue sma w q).queue v = sma.queue v := by
  rw [enqueue_queue, update_of_ne hv]

theorem enqueue_semval : (enqueue sma w q).semval = sma.semval := by
  unfold enqueue
  split <;> rfl

theorem enqueue_semadj : (enqueue sma w q).semadj = sma.semadj := by
  unfold enqueue
  split <;> rfl

theorem enqueue_listId : (enqueue sma w q).listId = sma.listId := by
  unfold enqueue
  split <;> rfl

theorem map_semNum_eq : q.sops.map Sembuf.semNum = [n] ↔ ∃ sop, q.sops = [sop] ∧ sop.semNum = n :=
  map_eq_singleton_iff

/-- A single operation is added to the queue of its semaphore. -/
theorem enqueue_simplePending (n : Nat) : (enqueue sma w q).simplePending n =
    if q.sops.map Sembuf.semNum = [n] then queueAdd q.alter w (sma.simplePending n)
    else sma.simplePending n := by
  unfold enqueue
  split
  next sop hs =>
    by_cases hn : n = sop.semNum
    · subst hn
      rw [if_pos (map_semNum_eq.mpr ⟨sop, hs, rfl⟩)]
      exact update_self ..
    · rw [if_neg fun hc => hn (by simpa [hs] using hc.symm)]
      exact update_of_ne hn ..
  next hs =>
    rw [if_neg]
    · rfl
    · intro hc
      obtain ⟨sop, hs', -⟩ := map_semNum_eq.mp hc
      exact hs sop hs'

theorem enqueue_complexCount : (enqueue sma w q).complexCount =
    sma.complexCount + if q.sops.length ≠ 1 then 1 else 0 := by
  unfold enqueue
  split
  next sop hs => simp [hs, SemArray.setQueue]
  next hs =>
    have hlen : q.sops.length ≠ 1 := by
      intro hlen
      obtain ⟨sop, hs'⟩ := length_eq_one_iff.mp hlen
      exact hs sop hs'
    rw [if_pos hlen]
    rfl

/-- A new zero waiter goes to the front of its queue, a new decrement to the end. -/
theorem pairwise_queueAdd {alterOf : Nat → Bool}
    (h : l.Pairwise fun a b => alterOf a = true → alterOf b = true) (hw : alterOf w = alter) :
    (queueAdd alter w l).Pairwise fun a b => alterOf a = true → alterOf b = true := by
  cases alter with
  | true =>
    refine pairwise_append.mpr ⟨h, pairwise_singleton _ _, ?_⟩
    intro a _ b hb _
    rw [mem_singleton.mp hb, hw]
  | false =>
    refine pairwise_cons.mpr ⟨fun b _ hwa => ?_, h⟩
    rw [hw] at hwa
    cases hwa

theorem Queues.enqueue (h : Queues sma) (hfree : sma.queue w = none) (hwait : Waiter q)
    (hlive : ∀ u ∈ q.undo, u ∈ sma.listId) : Queues (enqueue sma w q) := by
  have hw : w ∉ sma.semPending := by
    intro hw
    obtain ⟨q', hq', -⟩ := h.waiter w hw
    rw [hfree] at hq'
    cases hq'
  have hne : ∀ v ∈ sma.semPending, v ≠ w := fun v hv hc => hw (hc ▸ hv)
  let sma' := Ipc.enqueue sma w q
  have hqueue : ∀ v ∈ sma.semPending, sma'.queue v = sma.queue v := fun v hv =>
    enqueue_queue_of_ne (hne v hv)
  have hself : sma'.queue w = some q := by rw [enqueue_queue, update_self]
  have hoff : ∀ n, w ∉ sma.simplePending n := fun n hc => hw ((h.simple n w).mp hc).1
  have halter : ∀ n, ∀ v ∈ sma.simplePending n, alterAt sma' v = alterAt sma v :=
    fun n v hv => by rw [alterAt, alterAt, hqueue v ((h.simple n v).mp hv).1]
  refine ⟨?_, ?_, ?_, ?_, ?_, ?_, ?_, ?_, ?_⟩
  · intro n
    rw [enqueue_semval]
    exact h.range n
  · rw [enqueue_semPending, (perm_queueAdd _ _ _).nodup_iff]
    exact nodup_cons.mpr ⟨hw, h.nodup⟩
  · intro v hv
    rcases mem_enqueue_semPending.mp hv with rfl | hv
    · exact ⟨q, hself, hwait⟩
    · rw [hqueue v hv]
      exact h.waiter v hv
  · intro n v
    rw [enqueue_simplePending, mem_enqueue_semPending]
    by_cases hv : v = w
    · subst hv
      rw [hself]
      split
      next hsop =>
        obtain ⟨sop, hs, hn⟩ := map_semNum_eq.mp hsop
        exact ⟨fun _ => ⟨.inl rfl, q, sop, rfl, hs, hn⟩, fun _ => mem_queueAdd.mpr (.inl rfl)⟩
      next hsop =>
        refine ⟨fun hc => absurd hc (hoff n), ?_⟩
        rintro ⟨-, q', sop, hq', hs, hn⟩
        cases hq'
        exact absurd (map_semNum_eq.mpr ⟨sop, hs, hn⟩) hsop
    · have hmem : v ∈ queueAdd q.alter w (sma.simplePending n) ↔ v ∈ sma.simplePending n :=
        mem_queueAdd.trans (or_iff_right hv)
      rw [enqueue_queue_of_ne hv, or_iff_right hv, ← h.simple]
      split
      · exact hmem
      · exact Iff.rfl
  · intro n
    rw [enqueue_simplePending]
    split
    · exact (perm_queueAdd _ _ _).nodup_iff.mpr (nodup_cons.mpr ⟨hoff n, h.simpleNodup n⟩)
    · exact h.simpleNodup n
  · intro n
    have hold : (sma.simplePending n).Pairwise fun a b =>
        alterAt sma' a = true → alterAt sma' b = true := by
      refine List.Pairwise.imp_of_mem ?_ (h.order n)
      intro a b ha hb hab
      rw [halter n a ha, halter n b hb]
      exact hab
    rw [enqueue_simplePending]
    split
    · exact pairwise_queueAdd hold (by rw [alterAt, hself, any_some])
    · exact hold
  · have hcongr : sma.semPending.countP (complexAt sma') =
        sma.semPending.countP (complexAt sma) :=
      countP_congr fun v hv => by rw [complexAt, complexAt, hqueue v hv]
    have hone : complexAt sma' w = decide (q.sops.length ≠ 1) := by
      rw [complexAt, hself, any_some]
    rw [enqueue_complexCount, enqueue_semPending, h.count, (perm_queueAdd _ _ _).countP_eq,
      countP_cons, hcongr, hone]
    simp only [decide_eq_true_iff]
    split <;> simp
  · intro v r hr hst
    rw [mem_enqueue_semPending]
    by_cases hv : v = w
    · exact .inl hv
    · rw [enqueue_queue_of_ne hv] at hr
      exact .inr (h.asleep v r hr hst)
  · intro v hv r hr
    rw [enqueue_listId]
    rcases mem_enqueue_semPending.mp hv with rfl | hv
    · rw [hself] at hr
      cases hr
      exact hlive
    · rw [hqueue v hv] at hr
      exact h.live v hv r hr

theorem AtRest.enqueue (h : AtRest sma) (hfree : sma.queue w = none) (hwait : Waiter q)
    (hlive : ∀ u ∈ q.undo, u ∈ sma.listId) (hblock : Blocks sma q) : AtRest (enqueue sma w q) := by
  refine ⟨h.queues.enqueue hfree hwait hlive, fun v hv => ?_⟩
  by_cases hvw : v = w
  · subst hvw
    intro r hr
    rw [enqueue_queue, update_self] at hr
    cases hr
    exact hblock.congr enqueue_semval fun _ _ => by rw [enqueue_semadj]
  · exact (h.settled v ((mem_enqueue_semPending.mp hv).resolve_left hvw)).of_eq
      (enqueue_queue_of_ne hvw) enqueue_semval enqueue_semadj

end

/-! ### The system calls -/

section

variable {sma : SemArray} {sops : List Sembuf}

/-- Where the sum has a sign, so has one of the operations. -/
theorem exists_of_opSum {n : Nat} {r : Int → Prop} (h0 : ¬ r 0)
    (hadd : ∀ a b, r (a + b) → r a ∨ r b) (h : r (opSum n sops)) : ∃ sop ∈ sops, sop.semNum = n ∧
    r sop.op := by
  induction sops with
  | nil => exact absurd h h0
  | cons sop sops ih =>
    rw [opSum_cons] at h
    rcases hadd _ _ h with hsop | hrest
    · split at hsop
      next hn => exact ⟨sop, mem_cons_self, hn, hsop⟩
      next => exact absurd hsop h0
    · obtain ⟨sop', hmem, hsop'⟩ := ih hrest
      exact ⟨sop', mem_cons_of_mem sop hmem, hsop'⟩

/-- After a vector has been performed, whoever is not settled sleeps on a semaphore that the
loop of `do_smart_update` looks at. -/
theorem AtRest.due (h : AtRest sma) (hcount : sma.complexCount = 0) (sops : List Sembuf)
    (un : Option Nat) (pid : Int) (hv : v ∈ sma.semPending) :
    Settled (sma.perform sops un pid) v ∨ Due (sma.perform sops un pid) sops v := by
  obtain ⟨q, hq, hwait⟩ := h.queues.waiter v hv
  obtain ⟨sop, hs⟩ := h.queues.single hcount hv hq
  have hlist : v ∈ sma.simplePending sop.semNum :=
    (h.queues.simple _ v).mpr ⟨hv, q, sop, hq, hs, rfl⟩
  have hblock := h.settled v hv q hq
  rw [blocks_single hwait hs] at hblock
  have hsettled : (if sop.op = 0 then sma.semval sop.semNum + opSum sop.semNum sops ≠ 0
      else sma.semval sop.semNum + opSum sop.semNum sops + sop.op < 0) →
      Settled (sma.perform sops un pid) v := by
    intro hval r hr
    obtain rfl := some.inj (hq.symm.trans hr)
    exact (blocks_single hwait hs _).mpr hval
  rcases lt_trichotomy (opSum sop.semNum sops) 0 with hlt | heq | hgt
  · by_cases hzero : sop.op = 0
    · by_cases hnew : sma.semval sop.semNum + opSum sop.semNum sops = 0
      · obtain ⟨sop', hmem, hnum, hneg⟩ := exists_of_opSum (r := (· < 0)) (by decide) (by omega) hlt
        refine .inr ⟨sop', hmem, hnum ▸ hlist, .inr ⟨hneg, ?_⟩⟩
        rw [hnum]
        exact hnew
      · exact .inl (hsettled (by rwa [if_pos hzero]))
    · rw [if_neg hzero] at hblock
      exact .inl (hsettled (by rw [if_neg hzero]; omega))
  · rw [heq, Int.add_zero] at hsettled
    exact .inl (hsettled hblock)
  · obtain ⟨sop', hmem, hnum, hpos⟩ := exists_of_opSum (r := (0 < ·)) (by decide) (by omega) hgt
    exact .inr ⟨sop', hmem, hnum ▸ hlist, .inl hpos⟩

/-- A single operation that blocks is a decrement or waits for zero, and may sleep. -/
theorem verdict_single {sop s : Sembuf} (hr : InRange sma)
    (h : verdict sma un [sop] = some (.wouldBlock s)) : s = sop ∧ sop.op ≤ 0 := by
  have hval := (hr sop.semNum).1
  by_cases hzero : sop.op = 0 ∧ sma.semval sop.semNum ≠ 0
  · rw [verdict, semopForward, if_pos hzero] at h
    cases h
    exact ⟨rfl, hzero.1.le⟩
  by_cases hneg : sma.semval sop.semNum + sop.op < 0
  · rw [verdict, semopForward, if_neg hzero, if_pos hneg] at h
    cases h
    exact ⟨rfl, by omega⟩
  · exact absurd h (verdict_single_ne hzero hneg s)

section

variable (h : AtRest sma) {w : Nat}

include h

/-- A new undo structure is nobody's. -/
theorem findAllocUndo_ok (hfind : findAllocUndo sma ulp mem = .ok sma') :
    AtRest sma' ∧ ulp ∈ sma'.listId ∧ sma'.queue = sma.queue := by
  rw [findAllocUndo] at hfind
  by_cases hmem : ulp ∈ sma.listId
  · rw [if_pos hmem] at hfind
    cases hfind
    exact ⟨h, hmem, rfl⟩
  rw [if_neg hmem] at hfind
  cases mem with
  | false => cases hfind
  | true =>
    cases hfind
    refine ⟨⟨h.queues.congr h.queues.range rfl rfl rfl rfl fun w hw q hq u hu =>
      mem_cons_of_mem _ (h.queues.live w hw q hq u hu), fun v hv q hq => ?_⟩,
      mem_cons_self, rfl⟩
    refine (h.settled v hv q hq).congr rfl fun u hu => ?_
    have hne : u ≠ ulp := fun hc => hmem (hc ▸ h.queues.live v hv q hq u hu)
    exact update_of_ne hne ..

theorem semtimedopTry_spec (hfree : sma.queue w = none) (hne : sops ≠ []) (hundo : HasUndo un sops)
    (hlive : ∀ u ∈ un, u ∈ sma.listId) (pid now : Int) :
    Ends (semtimedopTry sma un pid w now sops) fun r => AtRest r.1 := by
  obtain ⟨v, hv, hends, htry⟩ := tryAtomicSemop_spec hundo sma pid
  rw [semtimedopTry, htry, bind_some]
  dsimp only
  by_cases hpassed : v = .passed
  · subst hpassed
    rw [if_pos rfl, if_pos (by decide)]
    have hqueues : Queues (sma.perform sops un pid) :=
      h.queues.congr (Goes.inRange hends h.queues.range) rfl rfl rfl rfl h.queues.live
    refine .ite (fun _ => ?_) fun halter => .ret ?_
    · refine wake_after (·, some 0) (doSmartUpdate_ops hqueues woken_nil true now ?_)
        fun sma' hsma' => hsma'
      exact fun hcount v hv => h.due hcount sops un pid hv
    -- The vector only waited for zero, so nothing has changed.
    have hzero : ∀ sop ∈ sops, sop.op = 0 := by
      intro sop hsop
      by_contra hop
      exact halter ⟨any_eq_true.mpr ⟨sop, hsop, decide_eq_true hop⟩, rfl⟩
    obtain ⟨hval, hadj⟩ := perform_of_zero sma hzero un pid
    exact ⟨hqueues, fun v hv => (h.settled v hv).of_eq rfl hval hadj⟩
  · rw [if_neg hpassed]
    refine .ite (fun _ => ?_) fun hpos => .ret ?_
    · rw [if_neg fun hc => hpassed (Verdict.code_eq_zero.mp hc.2)]
      exact .ret h
    obtain ⟨sop, rfl, hn⟩ := Verdict.eq_wouldBlock hpos
    refine h.enqueue hfree ⟨hne, rfl, hundo, fun sop' hs => ?_, rfl⟩ hlive ⟨sop, hv, hn⟩
    replace hs : sops = [sop'] := hs
    rw [hs] at hv
    obtain ⟨rfl, hle⟩ := verdict_single h.queues.range hv
    exact ⟨hle, hn⟩

theorem semtimedopLocked_spec (env : SemEnv) (hfree : sma.queue w = none) (hne : sops ≠ [])
    (hundo : HasUndo un sops) (hlive : ∀ u ∈ un, u ∈ sma.listId) (pid : Int) :
    Ends (semtimedopLocked sma env un pid w sops) fun r => AtRest r.1 := by
  rw [semtimedopLocked]
  refine .ite (fun _ => .ret h) fun _ => ?_
  cases env.denied with
  | some e => exact .ret h
  | none => exact semtimedopTry_spec h hfree hne hundo hlive pid env.now

theorem sysSemtimedop_spec (env : SemEnv) (ulp : Nat) (pid : Int)
    (hfree : sma.queue w = none) (sops : List Sembuf) :
    Ends (sysSemtimedop sma env ulp pid w sops) fun r => AtRest r.1 := by
  rw [sysSemtimedop]
  refine .ite (fun _ => .ret h) fun hlen => ?_
  have hne : sops ≠ [] := fun hc => hlen (by rw [hc]; decide)
  refine .ite (fun _ => .ret h) fun _ => ?_
  refine .ite (fun _ => ?_) fun hundo => ?_
  · cases hfind : findAllocUndo sma ulp env.mem with
    | error e => exact .ret h
    | ok sma' =>
      obtain ⟨h', hmem, hqueue⟩ := findAllocUndo_ok h hfind
      have hlive : ∀ u ∈ some ulp, u ∈ sma'.listId := by
        rintro u ⟨⟩
        exact hmem
      exact semtimedopLocked_spec h' env (hqueue ▸ hfree) hne (fun _ _ _ => rfl) hlive pid
  · refine semtimedopLocked_spec h env hfree hne (fun sop hsop hu => ?_) (fun u hu => ?_) pid
    · exact absurd (any_eq_true.mpr ⟨sop, hsop, hu⟩) hundo
    · cases hu

theorem semtimedopResume_spec (w : Nat) (timedOut : Bool) :
    AtRest (semtimedopResume sma w timedOut).1 := by
  rw [semtimedopResume]
  cases hq : sma.queue w with
  | none => exact h
  | some q =>
    dsimp only
    by_cases hstatus : q.status ≠ -EINTR
    · rw [if_pos hstatus]
      have hoff : w ∉ sma.semPending := fun hw => hstatus (h.queues.waiter_of hw hq).status
      exact ⟨h.queues.setQueue hoff nofun, h.settled.setQueue hoff none⟩
    rw [if_neg hstatus]
    have hw : w ∈ sma.semPending := h.queues.asleep w q hq (not_not.mp hstatus)
    refine ⟨h.queues.remove hw hq nofun, fun v hv => ?_⟩
    replace hv : v ∈ (remove sma w q none).semPending := hv
    rw [remove_semPending, h.queues.nodup.mem_erase_iff] at hv
    exact (h.settled v hv.2).of_eq (remove_queue_of_ne hv.1) remove_semval remove_semadj

theorem semctlSetval_spec (denied : Option Int) (semnum val pid now : Int) :
    Ends (semctlSetval sma denied semnum val pid now) fun r => AtRest r.1 := by
  cases denied with
  | some e => exact .ret h
  | none =>
    refine .ite (fun _ => .ret h) fun _ => ?_
    refine .ite (fun _ => .ret h) fun hval => ?_
    refine wake_after (·, 0) (doSmartUpdate_all ?_ woken_nil false now) fun sma' hsma' => hsma'
    refine h.queues.congr ?_ rfl rfl rfl rfl h.queues.live
    intro n
    by_cases hn : n = semnum.toNat
    · subst hn
      show 0 ≤ update sma.semval _ val _ ∧ update sma.semval _ val _ ≤ SEMVMX
      rw [update_self]
      omega
    · show 0 ≤ update sma.semval _ val n ∧ update sma.semval _ val n ≤ SEMVMX
      rw [update_of_ne hn]
      exact h.queues.range n

theorem semctlSetall_spec (denied : Option Int) (semIo : Nat → BitVec 16)
    (now : Int) : Ends (semctlSetall sma denied semIo now) fun r => AtRest r.1 := by
  cases denied with
  | some e => exact .ret h
  | none =>
    refine .ite (fun _ => .ret h) fun hval => ?_
    refine wake_after (·, 0) (doSmartUpdate_all ?_ woken_nil false now) fun sma' hsma' => hsma'
    refine h.queues.congr ?_ rfl rfl rfl rfl h.queues.live
    intro n
    dsimp only
    split
    next hn =>
      refine ⟨Int.natCast_nonneg _, ?_⟩
      by_contra hc
      exact hval (any_eq_true.mpr ⟨n, List.mem_range.mpr hn, decide_eq_true (not_le.mp hc)⟩)
    next => exact h.queues.range n

end

/-- The adjustments of `exit_sem` touch values and `sempid`s only. -/
theorem exitAdjust_spec (h : Queues sma) (u : Nat) (pid : Int) (i : Nat) :
    Queues (exitAdjust sma u pid i) := by
  rw [exitAdjust]
  split
  · refine h.congr ?_ rfl rfl rfl rfl h.live
    intro n
    by_cases hn : n = i
    · subst hn
      show 0 ≤ update sma.semval n _ n ∧ update sma.semval n _ n ≤ SEMVMX
      rw [update_self]
      have hmax : SEMVMX = 32767 := rfl
      split <;> split <;> omega
    · show 0 ≤ update sma.semval i _ n ∧ update sma.semval i _ n ≤ SEMVMX
      rw [update_of_ne hn]
      exact h.range n
  · exact h

theorem exitAdjusts_spec (is : List Nat) (h : Queues sma) (u : Nat) (pid : Int) :
    Queues (is.foldl (fun sma i => exitAdjust sma u pid i) sma) := by
  induction is generalizing sma with
  | nil => exact h
  | cons i is ih => exact ih (exitAdjust_spec h u pid i)

theorem exitSem_spec (h : AtRest sma)
    (hgone : ∀ w ∈ sma.semPending, ∀ q, sma.queue w = some q → q.undo ≠ some ulp) (pid now : Int) :
    Ends (exitSem sma ulp pid now) AtRest := by
  rw [exitSem]
  refine .ite (fun _ => ?_) fun _ => .ret h
  have hqueues : Queues { sma with listId := sma.listId.erase ulp } := by
    refine h.queues.congr h.queues.range rfl rfl rfl rfl fun w hw q hq u hu => ?_
    have hne : u ≠ ulp := fun hc => hgone w hw q hq (hc ▸ hu)
    exact (mem_erase_of_ne hne).mpr (h.queues.live w hw q hq u hu)
  refine .bind (doSmartUpdate_all (exitAdjusts_spec _ hqueues ulp pid) woken_nil true now)
    fun (sma', pt) hupd => ?_
  exact wakeUpSemQueueDo_spec pt ⟨hupd.1, hupd.2.2⟩ hupd.2.1

end

/-! ### Runs -/

/-- What the surroundings see to: a call's `queue` has an address of its own, and a task that
sleeps in a call does not exit. -/
def SemCall.Legal (sma : SemArray) : SemCall → Prop
  | .semop _ _ _ w _ => sma.queue w = none
  | .exit ulp _ _ => ∀ w ∈ sma.semPending, ∀ q, sma.queue w = some q → q.undo ≠ some ulp
  | _ => True

theorem semStep_spec (sma : SemArray) (call : SemCall) (h : AtRest sma) (hlegal : call.Legal sma) :
    ∃ sma', semStep sma call = some sma' ∧ AtRest sma' := by
  cases call with
  | semop env ulp pid w sops =>
    obtain ⟨r, hr, hrest⟩ := sysSemtimedop_spec h env ulp pid hlegal sops
    exact ⟨r.1, by rw [semStep, hr, map_some], hrest⟩
  | resume w timedOut => exact ⟨_, rfl, semtimedopResume_spec h w timedOut⟩
  | setval denied semnum val pid now =>
    obtain ⟨r, hr, hrest⟩ := semctlSetval_spec h denied semnum val pid now
    exact ⟨r.1, by rw [semStep, hr, map_some], hrest⟩
  | setall denied semIo now =>
    obtain ⟨r, hr, hrest⟩ := semctlSetall_spec h denied semIo now
    exact ⟨r.1, by rw [semStep, hr, map_some], hrest⟩
  | exit ulp pid now => exact exitSem_spec h hlegal pid now

theorem newary_atRest (nsems : Nat) (now : Int) : AtRest (SemArray.newary nsems now) := by
  refine ⟨⟨newary_inRange nsems now, nodup_nil, ?_, ?_, fun _ => nodup_nil,
    fun _ => List.Pairwise.nil, rfl, nofun, ?_⟩, ?_⟩
  · exact fun w hw => absurd hw not_mem_nil
  · exact fun n w => ⟨fun hw => absurd hw not_mem_nil, fun hw => absurd hw.1 not_mem_nil⟩
  · exact fun w hw => absurd hw not_mem_nil
  · exact fun w hw => absurd hw not_mem_nil

/-- Every operation on `sem_pending` would be put to sleep again by `try_atomic_semop`. -/
def PendingBlocks (sma : SemArray) : Prop :=
  ∀ w ∈ sma.semPending, ∃ q, sma.queue w = some q ∧
    ∃ sma', tryAtomicSemop sma q.sops q.undo q.pid = some (sma', 1)

theorem AtRest.pendingBlocks (h : AtRest sma) : PendingBlocks sma := by
  intro w hw
  obtain ⟨q, hq, hwait⟩ := h.queues.waiter w hw
  exact ⟨q, hq, (blocks_iff hwait sma).mp (h.settled w hw q hq)⟩

/-- **No lost wake-up.** Whatever calls are made on an array, after each of them every operation
that is still asleep would still block. -/
theorem semStep_always_pendingBlocks (nsems : Nat) (now : Int) (calls : List SemCall)
    (hlegal : Run.Along semStep SemCall.Legal (SemArray.newary nsems now) calls) :
    Run.Always semStep PendingBlocks (SemArray.newary nsems now) calls :=
  Run.Always.imp (fun _ h => h.pendingBlocks)
    (Run.always_of_along semStep_spec (newary_atRest nsems now) hlegal)

/-- Two tasks wait, one for two units and one for zero; two units arrive, the first task takes
them, and with that the second is woken up. -/
def handOver : List SemCall :=
  let env : SemEnv := { semopm := 32, mem := true, denied := none, now := 0 }
  [.semop env 0 1 0 [⟨0, -2, SEM_UNDO⟩], .setval none 0 1 9 0, .semop env 1 2 1 [⟨0, 0, 0⟩],
    .semop env 2 3 2 [⟨0, 1, 0⟩], .resume 0 false, .exit 0 1 0]

theorem semStep_handOver : Run.Always semStep PendingBlocks (SemArray.newary 1 0) handOver := by
  refine semStep_always_pendingBlocks 1 0 handOver ?_
  refine ⟨rfl, ?_⟩
  rintro _ ⟨⟩
  refine ⟨trivial, ?_⟩
  rintro _ ⟨⟩
  refine ⟨rfl, ?_⟩
  rintro _ ⟨⟩
  refine ⟨rfl, ?_⟩
  rintro _ ⟨⟩
  refine ⟨trivial, ?_⟩
  rintro _ ⟨⟩
  refine ⟨?_, ?_⟩
  · exact fun w hw => absurd hw not_mem_nil
  · rintro _ ⟨⟩
    trivial

end SilanKernel.Ipc
