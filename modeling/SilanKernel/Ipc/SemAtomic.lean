import Mathlib.Algebra.Order.Ring.Int
import SilanKernel.Ipc.Sem

/-!
# SilanKernel.Ipc.SemAtomic

What `try_atomic_semop` does to the array: **all of the vector or nothing**.

`semopForward` walks to a verdict over a part of the vector; the sums `opSum` and `undoSum`
describe what the passes add up to. `tryAtomicSemop_spec` is the one fact the rest of the
development uses. The checks of the undo values are made against the `semadj` from before the
call, one operation at a time, and the sum is then taken in 16 bits: the last section says
for which vectors that goes wrong.
-/

namespace SilanKernel.Ipc

open List Function Option SemArray Verdict

/-! ### Sums over a vector -/

/-- What the operations add to semaphore `n`. -/
def opSum (n : Nat) (sops : List Sembuf) : Int :=
  (sops.map fun sop => if sop.semNum = n then sop.op else 0).sum

/-- What the `SEM_UNDO` operations add to semaphore `n`. -/
def undoSum (n : Nat) (sops : List Sembuf) : Int :=
  (sops.map fun sop => if sop.semNum = n ∧ sop.undo then sop.op else 0).sum

@[simp] theorem opSum_nil (n : Nat) : opSum n [] = 0 := rfl

@[simp] theorem opSum_cons (n : Nat) (sop : Sembuf) (sops : List Sembuf) :
    opSum n (sop :: sops) = (if sop.semNum = n then sop.op else 0) + opSum n sops := by
  simp [opSum]

@[simp] theorem opSum_reverse (n : Nat) (sops : List Sembuf) :
    opSum n sops.reverse = opSum n sops := by
  simp only [opSum]
  exact ((reverse_perm sops).map _).sum_eq

@[simp] theorem undoSum_nil (n : Nat) : undoSum n [] = 0 := rfl

@[simp] theorem undoSum_cons (n : Nat) (sop : Sembuf) (sops : List Sembuf) :
    undoSum n (sop :: sops) = (if sop.semNum = n ∧ sop.undo then sop.op else 0) +
      undoSum n sops := by
  simp [undoSum]

@[simp] theorem undoSum_reverse (n : Nat) (sops : List Sembuf) :
    undoSum n sops.reverse = undoSum n sops := by
  simp only [undoSum]
  exact ((reverse_perm sops).map _).sum_eq

/-! ### The passes -/

/-- The values after the operations `sops`. -/
def SemArray.addOps (sma : SemArray) (sops : List Sembuf) : SemArray :=
  { sma with semval := fun n => sma.semval n + opSum n sops }

/-- The array after a vector that went through. -/
def SemArray.perform (sma : SemArray) (sops : List Sembuf) (un : Option Nat) (pid : Int) :
    SemArray :=
  { sma with
    semval := fun n => sma.semval n + opSum n sops
    sempid := fun n => if n ∈ sops.map Sembuf.semNum then pid else sma.sempid n
    semadj := fun u n =>
      if un = some u then sma.semadj u n - BitVec.ofInt 16 (undoSum n sops) else sma.semadj u n }

theorem addOps_nil (sma : SemArray) : sma.addOps [] = sma := by
  simp [addOps]

theorem setSemval_addOps (sma : SemArray) (sop : Sembuf) (sops : List Sembuf) :
    (sma.setSemval sop.semNum (sma.semval sop.semNum + sop.op)).addOps sops =
      sma.addOps (sop :: sops) := by
  simp only [addOps, setSemval, opSum_cons]
  congr 1
  funext n
  by_cases hn : n = sop.semNum
  · subst hn
    rw [update_self, if_pos rfl, Int.add_assoc]
  · rw [update_of_ne hn, if_neg (Ne.symm hn), Int.zero_add]

theorem semopUndo_eq (sma : SemArray) (done : List Sembuf) :
    semopUndo sma done = { sma with semval := fun n => sma.semval n - opSum n done } := by
  induction done generalizing sma with
  | nil => simp [semopUndo]
  | cons sop done ih =>
    rw [semopUndo, ih]
    simp only [setSemval, opSum_cons]
    congr 1
    funext n
    by_cases hn : n = sop.semNum
    · subst hn
      rw [update_self, if_pos rfl]
      omega
    · rw [update_of_ne hn, if_neg (Ne.symm hn)]
      omega

/-- Taking back what was performed. -/
theorem semopUndo_addOps (sma : SemArray) (sops : List Sembuf) :
    semopUndo (sma.addOps sops) sops.reverse = sma := by
  rw [semopUndo_eq]
  simp [addOps]

/-- An undo structure is at hand wherever the vector has a `SEM_UNDO` operation. -/
def HasUndo (un : Option Nat) (sops : List Sembuf) : Prop :=
  ∀ sop ∈ sops, sop.undo = true → un.isSome = true

theorem ofInt_op (sop : Sembuf) : BitVec.ofInt 16 sop.op = sop.semOp :=
  BitVec.ofInt_toInt

theorem semopCommit_eq (h : HasUndo un done) (sma : SemArray) : semopCommit un pid sma done = some
      { sma with
        sempid := fun n => if n ∈ done.map Sembuf.semNum then pid else sma.sempid n
        semadj := fun u n =>
          if un = some u then sma.semadj u n - BitVec.ofInt 16 (undoSum n done)
          else sma.semadj u n } := by
  induction done generalizing sma with
  | nil => simp [semopCommit]
  | cons sop done ih =>
    have hrest : HasUndo un done := fun s hs => h s (mem_cons_of_mem sop hs)
    have hpid : ∀ n, (if n ∈ done.map Sembuf.semNum then pid else
        Function.update sma.sempid sop.semNum pid n) =
        if n ∈ (sop :: done).map Sembuf.semNum then pid else sma.sempid n := by
      intro n
      by_cases hn : n = sop.semNum
      · simp [hn]
      · simp [hn]
    cases hsop : sop.undo with
    | false =>
      rw [semopCommit, hsop, if_neg (by decide), ih hrest]
      simp only [setSempid, hpid, undoSum_cons, hsop]
      simp
    | true =>
      obtain ⟨v, rfl⟩ := isSome_iff_exists.mp (h sop mem_cons_self hsop)
      rw [semopCommit, hsop, if_pos rfl, bind_some, ih hrest]
      simp only [setSempid, setSemadj, hpid, undoSum_cons, hsop]
      congr 2
      funext u n
      by_cases hu : u = v
      · subst hu
        rw [if_pos rfl, if_pos rfl, update_self]
        by_cases hn : n = sop.semNum
        · subst hn
          rw [update_self, if_pos ⟨rfl, trivial⟩, BitVec.ofInt_add, ofInt_op, BitVec.sub_sub]
        · rw [update_of_ne hn, if_neg fun hc => hn hc.1.symm, Int.zero_add]
      · have hne : (some v : Option Nat) ≠ some u := fun hc => hu (some.inj hc).symm
        rw [if_neg hne, if_neg hne, update_of_ne hu]

/-- Every value is one a semaphore may have. -/
def InRange (sma : SemArray) : Prop := ∀ n, 0 ≤ sma.semval n ∧ sma.semval n ≤ SEMVMX

/-- The operation finds the values as it needs them. -/
def Admits (sma : SemArray) (sop : Sembuf) : Prop :=
  (sop.op = 0 → sma.semval sop.semNum = 0) ∧ 0 ≤ sma.semval sop.semNum + sop.op ∧
    sma.semval sop.semNum + sop.op ≤ SEMVMX

/-- The undo value less `sum` is one a `short` can hold. -/
def UndoFits (adj : BitVec 16) (sum : Int) : Prop :=
  -SEMAEM - 1 ≤ adj.toInt - sum ∧ adj.toInt - sum ≤ SEMAEM

instance (adj : BitVec 16) (sum : Int) : Decidable (UndoFits adj sum) :=
  inferInstanceAs (Decidable (_ ∧ _))

/-- The tests of the forward loop, one by one over the vector. -/
def Goes (sma : SemArray) (un : Option Nat) : List Sembuf → Prop
  | [] => True
  | sop :: sops =>
    Admits sma sop ∧ (sop.undo = true → ∀ u ∈ un, UndoFits (sma.semadj u sop.semNum) sop.op) ∧
      Goes (sma.addOps [sop]) un sops

theorem Admits.inRange (h : Admits sma sop) (hr : InRange sma) : InRange (sma.addOps [sop]) := by
  intro n
  simp only [addOps, opSum_cons, opSum_nil]
  by_cases hn : sop.semNum = n
  · subst hn
    rw [if_pos rfl, Int.add_zero]
    exact h.2
  · rw [if_neg hn]
    simpa using hr n

theorem setSemval_eq_addOps (sma : SemArray) (sop : Sembuf) :
    sma.setSemval sop.semNum (sma.semval sop.semNum + sop.op) = sma.addOps [sop] := by
  rw [← setSemval_addOps, addOps_nil]

theorem addOps_addOps (sma : SemArray) (sop : Sembuf) (sops : List Sembuf) :
    (sma.addOps [sop]).addOps sops = sma.addOps (sop :: sops) := by
  rw [← setSemval_eq_addOps, setSemval_addOps]

theorem undoOutOfRange_eq (h : sop.undo = true → un.isSome = true) (sma : SemArray) :
    ∃ b, undoOutOfRange sma un sop = some b ∧
      (b = false ↔ (sop.undo = true → ∀ u ∈ un, UndoFits (sma.semadj u sop.semNum) sop.op)) := by
  cases hundo : sop.undo with
  | false => exact ⟨false, by simp [undoOutOfRange, hundo], by simp⟩
  | true =>
    obtain ⟨u, rfl⟩ := isSome_iff_exists.mp (h hundo)
    refine ⟨_, by rw [undoOutOfRange, if_pos hundo]; rfl, ?_⟩
    simp [UndoFits]

/-- Whether the forward loop ends at the given label with the vector in this state. -/
def EndsAt (v : Verdict) (sma : SemArray) (un : Option Nat) (sops : List Sembuf) : Prop :=
  match v with
  | .passed => Goes sma un sops
  | .outOfRange => ¬ Goes sma un sops
  | .wouldBlock _ => ¬ Goes sma un sops

theorem semopForward_spec (h : HasUndo un sops) (sma : SemArray) (done : List Sembuf) :
    ∃ pre v, semopForward un sma done sops = some (sma.addOps pre, pre.reverse ++ done, v) ∧
      EndsAt v sma un sops ∧ (v = .passed → pre = sops) := by
  induction sops generalizing sma done with
  | nil => exact ⟨[], .passed, by rw [addOps_nil]; rfl, trivial, fun _ => rfl⟩
  | cons sop sops ih =>
    rw [semopForward]
    by_cases hzero : sop.op = 0 ∧ sma.semval sop.semNum ≠ 0
    · rw [if_pos hzero]
      exact ⟨[], .wouldBlock
        sop, by rw [addOps_nil]; rfl, fun hg => hzero.2 (hg.1.1 hzero.1), nofun⟩
    rw [if_neg hzero]
    by_cases hneg : sma.semval sop.semNum + sop.op < 0
    · rw [if_pos hneg]
      exact ⟨[], .wouldBlock
        sop, by rw [addOps_nil]; rfl, fun hg => by have := hg.1.2.1; omega, nofun⟩
    rw [if_neg hneg]
    by_cases hmax : sma.semval sop.semNum + sop.op > SEMVMX
    · rw [if_pos hmax]
      exact ⟨[], .outOfRange, by rw [addOps_nil]; rfl, fun hg => by have := hg.1.2.2; omega, nofun⟩
    rw [if_neg hmax]
    have hadmits : Admits sma sop := ⟨fun h0 => by simpa [h0] using hzero, by omega, by omega⟩
    obtain ⟨b, hb, hfits⟩ := undoOutOfRange_eq (h sop mem_cons_self) sma
    rw [hb, bind_some]
    cases b with
    | true =>
      refine ⟨[], .outOfRange, by rw [addOps_nil]; rfl, fun hg => ?_, nofun⟩
      exact absurd (hfits.mpr hg.2.1) (by decide)
    | false =>
      rw [if_neg (by decide), setSemval_eq_addOps]
      obtain ⟨pre, v, hrun, hv, hpre⟩ :=
        ih (fun s hs => h s (mem_cons_of_mem sop hs)) (sma.addOps [sop]) (sop :: done)
      have hgoes : Goes sma un (sop :: sops) ↔ Goes (sma.addOps [sop]) un sops :=
        ⟨fun hg => hg.2.2, fun hg => ⟨hadmits, hfits.mp rfl, hg⟩⟩
      refine ⟨sop :: pre, v, ?_, ?_, fun hp => by rw [hpre hp]⟩
      · rw [hrun, addOps_addOps, reverse_cons, append_assoc]
        rfl
      · cases v with
        | passed => exact hgoes.mpr hv
        | wouldBlock _ => exact fun hg => hv (hgoes.mp hg)
        | outOfRange => exact fun hg => hv (hgoes.mp hg)

/-- The label at which the forward loop ends. -/
def verdict (sma : SemArray) (un : Option Nat) (sops : List Sembuf) : Option Verdict :=
  (semopForward un sma [] sops).map fun r => r.2.2

/-- The value `try_atomic_semop` returns at each label. -/
def Verdict.code : Verdict → Int
  | .passed => 0
  | .outOfRange => -ERANGE
  | .wouldBlock sop => if sop.nowait then -EAGAIN else 1

/-- **All or nothing.** The vector is performed as a whole if every test goes through, and
otherwise the array is as before. -/
theorem tryAtomicSemop_spec (h : HasUndo un sops) (sma : SemArray) (pid : Int) :
    ∃ v, verdict sma un sops = some v ∧ EndsAt v sma un sops ∧ tryAtomicSemop sma sops un pid =
        some (if v = .passed then sma.perform sops un pid else sma, v.code) := by
  obtain ⟨pre, v, hrun, hv, hpre⟩ := semopForward_spec h sma []
  rw [append_nil] at hrun
  refine ⟨v, by rw [verdict, hrun]; rfl, hv, ?_⟩
  rw [tryAtomicSemop, hrun, bind_some]
  cases v with
  | passed =>
    obtain rfl := hpre rfl
    have hrev : HasUndo un pre.reverse := fun s hs => h s (mem_reverse.mp hs)
    simp only [semopCommit_eq hrev, map_some, map_reverse, mem_reverse, undoSum_reverse]
    rfl
  | outOfRange =>
    simp only [semopUndo_addOps]
    rfl
  | wouldBlock sop =>
    simp only [semopUndo_addOps]
    rfl

/-! ### Undo values of a whole vector -/

/-- What a call of `try_atomic_semop` with the undo structure `u` should leave behind. -/
def AtomicOk (sma : SemArray) (u : Nat) (sops : List Sembuf) (r : SemArray × Int) : Prop :=
  (r.2 = 0 ∧
    (∀ n, r.1.semval n = sma.semval n + opSum n sops ∧ 0 ≤ r.1.semval n ∧ r.1.semval n ≤ SEMVMX) ∧
    ∀ n, (r.1.semadj u n).toInt = (sma.semadj u n).toInt - undoSum n sops ∧
      -SEMAEM - 1 ≤ (r.1.semadj u n).toInt ∧ (r.1.semadj u n).toInt ≤ SEMAEM) ∨
  (r.2 ≠ 0 ∧ r.1.semval = sma.semval ∧ r.1.sempid = sma.sempid ∧ r.1.semadj = sma.semadj)

theorem Goes.inRange (h : Goes sma un sops) (hr : InRange sma) : InRange (sma.addOps sops) := by
  induction sops generalizing sma with
  | nil => rwa [addOps_nil]
  | cons sop sops ih =>
    rw [← addOps_addOps]
    exact ih h.2.2 (h.1.inRange hr)

theorem Verdict.code_eq_zero {v : Verdict} : v.code = 0 ↔ v = .passed := by
  cases v with
  | passed => simp [code]
  | outOfRange => simp [code, ERANGE]
  | wouldBlock sop =>
    simp only [code, EAGAIN, reduceCtorEq, iff_false]
    split <;> decide

/-- Subtraction of `short`s gives the integers' difference exactly where that is a `short`. -/
theorem toInt_sub_ofInt_iff (adj : BitVec 16) (sum : Int) :
    (adj - BitVec.ofInt 16 sum).toInt = adj.toInt - sum ↔ UndoFits adj sum := by
  rw [BitVec.toInt_sub, BitVec.toInt_ofInt, UndoFits, SEMAEM, SEMVMX, Int.sub_bmod_bmod]
  constructor
  · intro h
    rw [← h]
    have hlo := Int.le_bmod (x := adj.toInt - sum) (m := 2 ^ 16) (by decide)
    have hhi := Int.bmod_lt (x := adj.toInt - sum) (m := 2 ^ 16) (by decide)
    omega
  · intro h
    exact Int.bmod_eq_of_le (by omega) (by omega)

/-- **`try_atomic_semop` keeps to its contract exactly when the undo values of the vector
fit.** The loop tests each `SEM_UNDO` operation against the `semadj` from before the call,
so a vector may go through whose undo values together leave the range of a `short`. -/
theorem tryAtomicSemop_ok_iff (sma : SemArray) (u : Nat) (sops : List Sembuf) (pid : Int)
    (hr : InRange sma) :
    Ends (tryAtomicSemop sma sops (some u) pid) (AtomicOk sma u sops) ↔
      (Goes sma (some u) sops → ∀ n, UndoFits (sma.semadj u n) (undoSum n sops)) := by
  have hundo : HasUndo (some u) sops := fun _ _ _ => rfl
  obtain ⟨v, -, hv, htry⟩ := tryAtomicSemop_spec hundo sma pid
  have hends : Ends (tryAtomicSemop sma sops (some u) pid) (AtomicOk sma u sops) ↔
      AtomicOk sma u sops (if v = .passed then sma.perform sops (some u) pid else sma, v.code) := by
    constructor
    · rintro ⟨r, hr', hok⟩
      obtain rfl := some.inj (htry.symm.trans hr')
      exact hok
    · intro hok
      exact ⟨_, htry, hok⟩
  rw [hends]
  by_cases hpassed : v = .passed
  · subst hpassed
    have hadj : ∀ n, ((sma.perform sops (some u) pid).semadj u n) =
        sma.semadj u n - BitVec.ofInt 16 (undoSum n sops) := fun n => if_pos rfl
    rw [if_pos rfl]
    constructor
    · intro hok _ n
      rcases hok with ⟨-, -, hall⟩ | ⟨hne, -⟩
      · have := (hall n).1
        rwa [hadj, toInt_sub_ofInt_iff] at this
      · exact absurd rfl hne
    · intro hfits
      refine Or.inl ⟨rfl, fun n => ⟨rfl, Goes.inRange hv hr n⟩, fun n => ?_⟩
      have heq := (toInt_sub_ofInt_iff _ _).mpr (hfits hv n)
      rw [hadj, heq]
      exact ⟨rfl, hfits hv n⟩
  · have hstop : ¬ Goes sma (some u) sops := by
      cases v with
      | passed => exact absurd rfl hpassed
      | wouldBlock _ => exact hv
      | outOfRange => exact hv
    rw [if_neg hpassed]
    constructor
    · intro _ hg
      exact absurd hg hstop
    · intro _
      exact Or.inr ⟨fun hc => hpassed (code_eq_zero.mp hc), rfl, rfl, rfl⟩

/-- Up by 20000, down, and up again, with both ways up to be undone. -/
def upDownUp : List Sembuf :=
  [⟨0, 20000, SEM_UNDO⟩, ⟨0, -20000, 0⟩, ⟨0, 20000, SEM_UNDO⟩]

/-- The two increments each pass the test, and the `semadj` of -40000 becomes 25536. -/
theorem upDownUp_wraps :
    ∃ r, tryAtomicSemop (SemArray.newary 1 0) upDownUp (some 0) 1 = some r ∧ r.2 = 0 ∧
      ((SemArray.newary 1 0).semadj 0 0).toInt - undoSum 0 upDownUp = -40000 ∧
      (r.1.semadj 0 0).toInt = 25536 ∧ ¬ AtomicOk (SemArray.newary 1 0) 0 upDownUp r := by
  refine ⟨_, rfl, rfl, by decide, by decide, ?_⟩
  rintro (⟨-, -, hadj⟩ | ⟨hne, -⟩)
  · exact absurd (hadj 0).1 (by decide)
  · exact hne rfl

theorem newary_inRange (nsems : Nat) (now : Int) : InRange (newary nsems now) :=
  fun _ => ⟨le_refl (0 : Int), (by decide : (0 : Int) ≤ SEMVMX)⟩

/-- One increment and one decrement, both to be undone. -/
theorem tryAtomicSemop_ok_one :
    Ends (tryAtomicSemop (SemArray.newary 1 0) [⟨0, 3, SEM_UNDO⟩, ⟨0, -1, SEM_UNDO⟩] (some 0) 1)
      (AtomicOk (SemArray.newary 1 0) 0 [⟨0, 3, SEM_UNDO⟩, ⟨0, -1, SEM_UNDO⟩]) := by
  refine (tryAtomicSemop_ok_iff _ 0 _ 1 (newary_inRange 1 0)).mpr fun _ n => ?_
  cases n with
  | zero => exact ⟨by decide, by decide⟩
  | succ n =>
    have hsum : undoSum (n + 1) [⟨0, 3, SEM_UNDO⟩, ⟨0, -1, SEM_UNDO⟩] = 0 := by
      simp
    rw [hsum]
    exact (by decide : UndoFits 0 0)

end SilanKernel.Ipc
