import SilanKernel.Csky.AlignmentBytes

/-!
# SilanKernel.Csky.AlignmentFault

The saved registers where `alignment_c` comes to `bad_or_fault`. `fixup_exception`
looks up `regs->pc` there, so `pc` should be the trapping instruction's and the other
registers should be as on entry.

The handlers keep the registers when they fail, all but the load of four words. `pc` has
been moved on by then; the code takes it back by two, whatever the size of the
instruction, and only after a handler has failed.
-/

namespace SilanKernel.Csky

open Function List PtRegs TrapEnv Triple

/-- The registers are `R`. -/
def RegsAre (R : Nat → BitVec 32) (t : Trapped) : Prop := t.regs = R

/-- What may fail only with these registers. -/
abbrev FailsWith (R : Nat → BitVec 32) (p : Handle Unit) : Prop :=
  Triple (RegsAre R) p (fun _ _ => True) (RegsAre R)

/-- A handler that leaves the registers alone when it fails. -/
def KeepsOnFault (p : Handle Unit) : Prop :=
  ∀ R, Triple (RegsAre R) p (fun _ _ => True) (RegsAre R)

theorem KeepsOnFault.regs_eq (hp : KeepsOnFault p) (h : p t = .error e t') : t'.regs = t.regs := by
  have ht := hp t.regs t rfl
  rwa [h] at ht

section

variable {env : TrapEnv} {instr : BitVec 32}

theorem triple_getUnaligned : Triple (RegsAre R) (env.getUnaligned shifts a) (fun _ => RegsAre R)
    (RegsAre R) := by
  intro t ht
  rw [getUnaligned_eq]
  split_ifs
  · exact ht
  · exact ht

theorem triple_putUnaligned : Triple (RegsAre R) (env.putUnaligned n v a) (fun _ => RegsAre R)
    (RegsAre R) := by
  intro t ht
  unfold putUnaligned
  cases env.putBytes n t.mem v a with
  | mk mem ok =>
    cases ok with
    | true => exact ht
    | false => exact ht

theorem triple_true (h : Triple P p Q E) : Triple P p (fun _ _ => True) E := by
  intro t ht
  have hp := h t ht
  cases hr : p t with
  | ok _ _ => trivial
  | error _ _ =>
    rw [hr] at hp
    exact hp

theorem triple_modify : FailsWith R (modify f) :=
  .modify fun _ _ => trivial

theorem triple_loadV2 : FailsWith R (loadV2 regz v) :=
  .ite (fun _ => triple_modify) fun _ =>
    .ite (fun _ => .throw fun _ h => h) fun _ => triple_modify

/-- The end of a load, ABIv1: register zero cannot be loaded. -/
theorem triple_loadV1 : FailsWith R (if regz = 0 then throw () else if regz = 1 then modify f else
      if regz = r then modify g else modify h) :=
  .ite (fun _ => .throw fun _ h => h) fun _ =>
    .ite (fun _ => triple_modify) fun _ => .ite (fun _ => triple_modify) fun _ => triple_modify

theorem triple_get (hk : ∀ t, FailsWith R (k t)) : FailsWith R (get >>= k) :=
  .get fun t _ => (hk t).pre fun _ h => h.2

/-- A store, or a load that writes a register at its end. -/
theorem triple_transfer {c : Prop} [Decidable c] (hload : ∀ val, FailsWith R (load val)) :
    FailsWith R (if c then env.putUnaligned n v a else env.getUnaligned shifts a >>= load) :=
  .ite (fun _ => triple_true triple_putUnaligned) fun _ => .bind triple_getUnaligned hload

/-- The handlers of half words and of words differ only in the bytes they transfer. -/
theorem ldst_keeps : KeepsOnFault (env.alignmentHandleLdhsth addr instr) ∧
    KeepsOnFault (env.alignmentHandleLdwstw addr instr) := by
  constructor
  all_goals
    intro R
    apply triple_get
    intro t
    apply Triple.ite
    · intro _
      apply Triple.ite
      · exact fun _ => triple_transfer fun _ => triple_loadV2
      · exact fun _ => triple_transfer fun _ => triple_modify
    · exact fun _ => triple_transfer fun _ => triple_loadV1

theorem ldhs_keeps : KeepsOnFault (env.alignmentHandleLdhs addr instr) :=
  fun _ => .bind triple_getUnaligned fun _ => triple_loadV2

theorem lddstd_keeps : KeepsOnFault (env.alignmentHandleLddstd addr instr) := by
  intro R
  apply Triple.ite
  · intro _
    apply triple_get
    intro t
    exact bind triple_putUnaligned fun _ => triple_true triple_putUnaligned
  intro _
  apply bind triple_getUnaligned
  intro val1
  apply bind triple_getUnaligned
  intro val2
  apply ite (fun _ => triple_modify)
  intro _
  exact ite (fun _ => triple_modify) fun _ => Triple.throw fun _ h => h

theorem stq_keeps (hstore : instr &&& 0x1000 ≠ 0) :
    KeepsOnFault (env.alignmentHandleLdqstq addr instr) := by
  intro R
  rw [alignmentHandleLdqstq, if_pos hstore]
  apply triple_get
  intro t
  apply bind triple_putUnaligned
  intro _
  apply bind triple_putUnaligned
  intro _
  exact .bind triple_putUnaligned fun _ => triple_true triple_putUnaligned

end

/-! ### The load of four words -/

/-- Words loaded into registers one after the other. -/
def loadWords (env : TrapEnv) : List (Nat × Addr) → Handle Unit
  | [] => pure ()
  | (r, a) :: l => do
    let val ← env.get32 a
    modify (·.setReg r val)
    loadWords env l

/-- The registers written before the first word that cannot be read held those values
already. -/
def KeptBeforeFault (env : TrapEnv) (t : Trapped) : List (Nat × Addr) → Prop
  | [] => True
  | (r, a) :: l => env.Reads a 4 → t.regs r = wordAt env.be t.mem a ∧ KeptBeforeFault env t l

/-- The registers of `ldq` and the addresses it loads them from. -/
def ldqWords (addr : Addr) : List (Nat × Addr) :=
  [(A2, addr), (A3, addr + 1), (REGS 0, addr + 1 + 1), (REGS 1, addr + 1 + 1 + 1)]

section

variable {env : TrapEnv} {t t' : Trapped} {instr : BitVec 32}

theorem ldq_eq_loadWords (hload : instr &&& 0x1000 = 0) :
    env.alignmentHandleLdqstq addr instr = loadWords env (ldqWords addr) := by
  rw [alignmentHandleLdqstq, if_neg (not_not_intro hload)]
  simp only [ldqWords, loadWords, bind_pure_unit]

theorem loadWords_ok (h : ∀ x ∈ l, env.Reads x.2 4) : loadWords env l t =
      .ok () (l.foldl (fun u x => u.setReg x.1 (wordAt env.be t.mem x.2)) t) := by
  induction l generalizing t with
  | nil => rfl
  | cons x l ih =>
    have hget := (get32_eq env x.2 t).trans (if_pos (h x mem_cons_self))
    exact ((bind_of_ok hget).trans (bind_of_ok rfl)).trans
      (ih fun y hy => h y (mem_cons_of_mem _ hy))

/-- The words do not depend on the registers they are loaded into. -/
theorem keptBeforeFault_setReg (hr : ∀ x ∈ l, x.1 ≠ r) :
    KeptBeforeFault env (t.setReg r v) l ↔ KeptBeforeFault env t l := by
  induction l with
  | nil => rfl
  | cons x l ih =>
    have hx : (t.setReg r v).regs x.1 = t.regs x.1 := update_of_ne (hr x (mem_cons_self ..)) _ _
    simp only [KeptBeforeFault, hx, ih fun y hy => hr y (mem_cons_of_mem _ hy)]
    rfl

/-- A load that stops has changed only registers of its list, and none at all exactly
when those it wrote held the loaded values. -/
theorem loadWords_error (hnodup : (l.map Prod.fst).Nodup) (h : loadWords env l t = .error () t') :
    (∀ r, r ∉ l.map Prod.fst → t'.regs r = t.regs r) ∧
      (t'.regs = t.regs ↔ KeptBeforeFault env t l) := by
  induction l generalizing t with
  | nil => exact nomatch h
  | cons x l ih =>
    obtain ⟨r, a⟩ := x
    rw [map_cons, nodup_cons] at hnodup
    have hr : ∀ x ∈ l, x.1 ≠ r := by
      intro x hx heq
      exact hnodup.1 (mem_map.mpr ⟨x, hx, heq⟩)
    by_cases hread : env.Reads a 4
    · have hget : env.get32 a t = .ok (wordAt env.be t.mem a) t :=
        (get32_eq env a t).trans (if_pos hread)
      have hrest : loadWords env l (t.setReg r (wordAt env.be t.mem a)) = .error () t' :=
        ((bind_of_ok hget).trans (bind_of_ok rfl)).symm.trans h
      obtain ⟨hframe, hiff⟩ := ih hnodup.2 hrest
      rw [keptBeforeFault_setReg hr] at hiff
      constructor
      · intro q hq
        rw [map_cons, mem_cons, not_or] at hq
        rw [hframe q hq.2]
        exact update_of_ne hq.1 _ _
      simp only [KeptBeforeFault, hread, true_implies]
      -- the register just written keeps the loaded word to the end
      have hlast : t'.regs r = wordAt env.be t.mem a := by
        rw [hframe r hnodup.1]
        exact update_self ..
      have hsame : t.regs r = wordAt env.be t.mem a →
          (t.setReg r (wordAt env.be t.mem a)).regs = t.regs := by
        intro heq
        rw [← heq]
        exact update_eq_self ..
      constructor
      · intro heq
        have hreg : t.regs r = wordAt env.be t.mem a := by rw [← hlast, heq]
        exact ⟨hreg, hiff.mp (heq.trans (hsame hreg).symm)⟩
      · intro ⟨hreg, hkept⟩
        exact (hiff.mpr hkept).trans (hsame hreg)
    · have hget : env.get32 a t = .error () t := (get32_eq env a t).trans (if_neg hread)
      have hstop : t = t' := by
        have herr := (bind_of_error hget).symm.trans h
        exact (EStateM.Result.error.inj herr).2
      subst hstop
      exact ⟨fun _ _ => rfl, iff_of_true rfl fun h => absurd h hread⟩

end

/-! ### Back at the trap -/

/-- The 16-bit instructions that have a handler. -/
def Handled (env : TrapEnv) (instr : BitVec 32) : Prop :=
  if env.config.abiV2 then instr &&& 0x8000 ≠ 0 else instr &&& 0x8000 ≠ 0 ∨ instr &&& 0x60 = 0x40

/-- When the registers at `bad_or_fault` are those on entry: the instruction could not
be read, or it is a 16-bit instruction with a handler, and that has not overwritten a
register before it failed. -/
def RegsRestored (env : TrapEnv) (t : Trapped) : Prop :=
  match env.fetch t with
  | none => True
  | some (instr, isize) =>
    isize = 2 ∧ Handled env instr ∧
      (env.config.abiV2 = false → instr &&& 0x8000 = 0 → instr &&& 0x1000 = 0 →
        KeptBeforeFault env t (ldqWords (env.quadBase t instr)))

section

variable {env : TrapEnv} {t t' : Trapped} {instr isize : BitVec 32}

theorem decode_none (h : env.decode t instr isize = none) : ¬ (isize = 2 ∧ Handled env instr) := by
  intro ⟨hsize, hhandled⟩
  subst hsize
  unfold decode at h
  unfold Handled at hhandled
  by_cases habi : env.config.abiV2 = true
  · rw [if_pos habi] at h hhandled
    simp only [decodeV2, if_pos hhandled, if_true] at h
    split_ifs at h
  · rw [if_neg habi] at h hhandled
    simp only [decodeV1] at h
    split_ifs at h with h8 _ h6
    exact h6 (hhandled.resolve_left h8)

/-- The handlers `alignment_c` chooses: all keep the registers on a fault, or it is
`ldq`. A 16-bit instruction among them is a handled one. -/
theorem decode_some (h : env.decode t instr isize = some handler) :
    (isize = 2 → Handled env instr) ∧ (KeepsOnFault handler ∧
          (env.config.abiV2 = false → instr &&& 0x8000 = 0 → instr &&& 0x1000 ≠ 0) ∨
        env.config.abiV2 = false ∧ instr &&& 0x8000 = 0 ∧ instr &&& 0x1000 = 0 ∧
          handler = env.alignmentHandleLdqstq (env.quadBase t instr) instr) := by
  unfold decode at h
  by_cases habi : env.config.abiV2 = true
  · rw [if_pos habi] at h
    simp only [decodeV2] at h
    constructor
    · intro hsize
      rw [if_pos hsize] at h
      rw [Handled, if_pos habi]
      intro h8
      rw [if_neg (not_not_intro h8)] at h
      exact nomatch h
    left
    constructor
    · split_ifs at h <;> obtain rfl := Option.some.inj h
      · exact ldst_keeps.2
      · exact ldst_keeps.2
      · exact ldst_keeps.1
      · exact ldst_keeps.1
      · exact ldst_keeps.2
      · exact lddstd_keeps
      · exact ldhs_keeps
    · intro hv1
      exact absurd (habi.symm.trans hv1) Bool.true_eq_false.mp
  · rw [if_neg habi] at h
    simp only [decodeV1] at h
    rw [Handled, if_neg habi]
    split_ifs at h with h8 _ h6 <;> obtain rfl := Option.some.inj h
    · exact ⟨fun _ => .inl h8, .inl ⟨ldst_keeps.1, fun _ h => absurd h h8⟩⟩
    · exact ⟨fun _ => .inl h8, .inl ⟨ldst_keeps.2, fun _ h => absurd h h8⟩⟩
    · refine ⟨fun _ => .inr h6, ?_⟩
      by_cases hstore : instr &&& 0x1000 = 0
      · exact .inr ⟨Bool.eq_false_iff.mpr habi, not_not.mp h8, hstore, rfl⟩
      · exact .inl ⟨stq_keeps hstore, fun _ _ => hstore⟩

theorem fetch_isize (h : env.fetch t = some (instr, isize)) : isize = 2 ∨ isize = 4 := by
  obtain ⟨tinstr, -, h⟩ := Option.bind_eq_some_iff.mp h
  split_ifs at h
  · obtain ⟨tinst2, -, h⟩ := Option.bind_eq_some_iff.mp h
    cases h
    exact .inr rfl
  · cases h
    exact .inl rfl

/-- The address of `ldq` does not depend on `pc`. -/
theorem quadBase_setReg_pc (v : BitVec 32) : env.quadBase (t.setReg PC v) instr =
    env.quadBase t instr := by
  have hslot : ∀ k, (t.setReg PC v).regs (k + 1) = t.regs (k + 1) :=
    fun k => update_of_ne (Nat.succ_ne_zero k) v t.regs
  have h9 : (t.setReg PC v).regs (REGS 9) = t.regs (REGS 9) := hslot 15
  simp only [quadBase, hslot, h9]

/-- `pc` comes back only if it went on by two. -/
theorem pc_back_eq_iff (pc : BitVec 32) (h : isize = 2 ∨ isize = 4) : pc + isize - 2 = pc ↔
    isize = 2 := by
  obtain rfl | rfl := h
  · exact iff_of_true (by bv_omega) rfl
  · exact iff_of_false (by bv_omega) (by decide)

/-- After a failed handler: the registers are those on entry if the instruction has 16 bits
and the handler, which does not touch `pc`, has kept them. -/
theorem setReg_pc_back_iff (h : isize = 2 ∨ isize = 4) (hpc : t'.regs PC = t.regs PC + isize) :
    (t'.setReg PC (t'.regs PC - 2)).regs = t.regs ↔
      isize = 2 ∧ t'.regs = (t.setReg PC (t.regs PC + isize)).regs := by
  simp only [Trapped.setReg, hpc]
  constructor
  · intro heq
    have hback := congrFun heq PC
    rw [update_self] at hback
    refine ⟨(pc_back_eq_iff _ h).mp hback, ?_⟩
    funext r
    by_cases hr : r = PC
    · rw [hr, hpc, update_self]
    · rw [update_of_ne hr, ← congrFun heq r, update_of_ne hr]
  · intro ⟨hsize, heq⟩
    rw [heq, update_idem, (pc_back_eq_iff _ h).mpr hsize, update_eq_self]

theorem fixup_regs_iff (h : env.fixup t instr isize = .badOrFault t')
    (hsize : isize = 2 ∨ isize = 4) :
    t'.regs = t.regs ↔ isize = 2 ∧ Handled env instr ∧
        (env.config.abiV2 = false → instr &&& 0x8000 = 0 → instr &&& 0x1000 = 0 →
          KeptBeforeFault env t (ldqWords (env.quadBase t instr))) := by
  simp only [fixup] at h
  let t' := t.setReg PC (t.regs PC + isize)
  have hentry : t'.regs PC = t.regs PC + isize  :=
    update_self PC _ t.regs
  cases hd : env.decode t' instr isize with
  | none =>
    rw [hd] at h
    obtain rfl := TrapEnd.badOrFault.inj h
    apply iff_of_false
    · intro heq
      have hpc := (congrFun heq PC).symm.trans hentry
      obtain rfl | rfl := hsize
      · bv_omega
      · bv_omega
    · intro ⟨h2, hhandled, _⟩
      exact decode_none hd ⟨h2, hhandled⟩
  | some handler =>
    rw [hd] at h
    dsimp only at h
    obtain ⟨hhandled, hcases⟩ := decode_some hd
    cases hrun : handler t' with
    | ok _ _ =>
      rw [hrun] at h
      exact nomatch h
    | error _ t2 =>
      rw [hrun] at h
      obtain rfl := TrapEnd.badOrFault.inj h
      obtain ⟨hkeeps, hnot⟩ | ⟨habi, h8, hload, rfl⟩ := hcases
      · have hregs := hkeeps.regs_eq hrun
        have hpc : t2.regs PC = t.regs PC + isize := (congrFun hregs PC).trans hentry
        rw [setReg_pc_back_iff hsize hpc]
        constructor
        · intro ⟨h2, _⟩
          exact ⟨h2, hhandled h2, fun habi h8 hload => absurd hload (hnot habi h8)⟩
        · intro ⟨h2, _⟩
          exact ⟨h2, hregs⟩
      · rw [ldq_eq_loadWords hload, quadBase_setReg_pc] at hrun
        obtain ⟨hframe, hiff⟩ := loadWords_error (by simp [ldqWords, A2, A3, REGS]) hrun
        have hpc : t2.regs PC = t.regs PC + isize :=
          (hframe PC (by simp [ldqWords, A2, A3, REGS, PC])).trans hentry
        rw [keptBeforeFault_setReg (by simp [ldqWords, A2, A3, REGS, PC])] at hiff
        rw [setReg_pc_back_iff hsize hpc, hiff]
        constructor
        · intro ⟨h2, hkept⟩
          exact ⟨h2, hhandled h2, fun _ _ _ => hkept⟩
        · intro ⟨h2, _, hkept⟩
          exact ⟨h2, hkept habi h8 hload⟩

end

/-- **The registers at `bad_or_fault`** are those on entry exactly under `RegsRestored`:
`pc` comes back only for a 16-bit instruction whose handler has failed. -/
theorem badOrFault_regs_iff (env : TrapEnv) (t t' : Trapped)
    (h : env.alignmentC t = .badOrFault t') :
    t'.regs = t.regs ↔ RegsRestored env t := by
  unfold alignmentC at h
  unfold RegsRestored
  cases hf : env.fetch t with
  | none =>
    rw [hf] at h
    obtain rfl := TrapEnd.badOrFault.inj h
    exact iff_of_true rfl trivial
  | some fetched =>
    obtain ⟨instr, isize⟩ := fetched
    rw [hf] at h
    have hfixup : env.fixup t instr isize = .badOrFault t' := by
      split_ifs at h
      · exact h
      · exact h
    exact fixup_regs_iff hfixup (fetch_isize hf)

/-- A little-endian ABIv1 machine that can read below `0x2000`. -/
def lowEnv : TrapEnv :=
  { config := ⟨false, false, false⟩
    be := false
    readable := fun a => a < 0x2000
    writable := fun _ => true
    usp := 0
    regs := 0
    aiUsermode := UM_FIXUP }

/-- A trap in the kernel at `0x1000`, where all of memory holds the bytes `lo` and `hi` in
turn. -/
def trapOn (hi lo : BitVec 8) : Trapped where
  regs r := if r = PC then 0x1000 else if r = SR then PS_S else 0x2001
  mem a := if a.getLsbD 0 then hi else lo

/-- `ld.h r3, (r2, 0)` at an address that cannot be read. -/
theorem badOrFault_regs_iff_ldh :
    ∃ t', lowEnv.alignmentC (trapOn 0xC3 0x02) = .badOrFault t' ∧
      t'.regs = (trapOn 0xC3 0x02).regs := by
  refine ⟨_, rfl, (badOrFault_regs_iff lowEnv (trapOn 0xC3 0x02) _ rfl).mpr ?_⟩
  have hf : lowEnv.fetch (trapOn 0xC3 0x02) = some (0xC302, 2) := rfl
  rw [RegsRestored, hf]
  exact ⟨rfl, .inl (by decide), fun _ h => absurd h (by decide)⟩

/-- The word 0, which no handler takes, is met at `0x1000` and looked up at `0x1002`. -/
theorem badOrFault_pc_moved :
    ∃ t', lowEnv.alignmentC (trapOn 0 0) = .badOrFault t' ∧ (trapOn 0 0).regs PC = 0x1000 ∧
      t'.regs PC = 0x1002 :=
  ⟨_, rfl, by decide, by decide⟩

end SilanKernel.Csky
