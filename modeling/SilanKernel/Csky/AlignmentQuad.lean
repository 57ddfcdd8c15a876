import SilanKernel.Csky.AlignmentFault

/-!
# SilanKernel.Csky.AlignmentQuad

`alignment_handle_ldqstq`, the emulation of the four-word transfers `ldq` and `stq`.
The four words it accesses lie one byte apart, so they overlap.
-/

namespace SilanKernel.Csky

open Function PtRegs TrapEnv

/-! ### `ldq` and `stq` -/

/-- The byte at offset `j` of the `k`-th of the registers `r4` to `r7`. -/
def quadByte (be : Bool) (t : Trapped) (k j : Nat) : BitVec 8 :=
  byteOf be 4 (t.regs (A2 + k)) j

/-- The memory after `r4` to `r7` have been stored at `addr`, `addr + 4`, `addr + 8` and
`addr + 12`. -/
def storedQuad (be : Bool) (t : Trapped) (addr : Addr) : Addr → BitVec 8 := fun b =>
  let j := (b - addr).toNat
  if j < 16 then quadByte be t (j / 4) (j % 4) else t.mem b

/-- The registers after `r4` to `r7` have been loaded from there. -/
def loadedQuad (be : Bool) (t : Trapped) (addr : Addr) : Nat → BitVec 32 := fun r =>
  if A2 ≤ r ∧ r < A2 + 4 then wordAt be t.mem (addr + BitVec.ofNat 32 (4 * (r - A2))) else t.regs r

/-- What the four overlapping stores leave at offset `j`, as far as they reach: the
first byte of each of the first three registers, then all of the last. -/
def overlapByte (be : Bool) (t : Trapped) (j : Nat) : BitVec 8 :=
  if j < 3 then quadByte be t j 0 else quadByte be t 3 (j - 3)

/-- The memory the handler leaves. -/
def overlapped (be : Bool) (t : Trapped) (addr : Addr) : Addr → BitVec 8 := fun b =>
  let j := (b - addr).toNat
  if j < 7 then overlapByte be t j else t.mem b

section

variable {env : TrapEnv} {t : Trapped} {addr : Addr} {be : Bool} {j : Nat}

theorem stored_stored_eq_overlapped : stored be 4 (t.regs (REGS 1)) (addr + 1 + 1 + 1)
      (stored be 4 (t.regs (REGS 0)) (addr + 1 + 1)
        (stored be 4 (t.regs A3) (addr + 1) (stored be 4 (t.regs A2) addr t.mem))) =
      overlapped be t addr := by
  funext b
  have h1 : (b - (addr + 1)).toNat = ((b - addr).toNat + (2 ^ 32 - 1)) % 2 ^ 32 := by bv_omega
  have h2 : (b - (addr + 1 + 1)).toNat = ((b - addr).toNat + (2 ^ 32 - 2)) % 2 ^ 32 := by bv_omega
  have h3 : (b - (addr + 1 + 1 + 1)).toNat = ((b - addr).toNat + (2 ^ 32 - 3)) % 2 ^ 32 := by
    bv_omega
  have hlt := (b - addr).isLt
  simp only [stored, overlapped, h1, h2, h3]
  generalize (b - addr).toNat = j at hlt
  by_cases hj : j < 7
  · rw [if_pos hj]
    interval_cases j <;> rfl
  · rw [if_neg hj, if_neg (by omega), if_neg (by omega), if_neg (by omega), if_neg (by omega)]

theorem sub_toNat_add (b addr : Addr) : addr + BitVec.ofNat 32 (b - addr).toNat = b := by
  bv_omega

theorem toNat_add_sub (hj : j < 2 ^ 32) : (addr + BitVec.ofNat 32 j - addr).toNat = j := by
  bv_omega

theorem TrapEnv.Reads.shift (h : env.Reads addr n) (hk : k + m ≤ n) :
    env.Reads (addr + BitVec.ofNat 32 k) m := by
  intro j hj
  rw [addr_add]
  exact h (k + j) (by omega)

theorem TrapEnv.Writes.shift (h : env.Writes addr n) (hk : k + m ≤ n) :
    env.Writes (addr + BitVec.ofNat 32 k) m := by
  intro j hj
  rw [addr_add]
  exact h (k + j) (by omega)

/-- The store branch. -/
theorem stq_eq (hstore : instr &&& 0x1000 ≠ 0) (hw : env.Writes addr 7) (t : Trapped) :
    env.alignmentHandleLdqstq addr instr t = .ok () { t with mem := overlapped env.be t addr } := by
  have h1 : addr + 1 + 1 = addr + 2 := addr_add addr 1 1
  have h2 : addr + 2 + 1 = addr + 3 := addr_add addr 2 1
  have hw0 : env.Writes addr 4 := fun j hj => hw j (by omega)
  have hw1 : env.Writes (addr + 1) 4 := hw.shift (k := 1) (by omega)
  have hw2 : env.Writes (addr + 2) 4 := hw.shift (k := 2) (by omega)
  have hw3 : env.Writes (addr + 3) 4 := hw.shift (k := 3) (by omega)
  rw [← stored_stored_eq_overlapped, alignmentHandleLdqstq, if_pos hstore, h1, h2]
  apply (bind_of_ok rfl).trans
  apply (bind_of_ok (put_eq (.inr rfl) hw0 _ _)).trans
  apply (bind_of_ok (put_eq (.inr rfl) hw1 _ _)).trans
  apply (bind_of_ok (put_eq (.inr rfl) hw2 _ _)).trans
  exact put_eq (.inr rfl) hw3 _ _

/-- The registers the load branch leaves. -/
theorem ldq_regs (hload : ¬ instr &&& 0x1000 ≠ 0) (hr : env.Reads addr 7) (t : Trapped) :
    env.alignmentHandleLdqstq addr instr t =
      .ok () { t with
        regs := fun r =>
          if A2 ≤ r ∧ r < A2 + 4 then wordAt env.be t.mem (addr + BitVec.ofNat 32 (r - A2))
          else t.regs r } := by
  have h1 : addr + 1 + 1 = addr + 2 := addr_add addr 1 1
  have h2 : addr + 2 + 1 = addr + 3 := addr_add addr 2 1
  have hreads : ∀ x ∈ ldqWords addr, env.Reads x.2 4 := by
    rw [ldqWords, h1, h2]
    simp only [List.forall_mem_cons]
    exact ⟨fun j hj => hr j (by omega), hr.shift (k := 1) (by omega), hr.shift (k := 2) (by omega),
      hr.shift (k := 3) (by omega), List.forall_mem_nil _⟩
  rw [ldq_eq_loadWords (not_not.mp hload), loadWords_ok hreads, ldqWords, h1, h2]
  simp only [List.foldl, Trapped.setReg]
  congr 2
  funext r
  by_cases h : A2 ≤ r ∧ r < A2 + 4
  · rw [if_pos h]
    simp only [A2] at h
    obtain ⟨hlo, hhi⟩ := h
    interval_cases r
    · exact congrArg (wordAt env.be t.mem) (BitVec.add_zero addr).symm
    · rfl
    · rfl
    · rfl
  · rw [if_neg h]
    simp only [A2] at h
    rw [update_of_ne, update_of_ne, update_of_ne, update_of_ne] <;>
      simp only [A2, A3, REGS] <;> omega

/-! #### When the transfer is right -/

theorem overlapped_apply (hj : j < 16) : overlapped be t addr (addr + BitVec.ofNat 32 j) =
      if j < 7 then overlapByte be t j else t.mem (addr + BitVec.ofNat 32 j) := by
  simp only [overlapped, toNat_add_sub (show j < 2 ^ 32 by omega)]

theorem storedQuad_apply (hj : j < 16) :
    storedQuad be t addr (addr + BitVec.ofNat 32 j) = quadByte be t (j / 4) (j % 4) := by
  simp only [storedQuad, toNat_add_sub (show j < 2 ^ 32 by omega), if_pos hj]

/-- Two memories that agree on the 16 bytes and outside them. -/
theorem overlapped_eq_storedQuad_iff : overlapped be t addr = storedQuad be t addr ↔
      (∀ j, j < 7 → overlapByte be t j = quadByte be t (j / 4) (j % 4)) ∧
        ∀ j, 7 ≤ j → j < 16 → t.mem (addr + BitVec.ofNat 32 j) = quadByte be t (j / 4) (j % 4) := by
  constructor
  · intro h
    constructor
    · intro j hj
      have hbyte := congrFun h (addr + BitVec.ofNat 32 j)
      rwa [overlapped_apply (by omega), storedQuad_apply (by omega), if_pos hj] at hbyte
    · intro j hlo hj
      have hbyte := congrFun h (addr + BitVec.ofNat 32 j)
      rwa [overlapped_apply hj, storedQuad_apply hj, if_neg (by omega)] at hbyte
  · intro ⟨hlow, hhigh⟩
    funext b
    by_cases hj : (b - addr).toNat < 16
    · rw [← sub_toNat_add b addr, overlapped_apply hj, storedQuad_apply hj]
      split_ifs with h7
      · exact hlow _ h7
      · exact hhigh _ (by omega) hj
    · rw [overlapped, storedQuad]
      simp only [if_neg hj, if_neg (show ¬ (b - addr).toNat < 7 by omega)]

theorem wordAt_overlapped_iff {k : Nat} (hk : k < 4) :
    wordAt be (overlapped be t addr) (addr + BitVec.ofNat 32 k) = t.regs (A2 + k) ↔
      ∀ j, j < 4 → overlapByte be t (k + j) = quadByte be t k j := by
  rw [wordAt_eq_iff]
  have hbyte : ∀ j, j < 4 →
      overlapped be t addr (addr + BitVec.ofNat 32 k + BitVec.ofNat 32 j) = overlapByte be t
      (k + j) := by
    intro j hj
    rw [addr_add, overlapped_apply (by omega), if_pos (by omega)]
  constructor
  · intro h j hj
    rw [← hbyte j hj]
    exact h j hj
  · intro h j hj
    rw [hbyte j hj]
    exact h j hj

/-- The four slots hold `f` and the others are as they were. -/
theorem quad_regs_eq_iff {f g : Nat → BitVec 32} (h : ∀ r, ¬ (A2 ≤ r ∧ r < A2 + 4) → f r = g r) :
    f = g ↔ ∀ k, k < 4 → f (A2 + k) = g (A2 + k) := by
  constructor
  · intro heq k _
    rw [heq]
  intro heq
  funext r
  by_cases hr : A2 ≤ r ∧ r < A2 + 4
  · have hk := heq (r - A2) (by omega)
    rwa [Nat.add_sub_cancel' hr.1] at hk
  · exact h r hr

end

/-- **`ldq` and `stq`.** Because the address moves on by one byte where it should move on
by a word, the store is right exactly when the bytes that overlap agree and the memory
behind them already holds the rest; the load exactly when the words at distance one are
the words at distance four; and what an `stq` has stored comes back with an `ldq` exactly
when the registers agree on the bytes they share. -/
theorem ldqstq_right_iff (env : TrapEnv) (t : Trapped) (addr : Addr) (stq ldq : BitVec 32)
    (hstq : stq &&& 0x1000 ≠ 0) (hldq : ldq &&& 0x1000 = 0) (hw : env.Writes addr 16)
    (hr : env.Reads addr 16) :
    (env.alignmentHandleLdqstq addr stq t = .ok () { t with mem := storedQuad env.be t addr } ↔
      (∀ j, j < 7 → overlapByte env.be t j = quadByte env.be t (j / 4) (j % 4)) ∧
        ∀ j, 7 ≤ j → j < 16 →
          t.mem (addr + BitVec.ofNat 32 j) = quadByte env.be t (j / 4) (j % 4)) ∧
    (env.alignmentHandleLdqstq addr ldq t = .ok () { t with regs := loadedQuad env.be t addr } ↔
      ∀ k, k < 4 → wordAt env.be t.mem (addr + BitVec.ofNat 32 k) =
        wordAt env.be t.mem (addr + BitVec.ofNat 32 (4 * k))) ∧
    ((∃ mem, env.alignmentHandleLdqstq addr stq t = .ok () { t with mem } ∧
      ∀ regs, ∃ regs', env.alignmentHandleLdqstq addr ldq { regs, mem } =
      .ok () { regs := regs', mem } ∧
        ∀ k, k < 4 → regs' (A2 + k) = t.regs (A2 + k)) ↔
      ∀ k, k < 4 → ∀ j, j < 4 → overlapByte env.be t (k + j) = quadByte env.be t k j) := by
  have hw7 : env.Writes addr 7 := fun j hj => hw j (by omega)
  have hr7 : env.Reads addr 7 := fun j hj => hr j (by omega)
  have hload : ¬ ldq &&& 0x1000 ≠ 0 := not_not_intro hldq
  have hslot : ∀ k, k < 4 → A2 ≤ A2 + k ∧ A2 + k < A2 + 4 := by
    intro k hk
    omega
  refine ⟨?_, ?_, ?_⟩
  · rw [stq_eq hstq hw7, EStateM.Result.ok.injEq, Trapped.mk.injEq]
    simp [overlapped_eq_storedQuad_iff]
  · rw [ldq_regs hload hr7, EStateM.Result.ok.injEq, Trapped.mk.injEq]
    simp only [true_and, and_true]
    have houtside : ∀ r, ¬ (A2 ≤ r ∧ r < A2 + 4) →
        (if A2 ≤ r ∧ r < A2 + 4 then wordAt env.be t.mem (addr + BitVec.ofNat 32 (r - A2))
          else t.regs r) = loadedQuad env.be t addr r := by
      intro r hr
      rw [loadedQuad, if_neg hr, if_neg hr]
    rw [quad_regs_eq_iff houtside]
    apply forall₂_congr
    intro k hk
    rw [loadedQuad, if_pos (hslot k hk), if_pos (hslot k hk), Nat.add_sub_cancel_left]
  · constructor
    · intro ⟨mem, hst, hback⟩ k hk
      rw [stq_eq hstq hw7, EStateM.Result.ok.injEq, Trapped.mk.injEq] at hst
      obtain ⟨regs', hld, hsame⟩ := hback t.regs
      rw [ldq_regs hload hr7, EStateM.Result.ok.injEq, Trapped.mk.injEq] at hld
      have hreg := hsame k hk
      rw [← hld.2.1] at hreg
      dsimp only at hreg
      rw [if_pos (hslot k hk), Nat.add_sub_cancel_left, ← hst.2.2] at hreg
      exact (wordAt_overlapped_iff hk).mp hreg
    · intro h
      refine ⟨_, stq_eq hstq hw7 t, fun regs => ⟨_, ldq_regs hload hr7 _, fun k hk => ?_⟩⟩
      rw [if_pos (hslot k hk), Nat.add_sub_cancel_left]
      exact (wordAt_overlapped_iff hk).mpr (h k hk)

/-- With one byte in all registers and all of memory the overlap does not show. -/
theorem ldqstq_right_iff_oneByte :
    TrapEnv.alignmentHandleLdqstq
      ⟨⟨false, false, false⟩, false, fun _ => true, fun _ => true, 0, 0, 0⟩ 0x2001 0x1000
        ⟨fun _ => 0x55555555, fun _ => 0x55⟩ =
      .ok () { regs := fun _ => 0x55555555
               mem := storedQuad false ⟨fun _ => 0x55555555, fun _ => 0x55⟩ 0x2001 } :=
  (ldqstq_right_iff _ _ 0x2001 0x1000 0 (by decide) (by decide) (fun _ _ => rfl)
    (fun _ _ => rfl)).1.mpr ⟨by decide, by decide⟩

/-- `stq` of the registers 4, 5, 6 and 7 leaves `r5`'s low byte in the word of `r4`. -/
theorem ldqstq_overlap :
    TrapEnv.alignmentHandleLdqstq
      ⟨⟨false, false, false⟩, false, fun _ => true, fun _ => true, 0, 0, 0⟩ 0x2001 0x1000
        ⟨fun r => BitVec.ofNat 32 (r - 1), fun _ => 0⟩ ≠
      .ok () { regs := fun r => BitVec.ofNat 32 (r - 1)
               mem := storedQuad false ⟨fun r => BitVec.ofNat 32 (r - 1), fun _ => 0⟩ 0x2001 } := by
  rw [stq_eq (by decide) (fun _ _ => rfl), Ne, EStateM.Result.ok.injEq, Trapped.mk.injEq]
  intro h
  have hbyte := congrFun h.2.2 0x2002
  revert hbyte
  decide

end SilanKernel.Csky
