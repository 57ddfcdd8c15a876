import SilanKernel.Csky.AlignmentBytes
import SilanKernel.Data.Mask

/-!
# SilanKernel.Csky.AlignmentSound

The loads and stores the alignment trap emulates, against what the instruction would
have done. The instructions of the ABIv1 instruction set are given by their encoding
and their effect (`LdSt`), so that the decoder and the handlers can be compared with
both.
-/

namespace SilanKernel.Csky

open PtRegs Nat TrapEnv

/-! ### Loads and stores of the ABIv1 instruction set -/

/-- The field of `struct pt_regs` that holds a register: `a0` to `a3` are `r2` to `r5`,
`regs[0]` to `regs[8]` are `r6` to `r14`, and `regs[9]` is `r1`. -/
def slotOf (r : BitVec 4) : Nat :=
  if r = 1 then REGS 9
  else if r = 15 then R15
  else if r < 6 then 3 + (r.toNat - 2)
  else REGS (r.toNat - 6)

/-- `ld.h`, `st.h`, `ld.w` and `st.w`: the transfer register `z`, the base register `x`
and the scaled offset. -/
structure LdSt where
  half : Bool
  store : Bool
  z : BitVec 4
  imm4 : BitVec 4
  x : BitVec 4

namespace LdSt

variable {env : TrapEnv} {t : Trapped} (i : LdSt)

/-- The instruction word: `1h0s zzzz iiii xxxx`. -/
def encode : BitVec 16 :=
  1#1 ++ BitVec.ofBool i.half ++ 0#1 ++ BitVec.ofBool i.store ++ i.z ++ i.imm4 ++ i.x

def width : Nat := if i.half then 2 else 4

/-- The address it accesses. -/
def addr (t : Trapped) : Addr :=
  t.regs (slotOf i.x) + i.imm4.setWidth 32 <<< (if i.half then 1 else 2)

/-- The value a load brings. -/
def value (be : Bool) (t : Trapped) : BitVec 32 :=
  if i.half then halfAt be t.mem (i.addr t) else wordAt be t.mem (i.addr t)

/-- What the instruction does. -/
def exec (be : Bool) (t : Trapped) : Trapped :=
  let next := t.setReg PC (t.regs PC + 2)
  if i.store then { next with mem := stored be i.width (t.regs (slotOf i.z)) (i.addr t) t.mem }
  else next.setReg (slotOf i.z) (i.value be t)

/-! #### Decoding -/

/-- The instruction as `alignment_c` hands it on. -/
abbrev instr : BitVec 32 := i.encode.setWidth 32

theorem toNat_instr : i.instr.toNat =
    0x8000 + 0x4000 * i.half.toNat + 0x1000 * i.store.toNat + 0x100 * i.z.toNat + 0x10 *
    i.imm4.toNat + i.x.toNat := by
  have h : i.encode.toNat = _ := toNat_append_add _ _
  rw [BitVec.toNat_setWidth, mod_eq_of_lt (by omega), h]
  simp only [toNat_append_add, BitVec.toNat_ofBool, BitVec.toNat_ofNat]
  omega

theorem and_bit_ne_zero_iff (w : BitVec 32) (hk : k < 32) :
    w &&& BitVec.twoPow 32 k ≠ 0 ↔ w.toNat / 2 ^ k % 2 = 1 := by
  have hbit : w.getLsbD k = decide (w.toNat / 2 ^ k % 2 = 1) := Nat.testBit_eq_decide_div_mod_eq
  have hne : BitVec.twoPow 32 k ≠ 0 := by
    intro h0
    have h1 := congrArg (·.getLsbD k) h0
    simp [hk] at h1
  rw [BitVec.and_twoPow, hbit]
  by_cases h : w.toNat / 2 ^ k % 2 = 1
  · simp only [h, decide_true, if_true, iff_true]
    exact hne
  · simp only [h, decide_false, iff_false, not_not]
    rfl

theorem toNat_and_f (w : BitVec 32) : (w &&& 0xf).toNat = w.toNat % 16 :=
  Mask.toNat_and_mask (k := 4) rfl

theorem instr_ldst : i.instr &&& 0x8000 ≠ 0 := by
  have hh := Bool.toNat_le i.half
  have hs := Bool.toNat_le i.store
  refine (and_bit_ne_zero_iff i.instr (k := 15) (by decide)).mpr ?_
  rw [toNat_instr]
  omega

theorem instr_half : i.instr &&& 0x4000 ≠ 0 ↔ i.half = true := by
  have hs := Bool.toNat_le i.store
  refine (and_bit_ne_zero_iff i.instr (k := 14) (by decide)).trans ?_
  rw [toNat_instr]
  cases i.half <;> simp <;> omega

theorem instr_store : i.instr &&& 0x1000 ≠ 0 ↔ i.store = true := by
  refine (and_bit_ne_zero_iff i.instr (k := 12) (by decide)).trans ?_
  rw [toNat_instr]
  cases i.store <;> simp <;> omega

theorem instr_z : ((i.instr >>> 8) &&& 0xf).toNat = i.z.toNat := by
  rw [toNat_and_f, BitVec.toNat_ushiftRight, shiftRight_eq_div_pow, toNat_instr]
  omega

theorem instr_imm4 : (i.instr >>> 4) &&& 0xf = i.imm4.setWidth 32 := by
  apply BitVec.eq_of_toNat_eq
  rw [toNat_and_f, BitVec.toNat_ushiftRight, shiftRight_eq_div_pow, toNat_instr,
    BitVec.toNat_setWidth]
  omega

theorem instr_x : (i.instr &&& 0xf).toNat = i.x.toNat := by
  rw [toNat_and_f, toNat_instr]
  omega

/-! #### Register slots -/

theorem toNat_eq_iff (hn : n < 16) : r.toNat = n ↔ r = BitVec.ofNat 4 n := by
  rw [← BitVec.toNat_inj, BitVec.toNat_ofNat, mod_eq_of_lt hn]

/-- The three ways the source finds a register agree with the layout. -/
theorem slotOf_eq (hr : r ≠ 0) :
    slotOf r = if r.toNat = 1 then REGS 9 else if r.toNat = 15 then R15 else r.toNat + 1 := by
  have h0 : r.toNat ≠ 0 := BitVec.toNat_ne_iff_ne.mpr hr
  have h1 : r.toNat = 1 ↔ r = 1 := toNat_eq_iff (by decide)
  have h15 : r.toNat = 15 ↔ r = 15 := toNat_eq_iff (by decide)
  have h6 : r < 6 ↔ r.toNat < 6 := BitVec.lt_def
  simp only [slotOf, ← h1, ← h15, h6]
  split_ifs
  · rfl
  · rfl
  · omega
  · rw [REGS]
    omega

theorem slotOf_ne_pc (r : BitVec 4) : slotOf r ≠ PC := by
  simp only [slotOf, REGS, R15, PC]
  split_ifs <;> omega

theorem baseV1_instr (hx : i.x ≠ 0) : env.baseV1 t i.instr = t.regs (slotOf i.x) := by
  have h0 : i.x.toNat ≠ 0 := BitVec.toNat_ne_iff_ne.mpr hx
  rw [baseV1, instr_x, if_neg h0, slotOf_eq hx]
  split_ifs <;> rfl

theorem dataregzV1_z (hz : i.z ≠ 0) : env.dataregzV1 t i.z.toNat = t.regs (slotOf i.z) := by
  have h0 : i.z.toNat ≠ 0 := BitVec.toNat_ne_iff_ne.mpr hz
  rw [dataregzV1, if_neg h0, slotOf_eq hz]
  split_ifs <;> rfl

/-! #### The emulation -/

/-- The slot a load of the emulation writes: `ld.w` takes `r15` for `r1`. -/
def loadSlot : Nat :=
  if i.half = false ∧ i.z = 15 then REGS 9 else slotOf i.z

/-- The bytes the instruction accesses can be accessed. -/
def Accessible (env : TrapEnv) (t : Trapped) : Prop :=
  if i.store then env.Writes (i.addr t) i.width else env.Reads (i.addr t) i.width

/-- The registers and the memory the emulation leaves. -/
def emulated (be : Bool) (t : Trapped) : Trapped :=
  let next := t.setReg PC (t.regs PC + 2)
  if i.store then { next with mem := stored be i.width (t.regs (slotOf i.z)) (i.addr t) t.mem }
  else next.setReg i.loadSlot (i.value be t)

section

variable (habi : env.config.abiV2 = false) (hz : i.z ≠ 0)

include habi hz

theorem handle_half (hhalf : i.half = true)
    (hacc : if i.store then env.Writes a 2 else env.Reads a 2) :
    env.alignmentHandleLdhsth a i.instr t =
      .ok () (if i.store then { t with mem := stored env.be 2 (t.regs (slotOf i.z)) a t.mem }
        else t.setReg i.loadSlot (halfAt env.be t.mem a)) := by
  have h0 : i.z.toNat ≠ 0 := BitVec.toNat_ne_iff_ne.mpr hz
  apply (bind_of_ok rfl).trans
  simp only [habi, Bool.false_eq_true, if_false, instr_store, instr_z]
  cases hs : i.store with
  | true =>
    rw [hs] at hacc
    simp only [if_true, dataregzV1_z i hz]
    exact put_eq (.inl rfl) hacc _ _
  | false =>
    rw [hs] at hacc
    simp only [Bool.false_eq_true, if_false] at hacc ⊢
    apply (bind_of_ok (by rw [get16_eq, if_pos hacc])).trans
    have hslot : i.loadSlot = slotOf i.z := if_neg (by simp [hhalf])
    rw [if_neg h0, hslot, slotOf_eq hz]
    split_ifs <;> rfl

theorem handle_word (hhalf : i.half = false)
    (hacc : if i.store then env.Writes a 4 else env.Reads a 4) :
    env.alignmentHandleLdwstw a i.instr t =
      .ok () (if i.store then { t with mem := stored env.be 4 (t.regs (slotOf i.z)) a t.mem }
        else t.setReg i.loadSlot (wordAt env.be t.mem a)) := by
  have h0 : i.z.toNat ≠ 0 := BitVec.toNat_ne_iff_ne.mpr hz
  apply (bind_of_ok rfl).trans
  simp only [habi, Bool.false_eq_true, if_false, instr_store, instr_z]
  cases hs : i.store with
  | true =>
    rw [hs] at hacc
    simp only [if_true, dataregzV1_z i hz]
    exact put_eq (.inr rfl) hacc _ _
  | false =>
    rw [hs] at hacc
    simp only [Bool.false_eq_true, if_false] at hacc ⊢
    apply (bind_of_ok (by rw [get32_eq, if_pos hacc])).trans
    have h15 : i.z = 15 ↔ i.z.toNat = 15 := (toNat_eq_iff (by decide)).symm
    rw [if_neg h0, loadSlot, slotOf_eq hz]
    simp only [hhalf, true_and, h15]
    by_cases h1 : i.z.toNat = 1
    · rw [if_pos h1, if_neg (by omega), if_pos h1]
      rfl
    rw [if_neg h1, if_neg h1]
    by_cases h : i.z.toNat = 15
    · rw [if_pos h, h]
      rfl
    · rw [if_neg h, if_neg h1, if_neg h]
      rfl

theorem fixup_instr (hx : i.x ≠ 0) (hacc : i.Accessible env t) :
    env.fixup t i.instr 2 = .fixed (i.emulated env.be t) := by
  have hframe : ∀ r, (t.setReg PC (t.regs PC + 2)).regs (slotOf r) = t.regs (slotOf r) :=
    fun r => Function.update_of_ne (slotOf_ne_pc r) _ _
  simp only [fixup, decode, habi, Bool.false_eq_true, if_false, decodeV1,
    if_pos i.instr_ldst, instr_half, baseV1_instr i hx, instr_imm4, hframe]
  cases hhalf : i.half with
  | true =>
    simp only [Accessible, width, addr, hhalf, if_true] at hacc
    rw [if_pos rfl]
    dsimp only
    rw [handle_half i habi hz hhalf hacc, hframe]
    simp only [emulated, value, addr, width, hhalf, if_true]
    rfl
  | false =>
    simp only [Accessible, width, addr, hhalf, Bool.false_eq_true, if_false] at hacc
    rw [if_neg Bool.false_ne_true]
    dsimp only
    rw [handle_word i habi hz hhalf hacc, hframe]
    simp only [emulated, value, addr, width, hhalf, Bool.false_eq_true, if_false]
    rfl

end

theorem setReg_eq_self (h : t.regs k = v) : t.setReg k v = t := by
  subst h
  simp [Trapped.setReg]

/-- The wrong slot shows unless both slots already hold the loaded word. -/
theorem emulated_eq_exec_iff (be : Bool) : i.emulated be t = i.exec be t ↔
      (i.store = false → i.half = false → i.z = 15 →
        t.regs (REGS 9) = wordAt be t.mem (i.addr t) ∧ t.regs R15 = wordAt be t.mem
        (i.addr t)) := by
  by_cases hbad : i.store = false ∧ i.half = false ∧ i.z = 15
  · obtain ⟨hs, hh, hz⟩ := hbad
    have hslot : slotOf 15 = R15 := rfl
    simp only [emulated, exec, loadSlot, value, hs, hh, hz, Bool.false_eq_true, if_false, and_self,
      if_true, hslot, true_implies]
    constructor
    · intro h
      have hregs := congrArg Trapped.regs h
      exact ⟨(congrFun hregs (REGS 9)).symm, congrFun hregs R15⟩
    · intro ⟨h9, h15⟩
      have h9' : (t.setReg PC (t.regs PC + 2)).regs (REGS 9) = wordAt be t.mem (i.addr t) := h9
      have h15' : (t.setReg PC (t.regs PC + 2)).regs R15 = wordAt be t.mem (i.addr t) := h15
      rw [setReg_eq_self h9', setReg_eq_self h15']
  · have heq : i.emulated be t = i.exec be t := by
      unfold emulated exec
      cases hs : i.store with
      | true => rfl
      | false =>
        have hslot : i.loadSlot = slotOf i.z := if_neg (fun h => hbad ⟨hs, h⟩)
        rw [hslot]
    exact iff_of_true heq (fun hs hh hz => absurd ⟨hs, hh, hz⟩ hbad)

end LdSt

/-- On the fix-up path `alignment_c` comes to the emulation of the fetched instruction. -/
theorem alignmentC_eq_emulated {env : TrapEnv} {t : Trapped} {i : LdSt}
    (habi : env.config.abiV2 = false)
    (hfetch : env.fetch16 t.mem (t.regs PC &&& ~~~1) = some i.encode)
    (hpath : t.userMode = true → env.aiUsermode &&& UM_FIXUP ≠ 0) (hz : i.z ≠ 0) (hx : i.x ≠ 0)
    (hacc : i.Accessible env t) :
    env.alignmentC t = .fixed (i.emulated env.be t) := by
  have hf : env.fetch t = some (i.instr, 2) := by
    simp only [fetch, hfetch, habi, Bool.false_and]
    rfl
  simp only [alignmentC, hf, i.fixup_instr habi hz hx hacc]
  cases hu : t.userMode with
  | true => rw [if_pos rfl, if_pos (hpath hu)]
  | false => rfl

/-- **The emulation of `ld.h`, `st.h`, `ld.w` and `st.w`** on the fix-up path does what
the instruction does, except that `ld.w` into `r15` goes to `r1`. -/
theorem alignmentC_ldSt_iff (env : TrapEnv) (t : Trapped) (i : LdSt)
    (habi : env.config.abiV2 = false)
    (hfetch : env.fetch16 t.mem (t.regs PC &&& ~~~1) = some i.encode)
    (hpath : t.userMode = true → env.aiUsermode &&& UM_FIXUP ≠ 0) (hz : i.z ≠ 0) (hx : i.x ≠ 0)
    (hacc : i.Accessible env t) :
    env.alignmentC t = .fixed (i.exec env.be t) ↔ (i.store = false → i.half = false → i.z = 15 →
        t.regs (REGS 9) = wordAt env.be t.mem (i.addr t) ∧ t.regs R15 = wordAt env.be t.mem
        (i.addr t)) := by
  rw [alignmentC_eq_emulated habi hfetch hpath hz hx hacc, TrapEnd.fixed.injEq]
  exact i.emulated_eq_exec_iff env.be

/-- A little-endian ABIv1 machine whose whole memory can be accessed. -/
def mappedEnv : TrapEnv :=
  { config := ⟨false, false, false⟩
    be := false
    readable := fun _ => true
    writable := fun _ => true
    usp := 0
    regs := 0
    aiUsermode := UM_FIXUP }

/-- A trap in the kernel at `0x1000`, on the instruction `w`, with all registers odd. -/
def trappedAt (w : BitVec 16) : Trapped where
  regs k := if k = PC then 0x1000 else if k = SR then PS_S else 0x2001
  mem a := if a = 0x1000 then w.extractLsb' 0 8 else if a = 0x1001 then w.extractLsb' 8 8 else 0

/-- `ld.w r3, (r2, 0)` -/
theorem alignmentC_ldSt_iff_r3 :
    mappedEnv.alignmentC (trappedAt (LdSt.encode ⟨false, false, 3, 0, 2⟩)) =
      .fixed (LdSt.exec ⟨false, false, 3, 0, 2⟩ false
        (trappedAt (LdSt.encode ⟨false, false, 3, 0, 2⟩))) :=
  (alignmentC_ldSt_iff mappedEnv _ ⟨false, false, 3, 0, 2⟩ rfl (by decide)
    (fun _ => by decide) (by decide) (by decide) (fun _ _ => rfl)).mpr
    (fun _ _ h => absurd h (by decide))

/-- `ld.w r15, (r2, 0)` leaves `r15` as it was. -/
theorem alignmentC_ldw_r15_ne :
    mappedEnv.alignmentC (trappedAt (LdSt.encode ⟨false, false, 15, 0, 2⟩)) ≠
      .fixed (LdSt.exec ⟨false, false, 15, 0, 2⟩ false
        (trappedAt (LdSt.encode ⟨false, false, 15, 0, 2⟩))) := by
  rw [alignmentC_eq_emulated (i := ⟨false, false, 15, 0, 2⟩) rfl (by decide)
    (fun _ => by decide) (by decide) (by decide) (fun _ _ => rfl), Ne, TrapEnd.fixed.injEq]
  intro h
  have hr15 := congrFun (congrArg Trapped.regs h) R15
  revert hr15
  decide

end SilanKernel.Csky
