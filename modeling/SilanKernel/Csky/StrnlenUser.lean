import SilanKernel.Csky.Uaccess

/-!
# SilanKernel.Csky.StrnlenUser

`strnlen_user` of `arch/csky/lib/usercopy.c`.

The loop is inline assembly over three registers: `%0` the bytes left, `%1` the pointer and `%2`,
which starts as the limit and is returned. The fix-up code clears `%0` and **leaves `%2` as it is**,
so an unmapped byte makes the function return the limit and not 0.
-/

namespace SilanKernel.Csky

open BitVec Nat

/-- The registers of the loop. -/
structure StrnlenRegs where
  n : BitVec 32
  s : Addr
  res : BitVec 32

/-- The loop from the label 1 on, up to the end or to the fix-up code; `none` is a loop that has not
ended. -/
def strnlenLoop (m : UserMem) : Nat → StrnlenRegs → Option StrnlenRegs
  | 0, _ => none
  | fuel + 1, r =>
    -- the label 3
    let done := { r with res := r.res - r.n + 1 }
    if r.n = 0 then some done
    else if m.mapped (page r.s) then
      if m.byte r.s = 0 then some done
      else strnlenLoop m fuel { r with n := r.n - 1, s := r.s + 1 }
    -- the label 4
    else some { r with n := 0 }

/-- `strnlen_user` -/
def strnlenUser (m : UserMem) (s : Addr) (n : BitVec 32) : Option (BitVec 32) :=
  if s = 0 then some 0 else (strnlenLoop m (n.toNat + 1) { n, s, res := n }).map StrnlenRegs.res

/-! ### What the bytes are -/

section

variable (m : UserMem) (s : Addr) (n : Nat)

/-- The byte is mapped and not NUL. -/
def Plain (i : Nat) : Prop :=
  m.mapped (page (s + BitVec.ofNat 32 i)) = true ∧ m.byte (s + BitVec.ofNat 32 i) ≠ 0

/-- The first NUL is the byte `k`, and all bytes up to it are mapped. -/
def NulAt (k : Nat) : Prop :=
  k < n ∧ (∀ i, i < k → Plain m s i) ∧ m.mapped (page (s + BitVec.ofNat 32 k)) = true ∧
    m.byte (s + BitVec.ofNat 32 k) = 0

/-- The byte `k` is not mapped, and there is no NUL before it. -/
def UnmappedAt (k : Nat) : Prop :=
  k < n ∧ (∀ i, i < k → Plain m s i) ∧ m.mapped (page (s + BitVec.ofNat 32 k)) = false

/-- The first `n` bytes are mapped and have no NUL. -/
def TooLong : Prop := ∀ i, i < n → Plain m s i

end

variable {m : UserMem} {s : Addr} {n k : Nat}

theorem plain_zero : Plain m s 0 ↔ m.mapped (page s) = true ∧ m.byte s ≠ 0 := by
  rw [Plain, BitVec.add_zero]

theorem plain_below_succ (h : Plain m s 0) (hrest : ∀ i, i < k → Plain m (s + 1) i) :
    ∀ i, i < k + 1 → Plain m s i := by
  intro i hi
  cases i with
  | zero => exact h
  | succ i =>
    have hnext := hrest i (by omega)
    rwa [Plain, addr_succ] at hnext

theorem NulAt.succ (h : Plain m s 0) (hnul : NulAt m (s + 1) n k) : NulAt m s (n + 1) (k + 1) := by
  obtain ⟨hk, hplain, hmapped, hbyte⟩ := hnul
  rw [addr_succ] at hmapped hbyte
  exact ⟨by omega, plain_below_succ h hplain, hmapped, hbyte⟩

theorem UnmappedAt.succ (h : Plain m s 0) (hun : UnmappedAt m (s + 1) n k) :
    UnmappedAt m s (n + 1) (k + 1) := by
  obtain ⟨hk, hplain, hmapped⟩ := hun
  rw [addr_succ] at hmapped
  exact ⟨by omega, plain_below_succ h hplain, hmapped⟩

/-! ### The loop -/

/-- How the loop can end, and what it leaves in `%2`. -/
inductive StrnlenEnd (m : UserMem) (r : StrnlenRegs) (res : BitVec 32) : Prop
  | nul (k : Nat) (h : NulAt m r.s r.n.toNat k) (hres : res = r.res - r.n + BitVec.ofNat 32 (k + 1))
  | tooLong (h : TooLong m r.s r.n.toNat) (hres : res = r.res + 1)
  | unmapped (k : Nat) (h : UnmappedAt m r.s r.n.toNat k) (hres : res = r.res)

theorem strnlenLoop_spec (fuel : Nat) (r : StrnlenRegs) (hfuel : r.n.toNat < fuel) :
    ∃ r', strnlenLoop m fuel r = some r' ∧ StrnlenEnd m r r'.res := by
  induction fuel generalizing r with
  | zero => omega
  | succ fuel ih =>
    rw [strnlenLoop]
    by_cases hzero : r.n = 0
    · rw [if_pos hzero]
      refine ⟨_, rfl, .tooLong (fun i hi => ?_) ?_⟩
      · rw [hzero] at hi
        exact absurd hi (not_lt_zero i)
      · show r.res - r.n + 1 = r.res + 1
        rw [hzero]
        exact congrArg (· + 1) (BitVec.sub_zero r.res)
    have hpos : 0 < r.n.toNat := by
      apply Nat.pos_of_ne_zero
      exact fun hc => hzero (eq_of_toNat_eq hc)
    rw [if_neg hzero]
    by_cases hmapped : m.mapped (page r.s) = true
    · rw [if_pos hmapped]
      by_cases hbyte : m.byte r.s = 0
      · rw [if_pos hbyte]
        refine ⟨_, rfl, .nul 0 ⟨hpos, fun i hi => absurd hi (not_lt_zero i), ?_, ?_⟩ rfl⟩
        · rwa [BitVec.add_zero]
        · rwa [BitVec.add_zero]
      rw [if_neg hbyte]
      have hplain : Plain m r.s 0 := plain_zero.mpr ⟨hmapped, hbyte⟩
      have hsub : (r.n - 1).toNat + 1 = r.n.toNat := by
        rw [toNat_sub_of_le (by exact hpos)]
        exact Nat.sub_add_cancel hpos
      obtain ⟨r', hrun, hend⟩ := ih { r with n := r.n - 1, s := r.s + 1 } (by dsimp only; omega)
      refine ⟨r', hrun, ?_⟩
      cases hend with
      | nul k h hres =>
        have h' := h.succ hplain
        rw [hsub] at h'
        refine .nul (k + 1) h' (hres.trans ?_)
        show r.res - (r.n - 1) + BitVec.ofNat 32 (k + 1) = _
        rw [ofNat_add (k + 1) 1, BitVec.add_comm (BitVec.ofNat 32 (k + 1)), ← BitVec.add_assoc]
        congr 1
        bv_omega
      | tooLong h hres =>
        refine .tooLong ?_ hres
        rw [← hsub]
        exact plain_below_succ hplain h
      | unmapped k h hres =>
        have h' := h.succ hplain
        rw [hsub] at h'
        exact .unmapped (k + 1) h' hres
    · rw [if_neg hmapped]
      refine ⟨_, rfl, .unmapped 0 ⟨hpos, fun i hi => absurd hi (not_lt_zero i), ?_⟩ rfl⟩
      rw [BitVec.add_zero]
      exact Bool.eq_false_iff.mpr hmapped

/-! ### The promise -/

theorem NulAt.unique (h : NulAt m s n k) (h' : NulAt m s n k') : k = k' := by
  rcases Nat.lt_trichotomy k k' with hlt | heq | hgt
  · exact absurd h.2.2.2 (h'.2.1 k hlt).2
  · exact heq
  · exact absurd h'.2.2.2 (h.2.1 k' hgt).2

theorem NulAt.not_tooLong (h : NulAt m s n k) : ¬ TooLong m s n :=
  fun hlong => (hlong k h.1).2 h.2.2.2

theorem UnmappedAt.not_plain (h : UnmappedAt m s n k) : ¬ Plain m s k := by
  intro hplain
  have hmapped := hplain.1
  rw [h.2.2] at hmapped
  exact Bool.false_ne_true hmapped

theorem NulAt.not_unmapped (h : NulAt m s n k) : ¬ UnmappedAt m s n k' := by
  intro h'
  rcases Nat.lt_trichotomy k k' with hlt | rfl | hgt
  · exact (h'.2.1 k hlt).2 h.2.2.2
  · have hmapped := h.2.2.1
    rw [h'.2.2] at hmapped
    exact Bool.false_ne_true hmapped
  · exact h'.not_plain (h.2.1 k' hgt)

/-- What the comment on `strnlen_user` promises of the result `r`. -/
structure StrnlenPromise (m : UserMem) (s : Addr) (n r : BitVec 32) : Prop where
  nul : ∀ k, NulAt m s n.toNat k → r.toNat = k + 1
  tooLong : TooLong m s n.toNat → n.toInt < r.toInt
  unmapped : ∀ k, UnmappedAt m s n.toNat k → r = 0

/-- **The promise is kept** just where no unmapped byte is met, and the limit is not the greatest
`long` for a string that reaches it. -/
theorem strnlenUser_promise_iff (m : UserMem) (s : Addr) (n : BitVec 32) (hs : s ≠ 0)
    (hn : 0 ≤ n.toInt) :
    (∃ r, strnlenUser m s n = some r ∧ StrnlenPromise m s n r) ↔
      (∀ k, ¬ UnmappedAt m s n.toNat k) ∧ (TooLong m s n.toNat → n ≠ 0x7fffffff) := by
  obtain ⟨r', hrun, hend⟩ := strnlenLoop_spec (m := m) (n.toNat + 1) { n, s, res := n }
    (lt_succ_self _)
  have hres : strnlenUser m s n = some r'.res := by
    rw [strnlenUser, if_neg hs, hrun]
    rfl
  have hlt : n.toNat < 2 ^ 31 := by
    have hlt := n.isLt
    rw [toInt_eq_toNat_cond] at hn
    split at hn <;> omega
  rw [hres]
  generalize r'.res = r at hend
  have hsome : (∃ r1, some r = some r1 ∧ StrnlenPromise m s n r1) ↔ StrnlenPromise m s n r :=
    ⟨fun ⟨_, heq, h⟩ => Option.some.inj heq ▸ h, fun h => ⟨r, rfl, h⟩⟩
  rw [hsome]
  cases hend with
  | nul k h hr =>
    -- `n - n + (k + 1)`
    have hval : r.toNat = k + 1 := by
      have hk := h.1
      rw [hr, BitVec.sub_self, BitVec.zero_add, toNat_ofNat]
      omega
    refine ⟨fun _ => ⟨fun _ => h.not_unmapped, fun hlong => absurd hlong h.not_tooLong⟩,
      fun _ => ?_⟩
    refine ⟨fun k' h' => ?_, fun hlong => absurd hlong h.not_tooLong,
      fun k' h' => absurd h' h.not_unmapped⟩
    rw [hval, h.unique h']
  | tooLong h hr =>
    dsimp only at h hr
    have hval : n.toInt < r.toInt ↔ n ≠ 0x7fffffff := by
      have hne : n ≠ 0x7fffffff ↔ n.toNat ≠ 0x7fffffff := by
        rw [Ne, ← toNat_inj]
        rfl
      have hadd : r.toNat = n.toNat + 1 := by
        rw [hr, toNat_add, show (1 : BitVec 32).toNat = 1 from rfl]
        omega
      rw [hne, toInt_eq_toNat_cond, toInt_eq_toNat_cond, if_pos (by omega), hadd]
      split <;> omega
    constructor
    · intro hp
      exact ⟨fun k hk => hk.not_plain (h k hk.1), fun hlong => hval.mp (hp.tooLong hlong)⟩
    · intro hp
      exact ⟨fun k hk => absurd h hk.not_tooLong, fun hlong => hval.mpr (hp.2 hlong),
        fun k hk => absurd (h k hk.1) hk.not_plain⟩
  | unmapped k h hr =>
    -- the limit comes back, and it is not zero
    dsimp only at h hr
    constructor
    · intro hp
      have hzero := hp.unmapped k h
      rw [hr] at hzero
      have hk := h.1
      rw [hzero] at hk
      exact absurd hk (not_lt_zero k)
    · intro hp
      exact absurd h (hp.1 k)

/-- A string of two bytes and its NUL. -/
theorem strnlenUser_promise_iff_two :
    (∃ r, strnlenUser ⟨fun a => if a = 6 then 0 else 1, fun _ => true⟩ 4 8 = some r ∧
      StrnlenPromise ⟨fun a => if a = 6 then 0 else 1, fun _ => true⟩ 4 8 r) ↔
    (∀ k, ¬ UnmappedAt ⟨fun a => if a = 6 then 0 else 1, fun _ => true⟩ 4 8 k) ∧
      (TooLong ⟨fun a => if a = 6 then 0 else 1, fun _ => true⟩ 4 8 → (8 : BitVec 32) ≠
      0x7fffffff) :=
  strnlenUser_promise_iff _ 4 8 (by decide) (by decide)

/-- Nothing is mapped, and the limit is returned for a string that cannot be read. -/
theorem strnlenUser_unmapped : UnmappedAt ⟨fun _ => 0, fun _ => false⟩ 4 8 0 ∧
      strnlenUser ⟨fun _ => 0, fun _ => false⟩ 4 8 = some 8 :=
  ⟨⟨by decide, fun i hi => absurd hi (not_lt_zero i), rfl⟩, by decide⟩

end SilanKernel.Csky
