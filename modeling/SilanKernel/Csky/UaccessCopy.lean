import SilanKernel.Csky.UaccessBounds

/-!
# SilanKernel.Csky.UaccessCopy

What the user copy functions leave in memory, and which faults they survive.

The loops copy from the front, so that at every point a first part of the bytes has been copied and
nothing else has changed (`Done`). A fault at an instruction with an entry in `__ex_table` ends the
copy there. The loop over groups of 16 bytes has such an entry for **the first access to user memory
in a group only**; a fault at one of the others is an oops. So the functions are right just where no
group has a mapped first word and an unmapped byte behind it.
-/

namespace SilanKernel.Csky

open Function BitVec Nat

variable {m₀ mem : Addr → BitVec 8} {dst src a : Addr} {n k j w : Nat} {c : CopyState}

/-! ### The memory -/

theorem addr_ne (a : Addr) (hi : i < 2 ^ 32) (hj : j < 2 ^ 32) (hne : i ≠ j) :
    a + BitVec.ofNat 32 i ≠ a + BitVec.ofNat 32 j := by
  intro heq
  have hval := congrArg BitVec.toNat ((BitVec.add_right_inj a).mp heq)
  rw [toNat_ofNat, toNat_ofNat, mod_eq_of_lt hi, mod_eq_of_lt hj] at hval
  exact hne hval

/-- The first `k` bytes have been copied and nothing else has changed. -/
structure Copied (m₀ : Addr → BitVec 8) (dst src : Addr) (k : Nat)
    (mem : Addr → BitVec 8) : Prop where
  copied : ∀ i, i < k → mem (dst + BitVec.ofNat 32 i) = m₀ (src + BitVec.ofNat 32 i)
  frame : ∀ a, (∀ i, i < k → a ≠ dst + BitVec.ofNat 32 i) → mem a = m₀ a

/-- The two ranges have no byte in common. -/
def Apart (dst src : Addr) (n : Nat) : Prop :=
  ∀ i j, i < n → j < n → dst + BitVec.ofNat 32 i ≠ src + BitVec.ofNat 32 j

theorem Copied.start : Copied m₀ dst src 0 m₀ :=
  ⟨fun i hi => absurd hi (not_lt_zero i), fun _ _ => rfl⟩

/-- The source is as it was. -/
theorem Copied.source (h : Copied m₀ dst src k mem) (hapart : Apart dst src n) (hk : k ≤ n)
    (hj : j < n) :
    mem (src + BitVec.ofNat 32 j) = m₀ (src + BitVec.ofNat 32 j) :=
  h.frame _ fun i hi heq => hapart i j (by omega) hj heq.symm

theorem Copied.byte (h : Copied m₀ dst src k mem) (hk : k < 2 ^ 32) : Copied m₀ dst src (k + 1)
      (update mem (dst + BitVec.ofNat 32 k) (m₀ (src + BitVec.ofNat 32 k))) := by
  constructor
  · intro i hi
    by_cases hik : i = k
    · rw [hik, update_self]
    · rw [update_of_ne (addr_ne dst (by omega) hk hik)]
      exact h.copied i (by omega)
  · intro a ha
    rw [update_of_ne (ha k (lt_succ_self k))]
    exact h.frame a fun i hi => ha i (by omega)

open BitVec in
/-- A byte of a word in memory. -/
theorem extractLsb'_append (x3 x2 x1 x0 : BitVec 8) :
    (x3 ++ x2 ++ x1 ++ x0).extractLsb' 0 8 = x0 ∧ (x3 ++ x2 ++ x1 ++ x0).extractLsb' 8 8 = x1 ∧
      (x3 ++ x2 ++ x1 ++ x0).extractLsb' 16 8 = x2 ∧
      (x3 ++ x2 ++ x1 ++ x0).extractLsb' 24 8 = x3 := by
  refine ⟨extractLsb'_append_eq_right, ?_, ?_, ?_⟩
  · rw [extractLsb'_append_eq_of_le (by decide), extractLsb'_append_eq_right]
  · rw [extractLsb'_append_eq_of_le (by decide), extractLsb'_append_eq_of_le (by decide),
      extractLsb'_append_eq_right]
  · rw [extractLsb'_append_eq_of_le (by decide), extractLsb'_append_eq_of_le (by decide),
      extractLsb'_append_eq_left]

theorem store32_load32 (mem : Addr → BitVec 8) (a b : Addr) : store32 mem a (load32 m₀ b) =
      update (update (update (update mem a (m₀ b)) (a + 1#32) (m₀ (b + 1#32)))
        (a + 2#32) (m₀ (b + 2#32))) (a + 3#32) (m₀ (b + 3#32)) := by
  obtain ⟨h0, h1, h2, h3⟩ := extractLsb'_append (m₀ (b + 3)) (m₀ (b + 2)) (m₀ (b + 1)) (m₀ b)
  rw [store32, load32, h0, h1, h2, h3]
  rfl

theorem Copied.word (h : Copied m₀ dst src k mem) (hk : k + 4 ≤ 2 ^ 32) : Copied m₀ dst src (k + 4)
      (store32 mem (dst + BitVec.ofNat 32 k) (load32 m₀ (src + BitVec.ofNat 32 k))) := by
  have h1 := h.byte (by omega)
  have h2 := h1.byte (by omega)
  have h3 := h2.byte (by omega)
  have h4 := h3.byte (by omega)
  rw [store32_load32, addr_add, addr_add, addr_add, addr_add, addr_add, addr_add]
  exact h4

theorem load32_eq (mem : Addr → BitVec 8) (a : Addr) : load32 mem a =
    mem (a + 3#32) ++ mem (a + 2#32) ++ mem (a + 1#32) ++ mem a := rfl

theorem Copied.load32 (h : Copied m₀ dst src k mem) (hapart : Apart dst src n) (hk : k ≤ n)
    (hj : j + 4 ≤ n) :
    load32 mem (src + BitVec.ofNat 32 j) = load32 m₀ (src + BitVec.ofNat 32 j) := by
  have h0 := h.source hapart hk (show j < n by omega)
  have h1 := h.source hapart hk (show j + 1 < n by omega)
  have h2 := h.source hapart hk (show j + 2 < n by omega)
  have h3 := h.source hapart hk (show j + 3 < n by omega)
  rw [load32_eq, load32_eq, addr_add, addr_add, addr_add, h0, h1, h2, h3]

/-! ### Mapped bytes -/

theorem allMapped_iff (mapped : BitVec 20 → Bool) (a : Addr) (len : Nat) :
    allMapped mapped a len = true ↔ ∀ i, i < len →
      mapped (page (a + BitVec.ofNat 32 i)) = true := by
  simp [allMapped, span]

theorem allMapped_mono (h : allMapped mapped a k = true) (hj : j ≤ k) :
    allMapped mapped a j = true := by
  rw [allMapped_iff] at h ⊢
  exact fun i hi => h i (by omega)

/-- A range in two parts. -/
theorem allMapped_add (mapped : BitVec 20 → Bool) (a : Addr) (j k : Nat) :
    allMapped mapped a (j + k) = true ↔
      allMapped mapped a j = true ∧ allMapped mapped (a + BitVec.ofNat 32 j) k = true := by
  rw [allMapped_iff, allMapped_iff, allMapped_iff]
  constructor
  · intro h
    refine ⟨fun i hi => h i (by omega), fun i hi => ?_⟩
    rw [addr_add]
    exact h (j + i) (by omega)
  · intro ⟨h, h'⟩ i hi
    rcases Nat.lt_or_ge i j with hij | hij
    · exact h i hij
    · have hrest := h' (i - j) (by omega)
      rwa [addr_add, Nat.add_sub_cancel' hij] at hrest

/-! ### One turn of a loop -/

variable {mapped : BitVec 20 → Bool} {user : Addr}

theorem touch_user (tabled : Bool) :
    ∃ t, touch mapped (.user tabled) a k c =
      if allMapped mapped a k then .ok () { c with touched := t }
      else .error (if tabled then .fixup else .oops) { c with touched := t } :=
  ⟨span a k ++ c.touched, rfl⟩

/-- The state after `k` of `n` bytes. -/
structure Done (m₀ : Addr → BitVec 8) (dst src : Addr) (n k : Nat) (c : CopyState) : Prop where
  left : c.n.toNat + k = n
  dst_eq : c.dst = dst + BitVec.ofNat 32 k
  src_eq : c.src = src + BitVec.ofNat 32 k
  mem : Copied m₀ dst src k c.mem

theorem Done.dst_add (h : Done m₀ dst src n k c) (i : Nat) :
    c.dst + BitVec.ofNat 32 i = dst + BitVec.ofNat 32 (k + i) := by
  rw [h.dst_eq, addr_add]

section

variable (m₀ : Addr → BitVec 8) (dst src : Addr) (n : Nat) (mapped : BitVec 20 → Bool) (user : Addr)

/-- How a turn that moves `w` bytes may end. -/
inductive Moved (w k : Nat) : EStateM.Result Stop CopyState Unit → Prop
  | ok {c : CopyState} (h : Done m₀ dst src n (k + w) c)
      (hmap : allMapped mapped user (k + w) = true) :
      Moved w k (.ok () c)
  | fixup {c : CopyState} (h : Done m₀ dst src n k c)
      (hun : ¬ allMapped mapped user (k + 4) = true) :
      Moved w k (.error .fixup c)
  | oops {c : CopyState} (hw : w = 16) (hmap : allMapped mapped user (k + 4) = true)
      (hun : ¬ allMapped mapped user (k + 16) = true) : Moved w k (.error .oops c)

/-- Inside of a turn that starts after `k` bytes: `j` more have been stored, and `i` bytes of user
memory accessed. -/
structure Turn (k j i : Nat) (c : CopyState) : Prop where
  left : c.n.toNat + k = n
  dst_eq : c.dst = dst + BitVec.ofNat 32 k
  src_eq : c.src = src + BitVec.ofNat 32 k
  mem : Copied m₀ dst src (k + j) c.mem
  mapped : allMapped mapped user (k + i) = true
  le : j ≤ i

end

/-- An instruction of a turn that accesses `len` bytes at `a`: in the kernel, or the next ones of
user memory. Only the first access to user memory has an entry in the table. -/
def Accesses (user : Addr) (w k len : Nat) (a : Addr) (acc : Access) (i i' : Nat) : Prop :=
  acc = .kernel ∧ i' = i ∨
    acc = .user (decide (i = 0)) ∧ a = user + BitVec.ofNat 32 (k + i) ∧ i' = i + len ∧ len ≤ 4 ∧
      (i = 0 ∨ w = 16 ∧ 4 ≤ i ∧ i' ≤ 16)

section

variable {α : Type} {i : Nat} {g : Unit → Asm Unit}

theorem Turn.start (h : Done m₀ dst src n k c) (hmap : allMapped mapped user k = true) :
    Turn m₀ dst src n mapped user k 0 0 c :=
  ⟨h.left, h.dst_eq, h.src_eq, h.mem, hmap, Nat.le_refl 0⟩

theorem Turn.access (h : Turn m₀ dst src n mapped user k j i c)
    (hacc : Accesses user w k l a acc i i')
    (hg : ∀ t, Turn m₀ dst src n mapped user k j i' { c with touched := t } →
      Moved m₀ dst src n mapped user w k (g () { c with touched := t })) :
    Moved m₀ dst src n mapped user w k ((touch mapped acc a l >>= g) c) := by
  rcases hacc with ⟨rfl, rfl⟩ | ⟨rfl, rfl, rfl, hlen, hi⟩
  · exact hg c.touched h
  obtain ⟨t, ht⟩ := touch_user (c := c) (decide (i = 0))
  by_cases hmap : allMapped mapped (user + BitVec.ofNat 32 (k + i)) l = true
  · rw [if_pos hmap] at ht
    rw [bind_of_ok ht]
    refine hg t ⟨h.left, h.dst_eq, h.src_eq, h.mem, ?_, le_add_right_of_le h.le⟩
    rw [← add_assoc]
    exact (allMapped_add mapped user (k + i) l).mpr ⟨h.mapped, hmap⟩
  · rw [if_neg hmap] at ht
    rw [bind_of_error ht]
    have hun : ∀ {j}, k + i + l ≤ j → ¬ allMapped mapped user j = true :=
      fun hj hc => hmap ((allMapped_add mapped user (k + i) l).mp (allMapped_mono hc hj)).2
    rcases hi with rfl | ⟨hw, hi, hi'⟩
    · obtain rfl := le_zero.mp h.le
      exact .fixup ⟨h.left, h.dst_eq, h.src_eq, h.mem⟩ (hun (by omega))
    · rw [decide_eq_false (by omega)]
      exact .oops hw (allMapped_mono h.mapped (by omega)) (hun (by omega))

/-- A load, of something that is in the source. -/
theorem Turn.load {ld : Asm α} {v : (Addr → BitVec 8) → Addr → α} {x : α}
    (h : Turn m₀ dst src n mapped user k j i c)
    (hld : ld = do
      let c ← get
      touch mapped acc (c.src + BitVec.ofNat 32 o) l
      return v c.mem (c.src + BitVec.ofNat 32 o))
    (hx : v c.mem (src + BitVec.ofNat 32 (k + o)) = x)
    (hacc : Accesses user w k l (src + BitVec.ofNat 32 (k + o)) acc i i')
    (hf : ∀ {c}, Turn m₀ dst src n mapped user k j i' c →
      Moved m₀ dst src n mapped user w k (f x c)) :
    Moved m₀ dst src n mapped user w k ((ld >>= f) c) := by
  have hrun : (ld >>= f) c = (touch mapped acc (src + BitVec.ofNat 32 (k + o)) l >>=
      fun _ => f x) c := by
    rw [hld, bind_assoc, ← hx, ← addr_add, ← h.src_eq]
    show ((touch mapped acc _ l >>= fun _ => pure _) >>= f) c = _
    rw [bind_assoc]
    rfl
  rw [hrun]
  exact h.access hacc fun t h => hf h

/-- A store of the next bytes. -/
theorem Turn.store {st : Asm Unit} {u : (Addr → BitVec 8) → Addr → α → Addr → BitVec 8} {x : α}
    (h : Turn m₀ dst src n mapped user k j i c)
    (hst : st = do
      let c ← get
      touch mapped acc (c.dst + BitVec.ofNat 32 j) l
      modify fun c => { c with mem := u c.mem (c.dst + BitVec.ofNat 32 j) x })
    (hmem : Copied m₀ dst src (k + (j + l)) (u c.mem (dst + BitVec.ofNat 32 (k + j)) x))
    (hacc : Accesses user w k l (dst + BitVec.ofNat 32 (k + j)) acc i i') (hle : j + l ≤ i')
    (hg : ∀ {c}, Turn m₀ dst src n mapped user k (j + l) i' c →
      Moved m₀ dst src n mapped user w k (g () c)) :
    Moved m₀ dst src n mapped user w k ((st >>= g) c) := by
  have hdst : c.dst + BitVec.ofNat 32 j = dst + BitVec.ofNat 32 (k + j) := by
    rw [h.dst_eq, addr_add]
  rw [hst, bind_assoc]
  show Moved _ _ _ _ _ _ _ _
    (((touch mapped acc (c.dst + BitVec.ofNat 32 j) l >>= fun _ => _) >>= g) c)
  rw [bind_assoc, hdst]
  refine h.access hacc fun t h => hg ⟨h.left, h.dst_eq, h.src_eq, ?_, h.mapped, hle⟩
  show Copied _ _ _ _ (u c.mem (c.dst + BitVec.ofNat 32 j) x)
  rwa [hdst]

/-- The end of a turn. -/
theorem Turn.advance (h : Turn m₀ dst src n mapped user k w w c) (hw : k + w ≤ n) :
    Moved m₀ dst src n mapped user w k (advance (BitVec.ofNat 32 w) c) := by
  have hleft := h.left
  have hval : (BitVec.ofNat 32 w).toNat = w := by
    rw [toNat_ofNat, mod_eq_of_lt (by omega)]
  refine .ok ⟨?_, ?_, ?_, h.mem⟩ h.mapped
  · show (c.n - BitVec.ofNat 32 w).toNat + (k + w) = n
    rw [toNat_sub_of_le (by rw [le_def, hval]; omega), hval]
    omega
  · show c.dst + BitVec.ofNat 32 w = _
    rw [h.dst_eq, addr_add]
  · show c.src + BitVec.ofNat 32 w = _
    rw [h.src_eq, addr_add]

variable (hapart : Apart dst src n) (hn : n < 2 ^ 32) (h : Done m₀ dst src n k c)

include hapart hn h

theorem copy1B_moved (hld : Accesses user 1 k 1 (src + BitVec.ofNat 32 k) acc 0 i)
    (hst : Accesses user 1 k 1 (dst + BitVec.ofNat 32 k) acc' i 1) (hk : k + 1 ≤ n)
    (hmap : allMapped mapped user k = true) : Moved m₀ dst src n mapped user 1 k ((do
      let b ← ldb mapped acc 0
      stb mapped acc' 0 b
      advance 1) c) := by
  have h := Turn.start h hmap
  refine h.load (v := fun m a => m a) rfl (h.mem.source hapart (by omega) hk) hld fun h => ?_
  refine h.store rfl (h.mem.byte (by omega)) hst (by omega) fun h => ?_
  exact h.advance hk

theorem copy1W_moved (hld : Accesses user 4 k 4 (src + BitVec.ofNat 32 k) acc 0 i)
    (hst : Accesses user 4 k 4 (dst + BitVec.ofNat 32 k) acc' i 4) (hk : k + 4 ≤ n)
    (hmap : allMapped mapped user k = true) : Moved m₀ dst src n mapped user 4 k ((do
      let w0 ← ldw mapped acc 0
      stw mapped acc' 0 w0
      advance 4) c) := by
  have h := Turn.start h hmap
  refine h.load rfl (h.mem.load32 hapart (by omega) hk) hld fun h => ?_
  refine h.store rfl (h.mem.word (by omega)) hst (by omega) fun h => ?_
  exact h.advance hk

theorem copyUserZeroing4W_moved (hk : k + 16 ≤ n) (hmap : allMapped mapped src k = true) :
    Moved m₀ dst src n mapped src 16 k (copyUserZeroing4W mapped c) := by
  have h := Turn.start h hmap
  refine h.load (o := 0) rfl (h.mem.load32 hapart (by omega) (by omega))
    (.inr ⟨rfl, rfl, rfl, by omega⟩) fun h => ?_
  refine h.load (o := 4) rfl (h.mem.load32 hapart (by omega) (by omega))
    (.inr ⟨rfl, rfl, rfl, by omega⟩) fun h => ?_
  refine h.store rfl (h.mem.word (by omega)) (.inl ⟨rfl, rfl⟩) (by omega) fun h => ?_
  refine h.store rfl (h.mem.word (by omega)) (.inl ⟨rfl, rfl⟩) (by omega) fun h => ?_
  -- the other two words are read from the memory that has the first two
  refine h.load (o := 8) rfl (h.mem.load32 hapart (by omega) (by omega))
    (.inr ⟨rfl, rfl, rfl, by omega⟩) fun h => ?_
  refine h.load (o := 12) rfl (h.mem.load32 hapart (by omega) (by omega))
    (.inr ⟨rfl, rfl, rfl, by omega⟩) fun h => ?_
  refine h.store rfl (h.mem.word (by omega)) (.inl ⟨rfl, rfl⟩) (by omega) fun h => ?_
  refine h.store rfl (h.mem.word (by omega)) (.inl ⟨rfl, rfl⟩) (by omega) fun h => ?_
  exact h.advance hk

theorem copyUser4W_moved (hk : k + 16 ≤ n) (hmap : allMapped mapped dst k = true) :
    Moved m₀ dst src n mapped dst 16 k (copyUser4W mapped c) := by
  have h := Turn.start h hmap
  -- the words are in registers before the first one is stored
  refine h.load (o := 0) rfl (h.mem.load32 hapart (by omega) (by omega))
    (.inl ⟨rfl, rfl⟩) fun h => ?_
  refine h.load (o := 4) rfl (h.mem.load32 hapart (by omega) (by omega))
    (.inl ⟨rfl, rfl⟩) fun h => ?_
  refine h.load (o := 8) rfl (h.mem.load32 hapart (by omega) (by omega))
    (.inl ⟨rfl, rfl⟩) fun h => ?_
  refine h.load (o := 12) rfl (h.mem.load32 hapart (by omega) (by omega))
    (.inl ⟨rfl, rfl⟩) fun h => ?_
  refine h.store rfl (h.mem.word (by omega)) (.inr ⟨rfl, rfl, rfl, by omega⟩) (by omega) fun h => ?_
  refine h.store rfl (h.mem.word (by omega)) (.inr ⟨rfl, rfl, rfl, by omega⟩) (by omega) fun h => ?_
  refine h.store rfl (h.mem.word (by omega)) (.inr ⟨rfl, rfl, rfl, by omega⟩) (by omega) fun h => ?_
  refine h.store rfl (h.mem.word (by omega)) (.inr ⟨rfl, rfl, rfl, by omega⟩) (by omega) fun h => ?_
  exact h.advance hk

end

/-! ### The loops -/

section

variable (m₀ : Addr → BitVec 8) (dst src : Addr) (n : Nat) (mapped : BitVec 20 → Bool) (user : Addr)

/-- How a loop that moves `w` bytes in a turn and starts after `k₀` bytes may end. -/
inductive LoopEnd (stop : Addr → Bool) (w k₀ : Nat) : EStateM.Result Stop CopyState Unit → Prop
  | ok {j : Nat} {c : CopyState} (h : Done m₀ dst src n (k₀ + w * j) c)
      (hmap : allMapped mapped user (k₀ + w * j) = true) (hstop : stop c.n = true) :
      LoopEnd stop w k₀ (.ok () c)
  | fixup {j : Nat} {c : CopyState} (h : Done m₀ dst src n (k₀ + w * j) c) (hlt : k₀ + w * j < n)
      (hmap : allMapped mapped user (k₀ + w * j) = true)
      (hun : ¬ allMapped mapped user (k₀ + w * j + 4) = true) : LoopEnd stop w k₀ (.error .fixup c)
  | oops {j : Nat} {c : CopyState} (hw : w = 16) (hle : k₀ + w * j + 16 ≤ n)
      (hmap : allMapped mapped user (k₀ + w * j + 4) = true)
      (hun : ¬ allMapped mapped user (k₀ + w * j + 16) = true) : LoopEnd stop w k₀ (.error .oops c)

end

theorem LoopEnd.succ (h : LoopEnd m₀ dst src n mapped user stop w (k + w) r) :
    LoopEnd m₀ dst src n mapped user stop w k r := by
  have hk : ∀ j, k + w + w * j = k + w * (j + 1) := by
    intro j
    rw [Nat.mul_succ]
    omega
  cases h with
  | ok h hmap hstop =>
    rw [hk] at h hmap
    exact .ok h hmap hstop
  | fixup h hlt hmap hun =>
    rw [hk] at h hlt hmap hun
    exact .fixup h hlt hmap hun
  | oops hw hle hmap hun =>
    rw [hk] at hle hmap hun
    exact .oops hw hle hmap hun

theorem loop_succ : loop stop body (fuel + 1) c =
    (if stop c.n then pure () else (body >>= fun _ => loop stop body fuel) : Asm Unit) c := rfl

theorem loop_end (stop : Addr → Bool) (hw : 0 < w) (hstop : ∀ x, stop x = false → w ≤ x.toNat)
    (hbody : ∀ {k c}, Done m₀ dst src n k c → k + w ≤ n → allMapped mapped user k = true →
      Moved m₀ dst src n mapped user w k (body c))
    (fuel : Nat) (h : Done m₀ dst src n k c) (hmap : allMapped mapped user k = true)
      (hfuel : c.n.toNat < fuel) :
    LoopEnd m₀ dst src n mapped user stop w k (loop stop body fuel c) := by
  induction fuel generalizing k c with
  | zero => omega
  | succ fuel ih =>
    rw [loop_succ]
    cases hs : stop c.n with
    | true =>
      rw [if_pos rfl]
      exact .ok (j := 0) h hmap hs
    | false =>
      rw [if_neg Bool.false_ne_true]
      have hle := hstop c.n hs
      have hleft := h.left
      have hmoved := hbody h (by omega) hmap
      cases hb : body c with
      | ok _ c' =>
        rw [hb] at hmoved
        rw [bind_of_ok hb]
        cases hmoved with
        | ok h' hmap' =>
          have hleft' := h'.left
          exact (ih h' hmap' (by omega)).succ
      | error e c' =>
        rw [hb] at hmoved
        rw [bind_of_error hb]
        cases hmoved with
        | fixup h' hun => exact .fixup (j := 0) h' (by omega) hmap hun
        | oops hw' hmap' hun => exact .oops (j := 0) hw' (by omega) hmap' hun

/-! ### The three loops -/

/-- The loop over groups of 16 bytes is entered. -/
def Grouped (dst src : Addr) (n : Nat) : Prop := (dst ||| src) &&& 3 = 0 ∧ n < 2 ^ 31

section

variable (m₀ : Addr → BitVec 8) (dst src : Addr) (n : Nat) (mapped : BitVec 20 → Bool) (user : Addr)

/-- How a copy may end. -/
inductive FrameEnd : EStateM.Result Stop CopyState Unit → Prop
  | ok {c : CopyState} (h : Done m₀ dst src n n c) (hmap : allMapped mapped user n = true) :
      FrameEnd (.ok () c)
  | fixup {k : Nat} {c : CopyState} (h : Done m₀ dst src n k c) (hlt : k < n)
      (hmap : allMapped mapped user k = true) (hun : ¬ allMapped mapped user (k + 4) = true)
      (hgroup : Grouped dst src n → 16 ∣ k ∨ 16 * (n / 16) ≤ k) : FrameEnd (.error .fixup c)
  | oops {g : Nat} {c : CopyState} (hgroup : Grouped dst src n) (hle : 16 * g + 16 ≤ n)
      (hmap : allMapped mapped user (16 * g + 4) = true)
      (hun : ¬ allMapped mapped user (16 * g + 16) = true) : FrameEnd (.error .oops c)

end

/-- The bodies of the loops move 16, 4 and 1 bytes. -/
structure Bodies (m₀ : Addr → BitVec 8) (dst src : Addr) (n : Nat) (mapped : BitVec 20 → Bool)
    (user : Addr) (body4W body1W body1B : Asm Unit) : Prop where
  four : ∀ {k c}, Done m₀ dst src n k c → k + 16 ≤ n → allMapped mapped user k = true →
    Moved m₀ dst src n mapped user 16 k (body4W c)
  one : ∀ {k c}, Done m₀ dst src n k c → k + 4 ≤ n → allMapped mapped user k = true →
    Moved m₀ dst src n mapped user 4 k (body1W c)
  byte : ∀ {k c}, Done m₀ dst src n k c → k + 1 ≤ n → allMapped mapped user k = true →
    Moved m₀ dst src n mapped user 1 k (body1B c)

section

variable (hb : Bodies m₀ dst src n mapped user body4W body1W body1B) (h : Done m₀ dst src n k c)
  (hmap : allMapped mapped user k = true) (hfuel : n < fuel)

include hb h hmap hfuel

/-- The last loop, over bytes. -/
theorem Bodies.bytes_end (hgroup : Grouped dst src n → 16 * (n / 16) ≤ k) :
    FrameEnd m₀ dst src n mapped user (loop (fun n => n == 0) body1B fuel c) := by
  have hleft := h.left
  have hend := loop_end (fun n => n == 0) (w := 1) Nat.one_pos
    (fun x hx => ne_zero_le_toNat x (by rw [hx]; exact Bool.false_ne_true)) hb.byte fuel h
    hmap (by omega)
  generalize loop (fun n => n == 0) body1B fuel c = r at hend ⊢
  cases hend with
  | @ok j c' h' hmap' hstop =>
    have hleft' := h'.left
    have hzero : c'.n.toNat = 0 := by
      rw [beq_iff_eq] at hstop
      rw [hstop]
      rfl
    rw [hzero, zero_add] at hleft'
    rw [hleft'] at h' hmap'
    exact .ok h' hmap'
  | fixup h' hlt hmap' hun =>
    refine .fixup h' hlt hmap' hun fun hg => Or.inr ?_
    have := hgroup hg
    omega
  | oops hw => omega

/-- The loop over words and the last one. -/
theorem Bodies.words_end (hgroup : Grouped dst src n → 16 * (n / 16) ≤ k) :
    FrameEnd m₀ dst src n mapped user
      ((loop (fun n => n.slt 4) body1W fuel >>= fun _ =>
        loop (fun n => n == 0) body1B fuel : Asm Unit) c) := by
  have hleft := h.left
  have hend := loop_end (fun n => n.slt 4) (w := 4) (by decide)
    (fun x hx => slt_le_toNat (k := 4) (by decide) (Bool.eq_false_iff.mp hx)) hb.one fuel h
    hmap (by omega)
  generalize hr : loop (fun n => n.slt 4) body1W fuel c = r at hend
  cases hend with
  | ok h' hmap' hstop =>
    rw [bind_of_ok hr]
    apply hb.bytes_end h' hmap' hfuel
    intro hg
    have := hgroup hg
    omega
  | fixup h' hlt hmap' hun =>
    rw [bind_of_error hr]
    refine .fixup h' hlt hmap' hun fun hg => Or.inr ?_
    have := hgroup hg
    omega
  | oops hw => omega

end

theorem copyFrame_eq : copyFrame body4W body1W body1B c = (if c.dst = 0 then pure ()
    else do
      (if (c.dst ||| c.src) &&& 3 = 0 then do
        loop (fun n => n.slt 16) body4W (c.n.toNat + 1)
        loop (fun n => n.slt 4) body1W (c.n.toNat + 1)
      else pure ())
      loop (fun n => n == 0) body1B (c.n.toNat + 1) : Asm Unit) c := rfl

/-- **All three loops.** -/
theorem Bodies.frame_end (hb : Bodies m₀ dst src n mapped user body4W body1W body1B)
    (h : Done m₀ dst src n 0 c) (hdst : c.dst ≠ 0) :
    FrameEnd m₀ dst src n mapped user (copyFrame body4W body1W body1B c) := by
  have hleft := h.left
  have hd : c.dst = dst := h.dst_eq.trans (BitVec.add_zero dst)
  have hs : c.src = src := h.src_eq.trans (BitVec.add_zero src)
  have hmap : allMapped mapped user 0 = true := rfl
  rw [copyFrame_eq, if_neg hdst, hd, hs]
  by_cases haligned : (dst ||| src) &&& 3 = 0
  · rw [if_pos haligned, bind_assoc]
    by_cases hlt : n < 2 ^ 31
    · have hend := loop_end (fun n => n.slt 16) (w := 16) (by decide)
        (fun x hx => slt_le_toNat (k := 16) (by decide) (Bool.eq_false_iff.mp hx)) hb.four
        (c.n.toNat + 1) h hmap (by omega)
      generalize hr : loop (fun n => n.slt 16) body4W (c.n.toNat + 1) c = r at hend
      cases hend with
      | @ok j c' h' hmap' hstop =>
        rw [bind_of_ok hr]
        apply hb.words_end h' hmap' (by omega)
        intro _
        have hleft' := h'.left
        have := (slt_ofNat_iff (k := 16) (by decide)).mp hstop
        omega
      | fixup h' hlt' hmap' hun =>
        rw [bind_of_error hr]
        exact .fixup h' hlt' hmap' hun fun _ => Or.inl ⟨_, zero_add _⟩
      | oops hw hle hmap' hun =>
        rw [bind_of_error hr]
        rw [zero_add] at hle hmap' hun
        exact .oops ⟨haligned, hlt⟩ hle hmap' hun
    -- `cmplti` takes the length for a negative one
    · have hslt : c.n.slt 16 = true := (slt_ofNat_iff (k := 16) (by decide)).mpr (.inr (by omega))
      have hr : loop (fun n => n.slt 16) body4W (c.n.toNat + 1) c = .ok () c := by
        rw [loop_succ, if_pos hslt]
        rfl
      rw [bind_of_ok hr]
      exact hb.words_end h hmap (by omega) fun hg => absurd hg.2 hlt
  · rw [if_neg haligned]
    exact hb.bytes_end h hmap (by omega) fun hg => absurd hg.1 haligned

/-! ### The copy functions -/

section

variable (hapart : Apart dst src n) (hn : n < 2 ^ 32)

include hapart hn

theorem copyUserZeroing_bodies (m₀ : Addr → BitVec 8) (mapped : BitVec 20 → Bool) :
    Bodies m₀ dst src n mapped src (copyUserZeroing4W mapped) (copyUserZeroing1W mapped)
      (copyUserZeroing1B mapped) :=
  ⟨copyUserZeroing4W_moved hapart hn,
    fun h => copy1W_moved hapart hn h (.inr ⟨rfl, rfl, rfl, by omega⟩) (.inl ⟨rfl, rfl⟩),
    fun h => copy1B_moved hapart hn h (.inr ⟨rfl, rfl, rfl, by omega⟩) (.inl ⟨rfl, rfl⟩)⟩

theorem copyUser_bodies (m₀ : Addr → BitVec 8) (mapped : BitVec 20 → Bool) :
    Bodies m₀ dst src n mapped dst (copyUser4W mapped) (copyUser1W mapped) (copyUser1B mapped) :=
  ⟨copyUser4W_moved hapart hn, fun h => copy1W_moved hapart hn h (.inl ⟨rfl, rfl⟩)
    (.inr ⟨rfl, rfl, rfl, by omega⟩), fun h => copy1B_moved hapart hn h (.inl ⟨rfl, rfl⟩)
    (.inr ⟨rfl, rfl, rfl, by omega⟩)⟩

end

/-- No group of 16 bytes has a mapped first word and an unmapped byte behind it. -/
def GroupsWhole (mapped : BitVec 20 → Bool) (user : Addr) (n : Nat) : Prop :=
  ∀ g, 16 * g + 16 ≤ n → allMapped mapped user (16 * g + 4) = true →
    allMapped mapped user (16 * g + 16) = true

/-- A fault that the table knows of does not happen inside of a group. -/
theorem FrameEnd.groupsWhole (h : FrameEnd m₀ dst src n mapped user r)
    (hr : ∀ c, r ≠ .error .oops c) (hg : Grouped dst src n) : GroupsWhole mapped user n := by
  intro g hle hfirst
  cases h with
  | ok h hmap => exact allMapped_mono hmap hle
  | @fixup k c h hlt hmap hun hgroup =>
    have hk : 16 * g + 4 < k + 4 := by
      by_contra hc
      exact hun (allMapped_mono hfirst (by omega))
    have hk' : 16 * g + 16 ≤ k := by
      rcases hgroup hg with ⟨j, rfl⟩ | hlast <;> omega
    exact allMapped_mono hmap hk'
  | @oops g c => exact absurd rfl (hr c)

/-- Where the groups are whole there is no oops. -/
theorem FrameEnd.not_oops (h : FrameEnd m₀ dst src n mapped user r)
    (hw : Grouped dst src n → GroupsWhole mapped user n) : ∀ c, r ≠ .error .oops c := by
  intro c hc
  cases h with
  | ok => cases hc
  | fixup => cases hc
  | oops hgroup hle hmap hun => exact hun (hw hgroup _ hle hmap)

/-! ### The fix-up code -/

/-- The bytes not copied are set to zero. -/
theorem zeroTail_spec (mapped : BitVec 20 → Bool) (fuel : Nat) (left : Addr) (c : CopyState)
    (hleft : left ≠ 0) (hfuel : left.toNat ≤ fuel) :
    ∃ c', zeroTail mapped fuel left c = .ok () c' ∧ c'.n = c.n ∧
      (∀ i, i < left.toNat → c'.mem (c.dst + BitVec.ofNat 32 i) = 0) ∧
      ∀ a, (∀ i, i < left.toNat → a ≠ c.dst + BitVec.ofNat 32 i) → c'.mem a = c.mem a := by
  induction fuel generalizing left c with
  | zero =>
    exact absurd (eq_of_toNat_eq (le_zero.mp hfuel)) hleft
  | succ fuel ih =>
    have hpos : 0 < left.toNat := Nat.pos_of_ne_zero fun hc => hleft (BitVec.eq_of_toNat_eq hc)
    have hsub : (left - 1).toNat + 1 = left.toNat := by
      rw [toNat_sub_of_le (by exact hpos)]
      exact Nat.sub_add_cancel hpos
    have haddr : ∀ i : Nat, c.dst + 1 + BitVec.ofNat 32 i = c.dst + BitVec.ofNat 32 (i + 1) := by
      intro i
      rw [Nat.add_comm i 1]
      exact addr_add c.dst 1 i
    have hzero : c.dst + 0#32 = c.dst + 0 := rfl
    have hrun : zeroTail mapped (fuel + 1) left c =
        (if left - 1 = 0 then pure () else zeroTail mapped fuel (left - 1) : Asm Unit)
          { c with mem := update c.mem (c.dst + 0) 0, dst := c.dst + 1 } := rfl
    rw [hrun]
    by_cases hlast : left - 1 = 0
    · rw [if_pos hlast]
      have hone : left.toNat = 1 := by
        rw [← hsub, hlast]
        rfl
      refine ⟨_, rfl, rfl, fun i hi => ?_, fun a ha => ?_⟩
      · obtain rfl : i = 0 := by omega
        rw [hzero]
        exact update_self ..
      · exact update_of_ne (ha 0 hpos) ..
    rw [if_neg hlast]
    obtain ⟨c', hrun', hn', hzeros, hframe⟩ := ih (left - 1)
      { c with mem := update c.mem (c.dst + 0) 0, dst := c.dst + 1 } hlast (by omega)
    refine ⟨c', hrun', hn', fun i hi => ?_, fun a ha => ?_⟩
    · cases i with
      | zero =>
        rw [hframe]
        · exact update_self ..
        · intro i hi'
          rw [haddr]
          exact addr_ne c.dst (by omega) (by omega) (by omega)
      | succ i =>
        rw [← haddr]
        exact hzeros i (by omega)
    · rw [hframe]
      · exact update_of_ne (ha 0 hpos) ..
      · intro i hi'
        rw [haddr]
        exact ha (i + 1) (by omega)

/-! ### What the callers rely on -/

section

variable (seg : Addr) (m : UserMem) (dst src n : Addr)

/-- `copy_from_user` returns the number of bytes at the end that it has not copied but set to
zero. -/
def CopiesFrom : Prop :=
  ∃ r c, copyFromUser seg m dst src n = .ok r c ∧ r ≤ n ∧
    (∀ i, i < n.toNat - r.toNat →
      c.mem (dst + BitVec.ofNat 32 i) = m.byte (src + BitVec.ofNat 32 i)) ∧
    ∀ i, n.toNat - r.toNat ≤ i → i < n.toNat → c.mem (dst + BitVec.ofNat 32 i) = 0

/-- `copy_to_user` returns the number of bytes at the end that it has not copied. -/
def CopiesTo : Prop :=
  ∃ r c, copyToUser seg m dst src n = .ok r c ∧ r ≤ n ∧
    ∀ i, i < n.toNat - r.toNat → c.mem (dst + BitVec.ofNat 32 i) = m.byte (src + BitVec.ofNat 32 i)

/-- The groups of an accepted copy are whole; a copy to the null pointer is not done at all, so that
what is there has to be zero already. -/
def FromWhole : Prop :=
  accessOk .read seg src n = true →
    (dst = 0 → ∀ i, i < n.toNat → m.byte (dst + BitVec.ofNat 32 i) = 0) ∧
    (dst ≠ 0 → Grouped dst src n.toNat → GroupsWhole m.mapped src n.toNat)

/-- The groups of an accepted copy are whole. -/
def ToWhole : Prop :=
  accessOk .write seg dst n = true → dst ≠ 0 → Grouped dst src n.toNat →
    GroupsWhole m.mapped dst n.toNat

end

variable {seg : Addr} {m : UserMem}

/-- The registers at the start. -/
def copyStart (m : UserMem) (dst src n : Addr) : CopyState :=
  { n, dst, src, mem := m.byte, touched := [] }

theorem copyStart_done : Done m.byte dst src len.toNat 0 (copyStart m dst src len) :=
  ⟨rfl, (BitVec.add_zero dst).symm, (BitVec.add_zero src).symm, Copied.start⟩

/-- Nothing is copied to the null pointer. -/
theorem copyFrame_null (hdst : c.dst = 0) : copyFrame body4W body1W body1B c = .ok () c := by
  rw [copyFrame_eq, if_pos hdst]
  rfl

theorem copyToUser_iff (hapart : Apart dst src len.toNat) : CopiesTo seg m dst src len ↔
    ToWhole seg m dst src len := by
  let c₀ := copyStart m dst src len
  have hcall : copyToUser seg m dst src len =
      if accessOk .write seg dst len then bytesLeft (copyUser m.mapped c₀)
      else .ok len c₀ := rfl
  by_cases hok : accessOk .write seg dst len = true
  · rw [if_pos hok] at hcall
    by_cases hdst : dst = 0
    · have hnull : copyUser m.mapped c₀ = .ok () c₀ :=
        copyFrame_null hdst
      rw [hnull] at hcall
      refine ⟨fun _ _ hne => absurd hdst hne,
        fun _ => ⟨len, _, hcall, BitVec.le_refl len, fun i hi => ?_⟩⟩
      omega
    have hend : FrameEnd m.byte dst src len.toNat m.mapped dst (copyUser m.mapped c₀) :=
      (copyUser_bodies hapart len.isLt m.byte m.mapped).frame_end copyStart_done hdst
    constructor
    · intro ⟨r, c', hrun, _⟩ _ _ hg
      apply hend.groupsWhole _ hg
      intro c hc
      rw [hcall, hc] at hrun
      cases hrun
    intro hwhole
    have hoops := hend.not_oops (hwhole hok hdst)
    generalize copyUser m.mapped c₀ = r at hend hoops hcall
    have hright : ∀ {k c}, Done m.byte dst src len.toNat k c →
        copyToUser seg m dst src len = .ok c.n c → CopiesTo seg m dst src len := by
      intro k c h hrun
      have hleft := h.left
      refine ⟨c.n, c, hrun, le_def.mpr (by omega), fun i hi => h.mem.copied i (by omega)⟩
    cases hend with
    | ok h hmap => exact hright h hcall
    | fixup h => exact hright h hcall
    | @oops g c => exact absurd rfl (hoops c)
  · rw [if_neg hok] at hcall
    refine ⟨fun _ h => absurd h hok, fun _ => ⟨len, _, hcall, BitVec.le_refl len, fun i hi => ?_⟩⟩
    omega

/-- After a fix-up the bytes not copied are zero. -/
theorem copyFromUser_fixup (hk : k < len.toNat) (h : Done m.byte dst src len.toNat k c)
    (hok : accessOk .read seg src len = true)
    (hcall : copyUserZeroing m.mapped (copyStart m dst src len) = .error .fixup c) :
    CopiesFrom seg m dst src len := by
  have hleft := h.left
  obtain ⟨c', hzero, hn, hzeros, hframe⟩ := zeroTail_spec m.mapped (2 ^ 32) c.n c
    (fun hc => by rw [hc, show (0 : BitVec 32).toNat = 0 from rfl] at hleft; omega)
    (Nat.le_of_lt c.n.isLt)
  have hrun : copyFromUser seg m dst src len = .ok c.n c' := by
    have hfix : copyUserZeroingFixup m.mapped (copyStart m dst src len) = .ok () c' := by
      rw [copyUserZeroingFixup, hcall]
      exact hzero
    have hbytes : copyFromUser seg m dst src len =
        bytesLeft (copyUserZeroingFixup m.mapped (copyStart m dst src len)) := if_pos hok
    rw [hbytes, hfix, ← hn]
    rfl
  refine ⟨c.n, c', hrun, le_def.mpr (by omega), fun i hi => ?_, fun i hi hi' => ?_⟩
  · rw [hframe, h.mem.copied i (by omega)]
    intro j hj
    rw [h.dst_add]
    exact addr_ne dst (by omega) (by omega) (by omega)
  · have hbyte := hzeros (i - k) (by omega)
    rwa [h.dst_add, Nat.add_sub_cancel' (by omega)] at hbyte

theorem copyFromUser_iff (hapart : Apart dst src len.toNat) :
    CopiesFrom seg m dst src len ↔ FromWhole seg m dst src len := by
  let c₀ := copyStart m dst src len
  have hcall : copyFromUser seg m dst src len =
      if accessOk .read seg src len then bytesLeft (copyUserZeroingFixup m.mapped c₀)
      else .ok len { c₀ with mem := memset m.byte dst 0 len } := rfl
  by_cases hok : accessOk .read seg src len = true
  · rw [if_pos hok] at hcall
    by_cases hdst : dst = 0
    · have hnull : copyUserZeroing m.mapped c₀ = .ok () c₀ :=
        copyFrame_null hdst
      rw [copyUserZeroingFixup, hnull] at hcall
      have hcall : copyFromUser seg m dst src len = .ok len c₀ := hcall
      constructor
      · intro ⟨r, c, hrun, _, _, hzeros⟩ _
        rw [hcall] at hrun
        obtain ⟨rfl, rfl⟩ := EStateM.Result.ok.inj hrun
        refine ⟨fun _ i hi => hzeros i ?_ hi, absurd hdst⟩
        rw [Nat.sub_self]
        exact zero_le i
      · intro hwhole
        refine ⟨len, _, hcall, BitVec.le_refl len, fun i hi => ?_,
          fun i _ hi => (hwhole hok).1 hdst i hi⟩
        omega
    · have hend : FrameEnd m.byte dst src len.toNat m.mapped src (copyUserZeroing m.mapped c₀) :=
        (copyUserZeroing_bodies hapart len.isLt m.byte m.mapped).frame_end copyStart_done hdst
      constructor
      · intro ⟨r, c', hrun, _⟩ _
        refine ⟨fun hc => absurd hc hdst, fun _ hg => hend.groupsWhole ?_ hg⟩
        intro c hc
        rw [hcall, copyUserZeroingFixup, hc] at hrun
        cases hrun
      intro hwhole
      have hoops := hend.not_oops ((hwhole hok).2 hdst)
      generalize hz : copyUserZeroing m.mapped c₀ = r at hend hoops
      cases hend with
      | @ok c h hmap =>
        rw [copyUserZeroingFixup, hz] at hcall
        have hleft := h.left
        refine ⟨c.n, c, hcall, le_def.mpr (by omega), fun i hi => h.mem.copied i (by omega),
          fun i hi hi' => ?_⟩
        omega
      | fixup h hlt => exact copyFromUser_fixup hlt h hok hz
      | @oops g c => exact absurd rfl (hoops c)
  · rw [if_neg hok] at hcall
    refine ⟨fun _ h => absurd h hok, fun _ => ⟨len, _, hcall, BitVec.le_refl len, fun i hi => ?_,
      fun i _ hi => ?_⟩⟩
    · omega
    · have hoff : (dst + BitVec.ofNat 32 i - dst).toNat = i := by
        rw [BitVec.add_comm, BitVec.add_sub_cancel, toNat_ofNat, mod_eq_of_lt (by omega)]
      show memset m.byte dst 0 len (dst + BitVec.ofNat 32 i) = 0
      rw [memset, hoff, if_pos hi]

/-- **The user copies are right**, for ranges that do not overlap, just where no group of 16 bytes
starts on a mapped page and goes on on an unmapped one. -/
theorem user_copies_right_iff (seg : Addr) (m : UserMem) (dst src n : Addr)
    (hapart : Apart dst src n.toNat) :
    (CopiesFrom seg m dst src n ↔ FromWhole seg m dst src n) ∧
      (CopiesTo seg m dst src n ↔ ToWhole seg m dst src n) :=
  ⟨copyFromUser_iff hapart, copyToUser_iff hapart⟩

/-- Twenty bytes with everything mapped, between a user buffer and one of the kernel. -/
theorem user_copies_right_iff_mapped :
    (CopiesFrom 0x80000000 ⟨fun _ => 1, fun _ => true⟩ 0x90000000 0x1ff8 20 ↔
      FromWhole 0x80000000 ⟨fun _ => 1, fun _ => true⟩ 0x90000000 0x1ff8 20) ∧
    (CopiesTo 0x80000000 ⟨fun _ => 1, fun _ => true⟩ 0x90000000 0x1ff8 20 ↔
      ToWhole 0x80000000 ⟨fun _ => 1, fun _ => true⟩ 0x90000000 0x1ff8 20) := by
  apply user_copies_right_iff
  intro i j hi hj heq
  have hval := congrArg BitVec.toNat heq
  rw [toNat_add, toNat_add, toNat_ofNat, toNat_ofNat,
    show (0x90000000 : BitVec 32).toNat = 0x90000000 from rfl,
    show (0x1ff8 : BitVec 32).toNat = 0x1ff8 from rfl] at hval
  have hi : i < 20 := hi
  have hj : j < 20 := hj
  omega

/-- Memory with only the page from `0x1000` on mapped. -/
def oneUserPage : UserMem := ⟨fun _ => 1, fun p => p == 1⟩

/-- A group of 16 bytes whose first two words are the last ones of a mapped page: the copy from user
memory faults at its third load and that to user memory at its third store, which are not in the
table. -/
theorem user_copies_oops :
    accessOk .read 0x80000000 0x1ff8 16 = true ∧ accessOk .write 0x80000000 0x1ff8 16 = true ∧
      (∃ c, copyFromUser 0x80000000 oneUserPage 0x90000000 0x1ff8 16 = .error .oops c) ∧
      ∃ c, copyToUser 0x80000000 oneUserPage 0x1ff8 0x90000000 16 = .error .oops c :=
  ⟨by decide, by decide, ⟨_, rfl⟩, ⟨_, rfl⟩⟩

end SilanKernel.Csky
