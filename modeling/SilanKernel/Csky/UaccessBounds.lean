import SilanKernel.Csky.Uaccess
import SilanKernel.Data.Run

/-!
# SilanKernel.Csky.UaccessBounds

Which user-side bytes the copy functions touch.

Every copy loop moves its pointers up by as much as it takes off the bytes left,
so **the sum of the user pointer and the bytes left stays the same**. As long as
that sum does not wrap, `Within` is an invariant of each loop: all bytes touched
lie between the first address and the sum. What `access_ok` lets through is then
safe exactly if the addition inside it does not wrap.
-/

namespace SilanKernel.Csky

open BitVec

/-- The register that holds the user pointer. -/
inductive Side
  | src
  | dst
  deriving DecidableEq

def Side.ptr : Side → CopyState → Addr
  | .src, c => c.src
  | .dst, c => c.dst

/-- The bytes still to go end at `hi`, and everything touched lies in `[lo, hi)`. -/
structure Within (side : Side) (lo hi : Nat) (c : CopyState) : Prop where
  low : lo ≤ (side.ptr c).toNat
  sum : (side.ptr c).toNat + c.n.toNat = hi
  touched : ∀ a ∈ c.touched, lo ≤ a.toNat ∧ a.toNat < hi

/-- The same with at least `m` bytes to go. -/
def Room (side : Side) (lo hi m : Nat) (c : CopyState) : Prop :=
  Within side lo hi c ∧ m ≤ c.n.toNat

section

variable {hi m : Nat}

theorem mem_span_bounds (hb : b ∈ span a len) (hlen : a.toNat + len ≤ 2 ^ 32)
    : a.toNat ≤ b.toNat ∧ b.toNat < a.toNat + len := by
  obtain ⟨i, hi, rfl⟩ := List.mem_map.mp hb
  have hi := List.mem_range.mp hi
  rw [toNat_add, toNat_ofNat]
  omega

/-- An access within the bytes to go keeps everything in place. -/
theorem Room.touch (hc : Room side lo hi m c) (hhi : hi < 2 ^ 32) (hoff : off.toNat + len ≤ m) :
    Room side lo hi m { c with touched := span (side.ptr c + off) len ++ c.touched } := by
  obtain ⟨⟨hlow, hsum, htouched⟩, hm⟩ := hc
  have hadd : (side.ptr c + off).toNat = (side.ptr c).toNat + off.toNat := by
    rw [toNat_add]
    omega
  refine ⟨⟨?_, ?_, fun a ha => ?_⟩, hm⟩
  · cases side <;> exact hlow
  · cases side <;> exact hsum
  · rcases List.mem_append.mp ha with ha | ha
    · have := mem_span_bounds ha (by omega)
      omega
    · exact htouched a ha

/-- The access of an instruction at offset `off` from the pointer `p`: on the
kernel side, or on the user side within the bytes to go. -/
theorem touch_within (p : Side) (hhi : hi < 2 ^ 32)
    (hacc : acc = .kernel ∨ side = p ∧ off.toNat + len ≤ m) (c0 : CopyState) :
    Triple (fun c => c = c0 ∧ Room side lo hi m c) (touch mapped acc (p.ptr c0 + off) len)
      (fun _ => Room side lo hi m) (Within side lo hi) := by
  rintro c ⟨rfl, hc⟩
  cases acc with
  | kernel => exact hc
  | user tabled =>
    obtain ⟨rfl, hoff⟩ := hacc.resolve_left (by simp)
    have hc' := hc.touch hhi hoff
    unfold Csky.touch
    dsimp only
    by_cases hmap : allMapped mapped (side.ptr c + off) len
    · rw [if_pos hmap]
      exact hc'
    · rw [if_neg hmap]
      exact hc'.1

theorem Room.setMem (hc : Room side lo hi m c) (mem : Addr → BitVec 8) :
    Room side lo hi m { c with mem := mem } := by
  cases side <;> exact ⟨⟨hc.1.low, hc.1.sum, hc.1.touched⟩, hc.2⟩

/-- `ldw` and `ldb` -/
theorem ld_within {f : CopyState → α} (hhi : hi < 2 ^ 32)
    (hacc : acc = .kernel ∨ side = .src ∧ off.toNat + w ≤ m) :
    Triple (Room side lo hi m) (do let c ← get; touch mapped acc (c.src + off) w; return f c)
      (fun _ => Room side lo hi m) (Within side lo hi) :=
  .get fun c _ => .bind (touch_within .src hhi hacc c) fun _ => .pure fun _ h => h

/-- `stw` and `stb` -/
theorem st_within {f : CopyState → Addr → BitVec 8} (hhi : hi < 2 ^ 32)
    (hacc : acc = .kernel ∨ side = .dst ∧ off.toNat + w ≤ m) :
    Triple (Room side lo hi m)
      (do let c ← get; touch mapped acc (c.dst + off) w; modify fun c => { c with mem := f c })
      (fun _ => Room side lo hi m) (Within side lo hi) :=
  .get fun c _ => .bind (touch_within .dst hhi hacc c) fun _ => .modify fun _ h => Room.setMem h _

/-- From a state with `P`, the program keeps within the bounds. -/
abbrev Bounded (side : Side) (lo hi : Nat) (P : CopyState → Prop) (p : Asm α) : Prop :=
  Triple P p (fun _ => Within side lo hi) (Within side lo hi)

/-- Moving on by the bytes just done. -/
theorem Room.move (hc : Room side lo hi m c) (hhi : hi < 2 ^ 32) (hk : k.toNat ≤ m)
    (hptr : side.ptr c' = side.ptr c + k) (hn : c'.n = c.n - k)
    (htouched : c'.touched = c.touched) : Within side lo hi c' := by
  obtain ⟨⟨hlow, hsum, ht⟩, hm⟩ := hc
  have hadd : (side.ptr c + k).toNat = (side.ptr c).toNat + k.toNat := by
    rw [toNat_add]
    omega
  have hsub : (c.n - k).toNat = c.n.toNat - k.toNat :=
    toNat_sub_of_le (le_def.mpr (by omega))
  refine ⟨?_, ?_, htouched ▸ ht⟩
  · rw [hptr, hadd]
    omega
  · rw [hptr, hadd, hn, hsub]
    omega

theorem advance_within (hhi : hi < 2 ^ 32) (hk : k.toNat ≤ m) :
    Bounded side lo hi (Room side lo hi m) (advance k) :=
  .modify fun _ hc => hc.move hhi hk (by cases side <;> rfl) rfl rfl

/-- A loop is within bounds if its body is, given the bytes that the test leaves. -/
theorem loop_within
    (hbody : Bounded side lo hi (Room side lo hi m) body)
    (hstop : ∀ n, ¬ stop n → m ≤ n.toNat) (fuel : Nat) :
    Bounded side lo hi (Within side lo hi) (loop stop body fuel) := by
  induction fuel with
  | zero => exact .throw fun _ h => h
  | succ fuel ih =>
    refine .get fun c _ => .ite (fun _ => .pure fun _ h => h.2) fun hc => ?_
    refine .bind (hbody.pre ?_) fun _ => ih
    rintro _ ⟨rfl, h⟩
    exact ⟨h, hstop _ hc⟩

/-- A length from `2 ^ 31` on is taken for a negative one. -/
theorem slt_ofNat_iff {n : Addr} {k : Nat} (hk : k < 2 ^ 31) :
    n.slt (BitVec.ofNat 32 k) ↔ n.toNat < k ∨ 2 ^ 31 ≤ n.toNat := by
  have hk' : (BitVec.ofNat 32 k).toInt = k := by
    rw [toInt_eq_toNat_cond, toNat_ofNat]
    split <;> omega
  rw [slt_iff_toInt_lt, hk', toInt_eq_toNat_cond]
  split <;> omega

theorem slt_le_toNat {n : Addr} {k : Nat} (hk : k < 2 ^ 31) (h : ¬ n.slt (BitVec.ofNat 32 k)) :
    k ≤ n.toNat := by
  rw [slt_ofNat_iff hk] at h
  omega

theorem ne_zero_le_toNat (n : Addr) (h : ¬ (n == 0) = true) : 1 ≤ n.toNat := by
  have : n ≠ 0 := by simpa using h
  exact Nat.pos_of_ne_zero fun e => this (eq_of_toNat_eq e)

/-- The frame is within bounds if its three bodies are. -/
theorem copyFrame_within {body4W body1W body1B : Asm Unit}
    (h4W : Bounded side lo hi (Room side lo hi 16) body4W)
    (h1W : Bounded side lo hi (Room side lo hi 4) body1W)
    (h1B : Bounded side lo hi (Room side lo hi 1) body1B) :
    Bounded side lo hi (Within side lo hi) (copyFrame body4W body1W body1B) := by
  refine .get fun c _ => .ite (fun _ => .pure fun _ h => h.2) fun _ => ?_
  refine .bind (.ite (fun _ => ?_) fun _ => .pure fun _ h => h.2) fun _ =>
    loop_within h1B ne_zero_le_toNat _
  refine .bind ((loop_within h4W (fun n => slt_le_toNat (by decide)) _).pre fun _ h => h.2) fun _ =>
    loop_within h1W (fun n => slt_le_toNat (by decide)) _

section

variable (mapped) (hhi : hi < 2 ^ 32)

include hhi

theorem copyUser_within :
    Bounded .dst lo hi (Within .dst lo hi) (copyUser mapped) := by
  refine copyFrame_within ?_ ?_ ?_
  · refine .bind (ld_within hhi (.inl rfl)) fun _ => .bind (ld_within hhi (.inl rfl)) fun _ =>
      .bind (ld_within hhi (.inl rfl)) fun _ => .bind (ld_within hhi (.inl rfl)) fun _ =>
      .bind (st_within hhi (.inr ⟨rfl, by decide⟩)) fun _ =>
      .bind (st_within hhi (.inr ⟨rfl, by decide⟩)) fun _ =>
      .bind (st_within hhi (.inr ⟨rfl, by decide⟩)) fun _ =>
      .bind (st_within hhi (.inr ⟨rfl, by decide⟩)) fun _ => advance_within hhi (by decide)
  all_goals
    exact .bind (ld_within hhi (.inl rfl)) fun _ =>
      .bind (st_within hhi (.inr ⟨rfl, by decide⟩)) fun _ => advance_within hhi (by decide)

theorem copyUserZeroing_within :
    Bounded .src lo hi (Within .src lo hi) (copyUserZeroing mapped) := by
  refine copyFrame_within ?_ ?_ ?_
  · refine .bind (ld_within hhi (.inr ⟨rfl, by decide⟩)) fun _ =>
      .bind (ld_within hhi (.inr ⟨rfl, by decide⟩)) fun _ =>
      .bind (st_within hhi (.inl rfl)) fun _ => .bind (st_within hhi (.inl rfl)) fun _ =>
      .bind (ld_within hhi (.inr ⟨rfl, by decide⟩)) fun _ =>
      .bind (ld_within hhi (.inr ⟨rfl, by decide⟩)) fun _ =>
      .bind (st_within hhi (.inl rfl)) fun _ => .bind (st_within hhi (.inl rfl)) fun _ =>
      advance_within hhi (by decide)
  all_goals
    exact .bind (ld_within hhi (.inr ⟨rfl, by decide⟩)) fun _ =>
      .bind (st_within hhi (.inl rfl)) fun _ => advance_within hhi (by decide)

theorem doClearUser_within :
    Bounded .dst lo hi (Within .dst lo hi) (doClearUser mapped) := by
  refine .get fun c _ => .ite (fun _ => .pure fun _ h => h.2) fun _ => ?_
  refine (loop_within (m := 1) (.bind (st_within hhi (.inr ⟨rfl, by decide⟩)) fun _ => ?_)
    ne_zero_le_toNat _).pre fun _ h => h.2
  exact .modify fun _ hc => hc.move (k := 1) hhi (by decide) rfl rfl rfl

end

/-- The fix-up code works on the kernel side only. -/
theorem zeroTail_touched (mapped : BitVec 20 → Bool) (fuel : Nat) (left : Addr) :
    Triple (fun c => c.touched = T) (zeroTail mapped fuel left) (fun _ c => c.touched = T)
      (fun c => c.touched = T) := by
  induction fuel generalizing left with
  | zero => exact .throw fun _ h => h
  | succ fuel ih =>
    refine .bind (Q := fun _ c => c.touched = T) ?_ fun _ => ?_
    · exact .get fun c _ => .bind (Q := fun _ (c : CopyState) => c.touched = T)
        (fun _ h => h.2) fun _ => .modify fun _ h => h
    · exact .bind (Q := fun _ c => c.touched = T) (.modify fun _ h => h) fun _ =>
        .ite (fun _ => .pure fun _ h => h) fun _ => ih _

end

/-! ### The copy functions -/

/-- Every byte touched lies below the limit. -/
def Confined (seg : Addr) (c : CopyState) : Prop := ∀ a ∈ c.touched, a < seg

theorem Within.confined (h : Within side lo hi c) (hhi : hi ≤ seg.toNat)
    : Confined seg c := fun a ha =>
  lt_def.mpr (Nat.lt_of_lt_of_le (h.touched a ha).2 hhi)

theorem confined_of_within (hlt : hi < seg.toNat)
    (hf : hi < 2 ^ 32 → ∀ {lo}, Bounded side lo hi (Within side lo hi) f)
    (hin : Within side lo hi c) : Confined seg (exitState (f c)) :=
  ((hf (Nat.lt_trans hlt seg.isLt)).exitState hin).confined (Nat.le_of_lt hlt)

theorem exitState_bytesLeft (r : EStateM.Result Stop CopyState Unit) :
    exitState (bytesLeft r) = exitState r := by
  cases r with
  | ok u c => rfl
  | error e c => cases e <;> rfl

/-- The fix-up code touches nothing more. -/
theorem copyUserZeroingFixup_touched (mapped : BitVec 20 → Bool) (c : CopyState) :
    (exitState (copyUserZeroingFixup mapped c)).touched =
      (exitState (copyUserZeroing mapped c)).touched := by
  unfold copyUserZeroingFixup
  cases copyUserZeroing mapped c with
  | ok u c => rfl
  | error e c =>
    cases e with
    | fixup => exact (zeroTail_touched mapped (2 ^ 32) c.n).exitState rfl
    | oops => rfl
    | spin => rfl

section

variable {seg n : Addr} (m : UserMem)

/-- A function that asks `access_ok` first and touches nothing if the answer is no. -/
theorem confined_of_accessOk (h : accessOk type seg u n → u.toNat + n.toNat < seg.toNat)
    (hr : u.toNat + n.toNat < seg.toNat → Confined seg (exitState r))
    (hr' : (exitState r').touched = []) :
    Confined seg (exitState (if accessOk type seg u n then bytesLeft r else r')) := by
  by_cases hok : accessOk type seg u n
  · rw [if_pos hok, exitState_bytesLeft]
    exact hr (h hok)
  · rw [if_neg hok]
    intro a ha
    rw [hr'] at ha
    exact absurd ha List.not_mem_nil

theorem copyFromUser_confined (h : accessOk .read seg src n → src.toNat + n.toNat < seg.toNat) :
    Confined seg (exitState (copyFromUser seg m dst src n)) := by
  refine confined_of_accessOk h (fun hlt => ?_) rfl
  unfold Confined
  rw [copyUserZeroingFixup_touched]
  exact confined_of_within hlt (copyUserZeroing_within m.mapped) ⟨Nat.le_refl _, rfl, by simp⟩

theorem copyToUser_confined (h : accessOk .write seg dst n → dst.toNat + n.toNat < seg.toNat) :
    Confined seg (exitState (copyToUser seg m dst src n)) := by
  refine confined_of_accessOk h (fun hlt => ?_) rfl
  exact confined_of_within hlt (copyUser_within m.mapped) ⟨Nat.le_refl _, rfl, by simp⟩

theorem clearUser_confined (h : accessOk .write seg dst n → dst.toNat + n.toNat < seg.toNat) :
    Confined seg (exitState (clearUser seg m dst n)) := by
  refine confined_of_accessOk h (fun hlt => ?_) rfl
  exact confined_of_within hlt (doClearUser_within m.mapped) ⟨Nat.le_refl _, rfl, by simp⟩

end

/-! ### What `access_ok` promises -/

/-- The sum in `access_ok` comes out below the limit by wrapping. -/
def WrapsBelow (seg addr n : Addr) : Prop :=
  addr < seg ∧ 2 ^ 32 ≤ addr.toNat + n.toNat ∧ addr.toNat + n.toNat - 2 ^ 32 < seg.toNat

theorem accessOk_iff (type : Verify) (seg addr n : Addr) :
    accessOk type seg addr n ↔ addr.toNat + n.toNat < seg.toNat ∨ WrapsBelow seg addr n := by
  unfold accessOk WrapsBelow
  rw [Bool.and_eq_true, decide_eq_true_iff, decide_eq_true_iff, lt_def, lt_def, toNat_add]
  omega

/-- What every user copy relies on: a range that `access_ok` accepts lies below the
limit, address by address, and the copy functions touch no user-side byte at or
above it, whatever is mapped. -/
def AccessSafe (seg addr n : Addr) : Prop :=
  (∀ type, accessOk type seg addr n → ∀ i < n.toNat, addr.toNat + i < seg.toNat) ∧
    ∀ (m : UserMem) (buf : Addr),
      Confined seg (exitState (copyFromUser seg m buf addr n)) ∧
        Confined seg (exitState (copyToUser seg m addr buf n)) ∧
        Confined seg (exitState (clearUser seg m addr n))

theorem accessSafe_iff (seg addr n : Addr) : AccessSafe seg addr n ↔ ¬ WrapsBelow seg addr n := by
  constructor
  · rintro ⟨hrange, -⟩ hwrap
    -- The limit itself is one of the addresses of the range.
    have := hrange .read ((accessOk_iff .read seg addr n).mpr (.inr hwrap))
      (seg.toNat - addr.toNat) (by have := hwrap.2.1; omega)
    omega
  · intro hwrap
    have hbelow : ∀ type, accessOk type seg addr n → addr.toNat + n.toNat < seg.toNat :=
      fun type hok => ((accessOk_iff type seg addr n).mp hok).resolve_right hwrap
    refine ⟨fun type hok i hi => ?_, fun m buf => ⟨?_, ?_, ?_⟩⟩
    · have := hbelow type hok
      omega
    · exact copyFromUser_confined m (hbelow .read)
    · exact copyToUser_confined m (hbelow .write)
    · exact clearUser_confined m (hbelow .write)

/-- Memory with only the last user page mapped. -/
def lastPageOnly : UserMem := ⟨fun _ => 0, fun p => p == 0x7FFFF⟩

/-- Under the limit of a user task, a copy of `0x80000001` bytes to the last user
byte passes `access_ok`, writes that byte and goes on to the first kernel byte. -/
theorem copyToUser_touches_kernel : accessOk .write 0x80000000 0x7FFFFFFF 0x80000001 = true ∧
      (exitState (copyToUser 0x80000000 lastPageOnly 0x7FFFFFFF 0x90000000 0x80000001)).touched =
        [0x80000000, 0x7FFFFFFF] ∧
      ¬ AccessSafe 0x80000000 0x7FFFFFFF 0x80000001 := by
  have htouched :
      (exitState (copyToUser 0x80000000 lastPageOnly 0x7FFFFFFF 0x90000000 0x80000001)).touched =
        [0x80000000, 0x7FFFFFFF] := rfl
  refine ⟨by decide, htouched, fun hsafe => ?_⟩
  have hlt := (hsafe.2 lastPageOnly 0x90000000).2.1 0x80000000 (by rw [htouched]; decide)
  exact absurd hlt (by decide)

end SilanKernel.Csky
