import Mathlib.Algebra.Group.Int.Defs
import Mathlib.Algebra.Group.Nat.Defs

/-!
# SilanKernel.Lib.Kstrtox

`kstrtoull` and `kstrtoll` of `lib/kstrtox.c`.

A string is the list of its characters up to the NUL, by their codes. `kstrtoll` takes a negated
value that is not negative for an overflow, and 0 with it: **negative zero is not an integer here**,
and `-0` is refused.
-/

namespace SilanKernel.Kstrtox

abbrev Str := List (BitVec 8)

inductive Errno
  | EINVAL
  | ERANGE

/-- What a call returns, and `*res` after it: it is written with the value and not otherwise. -/
def ret (res : α) : Except Errno α → Int × α
  | .ok v => (0, v)
  | .error .EINVAL => (-22, res)
  | .error .ERANGE => (-34, res)

/-- `_tolower` -/
def tolower (c : BitVec 8) : BitVec 8 := c ||| 0x20#8

/-- `isxdigit`: `_D` or `_X` in `_ctype` -/
def isxdigit (c : BitVec 8) : Bool :=
  0x30#8 ≤ c ∧ c ≤ 0x39#8 ∨ 0x41#8 ≤ c ∧ c ≤ 0x46#8 ∨ 0x61#8 ≤ c ∧ c ≤ 0x66#8

/-- `val`, if the character is a digit -/
def val (c : BitVec 8) : Option Nat :=
  if 0x30#8 ≤ c ∧ c ≤ 0x39#8 then some (c.toNat - 0x30)
  else if 0x61#8 ≤ tolower c ∧ tolower c ≤ 0x66#8 then some ((tolower c).toNat - 0x61 + 10)
  else none

/-- The loop of `_kstrtoull` and what follows it. -/
def loop (base : Nat) : Str → Nat → Bool → Except Errno Nat
  | [], acc, ok => if ok then .ok acc else .error .EINVAL
  | c :: s, acc, ok =>
    match val c with
    | some val =>
      if base ≤ val then .error .EINVAL
      else if acc > (2 ^ 64 - 1 - val) / base then .error .ERANGE
      else loop base s ((acc * base + val) % 2 ^ 64) true
    -- a newline before the NUL ends the loop
    | none => if c = 0x0a#8 ∧ s = [] then loop base s acc ok else .error .EINVAL

/-- `_kstrtoull` -/
def _kstrtoull (s : Str) (base : Nat) : Except Errno Nat :=
  let base :=
    if base = 0 then
      if s.getD 0 0 = 0x30#8 then
        if tolower (s.getD 1 0) = 0x78#8 ∧ isxdigit (s.getD 2 0) then 16 else 8
      else 10
    else base
  let s := if base = 16 ∧ s.getD 0 0 = 0x30#8 ∧ tolower (s.getD 1 0) = 0x78#8 then s.drop 2 else s
  loop base s 0 false

/-- `kstrtoull` -/
def kstrtoull (s : Str) (base : Nat) : Except Errno Nat :=
  _kstrtoull (if s.getD 0 0 = 0x2b#8 then s.drop 1 else s) base

/-- `kstrtoll` -/
def kstrtoll (s : Str) (base : Nat) : Except Errno Int :=
  if s.getD 0 0 = 0x2d#8 then do
    let tmp ← _kstrtoull (s.drop 1) base
    if 0 ≤ (-tmp : Int).bmod (2 ^ 64) then .error .ERANGE else .ok ((-tmp : Int).bmod (2 ^ 64))
  else do
    let tmp ← kstrtoull s base
    if (tmp : Int).bmod (2 ^ 64) < 0 then .error .ERANGE else .ok ((tmp : Int).bmod (2 ^ 64))

/-! ### What a string denotes -/

/-- The digit `d`, in either case. -/
abbrev IsDigit (c : BitVec 8) (d : Nat) : Prop :=
  d < 16 ∧ (c.toNat = d.digitChar.toNat ∨ c.toNat = d.digitChar.toUpper.toNat)

/-- The digits of the string, up to a final newline, take `a` to `v`. -/
def Reads (b : Nat) : Str → Nat → Nat → Prop
  | [], a, v => v = a
  | c :: s, a, v =>
    (c = 0x0a#8 ∧ s = []) ∧ v = a ∨ ∃ d, IsDigit c d ∧ d < b ∧ Reads b s (a * b + d) v

def Digits (b : Nat) (s : Str) (v : Nat) : Prop := Reads b s 0 v ∧ s ≠ [] ∧ s ≠ [0x0a#8]

/-- The string starts with `0x` or `0X`. -/
def HexPrefix (s : Str) : Prop := s.getD 0 0 = 0x30#8 ∧ (s.getD 1 0 = 0x78#8 ∨ s.getD 1 0 = 0x58#8)

/-- Digits of base 16 after such a prefix, or digits of the base that is given or selected. -/
def Numeral (base : Nat) (s : Str) (v : Nat) : Prop :=
  HexPrefix s ∧ (base = 0 ∨ base = 16) ∧ Digits 16 (s.drop 2) v ∨
    Digits (if base = 0 then if s.getD 0 0 = 0x30#8 then 8 else 10 else base) s v

def Unsigned (base : Nat) (s : Str) (v : Nat) : Prop :=
  Numeral base s v ∨ ∃ t, s = 0x2b#8 :: t ∧ Numeral base t v

def Denotes (base : Nat) (s : Str) (v : Int) : Prop :=
  ∃ n : Nat, v = n ∧ Unsigned base s n ∨ v = -n ∧ ∃ t, s = 0x2d#8 :: t ∧ Numeral base t n

theorem val_eq_some : val c = some d ↔ IsDigit c d := by
  have hlt : ∀ c, ∀ d ∈ val c, d < 16 := by decide +kernel
  have hdigit : ∀ c, ∀ d : Fin 16, val c = some d.1 ↔ IsDigit c d := by decide +kernel
  by_cases hd : d < 16
  · exact hdigit c ⟨d, hd⟩
  · exact iff_of_false (fun h => hd (hlt c d h)) fun h => hd h.1

theorem reads_cons : Reads b (c :: s) a v ↔
    (c = 0x0a#8 ∧ s = []) ∧ v = a ∨ ∃ d, val c = some d ∧ d < b ∧ Reads b s (a * b + d) v := by
  simp only [val_eq_some, Reads]

theorem Reads.le (hb : 0 < b) (h : Reads b s a v) : a ≤ v := by
  induction s generalizing a with
  | nil => exact Nat.le_of_eq h.symm
  | cons c s ih =>
    rcases h with h | ⟨d, _, _, h⟩
    · exact Nat.le_of_eq h.2.symm
    · exact Nat.le_trans (Nat.le_mul_of_pos_right a hb) (Nat.le_of_add_right_le (ih h))

theorem loop_iff (hb : 0 < b) (hacc : acc < 2 ^ 64) : loop b s acc ok = .ok v ↔
    (Reads b s acc v ∧ (ok = true ∨ s ≠ [] ∧ s ≠ [0x0a#8])) ∧ v < 2 ^ 64 := by
  induction s generalizing acc ok with
  | nil =>
    simp only [loop, Reads]
    grind
  | cons c s ih =>
    rw [loop, reads_cons]
    cases hc : val c with
    | none =>
      by_cases hend : c = 0x0a#8 ∧ s = []
      · obtain ⟨rfl, rfl⟩ := hend
        simp [ih hacc, Reads]
      · simp [hend]
    | some d =>
      have hd := (val_eq_some.mp hc).1
      have hne : c ≠ 0x0a#8 := by
        rintro rfl
        cases hc
      -- the test before the multiplication is exact
      have hdiv := Nat.le_div_iff_mul_le (x := acc) (y := 2 ^ 64 - 1 - d) hb
      have hle := @Reads.le b s (acc * b + d) v hb
      have hmod := @Nat.mod_eq_of_lt (acc * b + d) (2 ^ 64)
      have hrest := @ih (acc * b + d) true
      grind

theorem not_reads (hc : val c = none) (hne : c ≠ 0x0a#8) : ¬ Reads b (c :: s) a v := by
  simp [reads_cons, hc, hne]

theorem not_numeral (h0 : c ≠ 0x30#8) (hc : val c = none) (hne : c ≠ 0x0a#8) :
    ¬ Numeral base (c :: s) v := by
  rintro (h | h)
  · exact h0 h.1.1
  · exact not_reads hc hne h.1

theorem HexPrefix.not_digits (h : HexPrefix s) : ¬ Digits b s v := by
  rcases s with _ | ⟨c, _ | ⟨x, t⟩⟩
  · cases h.1
  · rcases h.2 with h | h <;> cases h
  rintro ⟨hr, -⟩
  obtain ⟨rfl, hx⟩ : c = 0x30#8 ∧ (x = 0x78#8 ∨ x = 0x58#8) := h
  rcases hr with h | ⟨d, -, -, h⟩
  · cases h.1.1
  · rcases hx with rfl | rfl <;> exact not_reads (by decide) (by decide) h

theorem Digits.isxdigit (h : Digits 16 s v) : isxdigit (s.getD 0 0) := by
  have hval : ∀ c, val c ≠ none → Kstrtox.isxdigit c := by decide +kernel
  cases s with
  | nil => exact absurd rfl h.2.1
  | cons c s =>
    rcases reads_cons.mp h.1 with ⟨⟨rfl, rfl⟩, _⟩ | ⟨d, hd, _⟩
    · exact absurd rfl h.2.2
    · exact hval c (hd ▸ nofun)

theorem _kstrtoull_iff (hb : base ≠ 1) : _kstrtoull s base = .ok v ↔ Numeral base s v ∧
    v < 2 ^ 64 := by
  have hloop : ∀ {b t}, 0 < b → (loop b t 0 false = .ok v ↔ Digits b t v ∧ v < 2 ^ 64) := by
    intro b t hb
    simp [loop_iff hb, Digits]
  have hlower : ∀ x, tolower x = 0x78#8 ↔ x = 0x78#8 ∨ x = 0x58#8 := by decide +kernel
  have hno : HexPrefix s → ∀ b, ¬ Digits b s v := fun h b => h.not_digits
  have hxdigit : Digits 16 (s.drop 2) v → isxdigit (s.getD 2 0) :=
    fun h => by simpa using h.isxdigit
  simp only [_kstrtoull, Numeral, hlower]
  grind [HexPrefix]

theorem kstrtoull_iff (hb : base ≠ 1) : kstrtoull s base = .ok v ↔ Unsigned base s v ∧
    v < 2 ^ 64 := by
  rw [kstrtoull, _kstrtoull_iff hb, Unsigned]
  refine and_congr_left fun _ => ?_
  rcases s with _ | ⟨c, t⟩
  · simp
  by_cases hc : c = 0x2b#8
  · have hno := @not_numeral 0x2b#8 base t v (by decide) (by decide) (by decide)
    simp [hc, hno]
  · simp [hc]

theorem bind_iff {m : Except Errno Nat} {P : Nat → Prop} [DecidablePred P] {f : Nat → Int} :
    (m >>= fun x => if P x then .error .ERANGE else .ok (f x)) = .ok v ↔ ∃ x, m = .ok x ∧ ¬ P x ∧
      f x = v := by
  cases m with
  | error => simp [bind, Except.bind]
  | ok x => by_cases hP : P x <;> simp [bind, Except.bind, hP]

theorem kstrtoll_iff (hb : base ≠ 1) : kstrtoll s base = .ok v ↔
    Denotes base s v ∧ (v = 0 → s.head? ≠ some 0x2d#8) ∧ -2 ^ 63 ≤ v ∧ v < 2 ^ 63 := by
  unfold kstrtoll Denotes
  split
  next h =>
    rcases s with _ | ⟨c, t⟩
    · cases h
    obtain rfl : c = 0x2d#8 := h
    have hno : ∀ n, ¬ Unsigned base (0x2d#8 :: t) n := by
      rintro n (h | ⟨t, h, _⟩)
      · exact not_numeral (by decide) (by decide) (by decide) h
      · cases h
    simp only [bind_iff, List.drop_succ_cons, List.drop_zero, _kstrtoull_iff hb, hno, Int.bmod_def]
    constructor
    · rintro ⟨x, ⟨hx, hlt⟩, hneg, rfl⟩
      refine ⟨⟨x, .inr ⟨?_, t, rfl, hx⟩⟩, fun h0 => ?_, ?_⟩ <;> omega
    · rintro ⟨⟨n, h | ⟨rfl, _, ⟨⟩, hn⟩⟩, hz, hv⟩
      · exact h.2.elim
      have hne : n ≠ 0 := by
        rintro rfl
        exact hz rfl rfl
      refine ⟨n, ⟨hn, ?_⟩, ?_, ?_⟩ <;> omega
  next h =>
    simp only [bind_iff, kstrtoull_iff hb, Int.bmod_def]
    constructor
    · rintro ⟨x, ⟨hx, hlt⟩, hneg, rfl⟩
      refine ⟨⟨x, .inl ⟨by omega, hx⟩⟩, fun _ hs => h ?_, by omega⟩
      rw [List.getD_eq_getElem?_getD, ← List.head?_eq_getElem?, hs]
      rfl
    · rintro ⟨⟨n, ⟨rfl, hn⟩ | ⟨_, t, rfl, _⟩⟩, -, hv⟩
      · refine ⟨n, ⟨hn, ?_⟩, ?_, ?_⟩ <;> omega
      · exact absurd rfl h

/-- The call returns 0 and stores the value with `P`, or it returns an error and `*res` is still
`r`. -/
def Stores (P : α → Prop) (r : α) (out : Except Errno α) : Prop :=
  (∀ v, ret r out = (0, v) ↔ P v) ∧
    ((ret r out).1 ≠ 0 → ret r out = (-22, r) ∨ ret r out = (-34, r))

theorem stores_of_iff {P : α → Prop} (h : ∀ v, out = .ok v ↔ P v) (r : α) : Stores P r out := by
  cases out with
  | ok x => simp [Stores, ret, ← h]
  | error e => cases e <;> simp [Stores, ret, ← h]

/-- **`kstrtoll` and `kstrtoull` store the integer that the string denotes**, if it fits the type
and is not 0 with a minus sign. -/
theorem kstrtoll_stores (s : Str) (hb : base ≠ 1) (r : Int) (u : Nat) :
    Stores (fun v =>
        Denotes base s v ∧ (v = 0 → s.head? ≠ some 0x2d#8) ∧ -2 ^ 63 ≤ v ∧ v < 2 ^ 63)
        r (kstrtoll s base) ∧
      Stores (fun v => Unsigned base s v ∧ v < 2 ^ 64) u (kstrtoull s base) :=
  ⟨stores_of_iff (fun _ => kstrtoll_iff hb) r, stores_of_iff (fun _ => kstrtoull_iff hb) u⟩

theorem kstrtoll_stores_five : ret 7 (kstrtoll [0x35#8] 10) = (0, 5) := by
  have hstores := (kstrtoll_stores [0x35#8] (show 10 ≠ 1 by decide) 7 7).1
  refine (hstores.1 5).mpr ⟨⟨5, .inl ⟨rfl, .inl (.inr ⟨?_, ?_⟩)⟩⟩, by decide⟩
  · exact .inr ⟨5, by decide, by decide, rfl⟩
  · decide

/-- `-0` denotes 0, and `-ERANGE` is returned. -/
theorem kstrtoll_minus_zero : Denotes 10 [0x2d#8, 0x30#8] 0 ∧
    ret 7 (kstrtoll [0x2d#8, 0x30#8] 10) = (-34, 7) := by
  refine ⟨⟨0, .inr ⟨rfl, _, rfl, .inr ⟨.inr ⟨0, by decide, by decide, rfl⟩, by decide⟩⟩⟩, by decide⟩

end SilanKernel.Kstrtox
