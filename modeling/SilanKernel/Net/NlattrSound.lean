import SilanKernel.Net.Nlattr
import SilanKernel.Data.Run
import Mathlib.Data.List.Induction
import Mathlib.Data.List.TakeWhile

/-!
# SilanKernel.Net.NlattrSound

What `nla_parse` makes of an arbitrary buffer.

The stream of attributes and the meaning of a policy are stated on the bytes alone
(`attrs`, `Satisfies`). The parser goes through the attributes up to the first one that
its policy rejects (`met`), reads nothing but bytes of the buffer on the way, and leaves
in `tb` the last of each type.
-/

namespace SilanKernel.Net.Nlattr

open List Function Nat NlaType

namespace Stream

variable (b : Stream)

/-! ### Attributes -/

/-- The 16-bit number at `a`. -/
def half (a : Nat) : Nat :=
  ((if b.be then b.byte a ++ b.byte (a + 1) else b.byte (a + 1) ++ b.byte a) : BitVec 16).toNat

/-- The length of the attribute at `o`, with its header. -/
def attrLen (o : Nat) : Nat := b.half o

/-- The type of the attribute at `o`. -/
def attrType (o : Nat) : Nat := b.half (o + 2) % 2 ^ 14

/-- The length of its payload. -/
def payloadLen (o : Nat) : Nat := b.attrLen o - NLA_HDRLEN

/-- An attribute lies at `o`, wholly inside the first `len` bytes. -/
def Inside (len o : Nat) : Prop := o + 4 ≤ len ∧ 4 ≤ b.attrLen o ∧ o + b.attrLen o ≤ len

instance (len o : Nat) : Decidable (b.Inside len o) :=
  inferInstanceAs (Decidable (_ ∧ _))

theorem lt_nlaAlign (h : 4 ≤ n) : n ≤ nlaAlign n ∧ 4 ≤ nlaAlign n := by
  unfold nlaAlign
  omega

/-- The attributes from `o` on. -/
def attrs (len o : Nat) : List Nat :=
  if _h : b.Inside len o then o :: attrs len (o + nlaAlign (b.attrLen o)) else []
termination_by len - o
decreasing_by
  have := lt_nlaAlign _h.2.1
  have := _h.1
  omega

/-! ### Policies -/

/-- The length of a string payload without the NUL at its end. -/
def stringLen (o : Nat) : Nat :=
  if b.byte (nlaData o + (b.payloadLen o - 1)) = 0 then b.payloadLen o - 1 else b.payloadLen o

/-- A string is not empty, and not longer than `len` unless that is 0. -/
def FitsString (len o : Nat) : Prop :=
  1 ≤ b.payloadLen o ∧ (len ≠ 0 → b.stringLen o ≤ len)

/-- The shortest payload of a type: the policy's, or else the type's own. -/
def minLen (type : NlaType) (len : Nat) : Int :=
  if len ≠ 0 then len else nlaAttrMinlen type

/-- The payload at `o` is right for a type and the policy's `len`. -/
def Fits (len o : Nat) : NlaType → Prop
  | .flag => b.payloadLen o = 0
  | .nulString =>
    (∃ i, i < (if len ≠ 0 then min (b.payloadLen o) (len + 1) else b.payloadLen o) ∧
      b.byte (nlaData o + i) = 0) ∧ b.FitsString len o
  | .string => b.FitsString len o
  | .binary => len ≠ 0 → b.payloadLen o ≤ len
  -- behind the padded structure there is nothing, or a whole attribute
  | .nestedCompat =>
    len ≤ b.payloadLen o ∧ (nlaAlign len ≤ b.payloadLen o →
      nlaAlign len + NLA_HDRLEN ≤ b.payloadLen o ∧
        nlaAlign len + b.attrLen (nlaData o + nlaAlign len) ≤ b.payloadLen o)
  | .nested => b.payloadLen o = 0 ∨ minLen .nested len ≤ b.payloadLen o
  | type => minLen type len ≤ b.payloadLen o

/-- The attribute at `o` satisfies a policy. -/
def Satisfies (pt : NlaPolicy) (o : Nat) : Prop :=
  ∃ type, NlaType.ofCode pt.type = some type ∧ b.Fits pt.len.toNat o type

/-- The attribute at `o` is one the caller asks for. -/
def Wanted (maxtype o : Nat) : Prop := 0 < b.attrType o ∧ b.attrType o ≤ maxtype

instance (maxtype o : Nat) : Decidable (b.Wanted maxtype o) :=
  inferInstanceAs (Decidable (_ ∧ _))

/-- The attribute at `o` is not one at which the parser stops. -/
def Accepted (maxtype : Nat) (policy : Option (Nat → NlaPolicy)) (o : Nat) : Prop :=
  b.Wanted maxtype o → ∀ p, policy = some p → b.Satisfies (p (b.attrType o)) o

open Classical in
/-- The attributes from `o` on that are met before the parser stops. -/
noncomputable def met (maxtype len : Nat) (policy : Option (Nat → NlaPolicy))
    (o : Nat) : List Nat :=
  (b.attrs len o).takeWhile fun o => decide (b.Accepted maxtype policy o)

/-! ### Reading -/

/-- The state has changed by reading bytes of the buffer. -/
def Scanned (len : Nat) (s s' : Parser) : Prop :=
  s'.tb = s.tb ∧ ∀ a ∈ s'.reads, a ∈ s.reads ∨ a < len

theorem Scanned.refl (s : Parser) : Scanned len s s :=
  ⟨rfl, fun _ h => .inl h⟩

theorem Scanned.trans (h : Scanned len s t) (h' : Scanned len t u) : Scanned len s u := by
  constructor
  · exact h'.1.trans h.1
  · intro a ha
    rcases h'.2 a ha with hr | hlt
    · exact h.2 a hr
    · exact .inr hlt

variable {b} {len o a n : Nat} {P : Prop} {α : Type} {p : Parse α}

theorem read_gives (h : a < len) : Gives (Scanned len) (b.read a) (b.byte a) := by
  intro s
  refine ⟨_, rfl, rfl, fun x hx => ?_⟩
  rcases mem_cons.mp hx with rfl | hx
  · exact .inr h
  · exact .inl hx

theorem gives_pure (x : α) : Gives (Scanned len) (pure x : Parse α) x :=
  Gives.pure Scanned.refl x

theorem gives_bind {β : Type} {k : α → Parse β} {x : α} {y : β} (hp : Gives (Scanned len) p x)
    (hk : Gives (Scanned len) (k x) y) : Gives (Scanned len) (p >>= k) y :=
  Gives.bind Scanned.trans hp hk

theorem read16_gives (h : a + 1 < len) : Gives (Scanned len) (b.read16 a) (b.half a) :=
  gives_bind (read_gives (by omega)) (gives_bind (read_gives h) (gives_pure _))

theorem lenField_gives (h : o + 4 ≤ len) : Gives (Scanned len) (b.lenField o) (b.attrLen o) :=
  read16_gives (by omega)

theorem nlaType_gives (h : o + 4 ≤ len) : Gives (Scanned len) (b.nlaType o) (b.attrType o) :=
  gives_bind (read16_gives (by omega)) (gives_pure _)

theorem nlaLen_gives (h : o + 4 ≤ len) : Gives (Scanned len) (b.nlaLen o)
    (b.attrLen o - NLA_HDRLEN : Int) :=
  gives_bind (lenField_gives h) (gives_pure _)

/-- The header is read only when it lies in the buffer. -/
theorem nlaOk_gives {rem : Int} (hrem : rem = len - o) :
    Gives (Scanned len) (b.nlaOk o rem) (decide (b.Inside len o)) := by
  unfold nlaOk
  by_cases h4 : (4 : Int) ≤ rem
  · have ho : o + 4 ≤ len := by omega
    rw [if_pos h4]
    apply gives_bind (lenField_gives ho)
    by_cases hl : 4 ≤ b.attrLen o
    · rw [if_pos hl]
      apply gives_bind (lenField_gives ho)
      have hiff : (b.attrLen o : Int) ≤ rem ↔ b.Inside len o := by
        unfold Inside
        omega
      simp only [hiff]
      exact gives_pure _
    · rw [if_neg hl, decide_eq_false fun h => hl h.2.1]
      exact gives_pure _
  · have hnot : ¬ b.Inside len o := by
      intro h
      have := h.1
      omega
    rw [if_neg h4, decide_eq_false hnot]
    exact gives_pure _

theorem nlaNext_gives (rem : Int) (h : o + 4 ≤ len) :
    Gives (Scanned len) (b.nlaNext o rem)
      (o + nlaAlign (b.attrLen o), rem - nlaAlign (b.attrLen o)) :=
  gives_bind (lenField_gives h) (gives_pure _)

/-- The search stays in its range, and finds a NUL if there is one. -/
theorem memchrNul_gives (h : a + n ≤ len) :
    ∃ r, Gives (Scanned len) (b.memchrNul a n) r ∧
      (r.isSome = true ↔ ∃ i, i < n ∧ b.byte (a + i) = 0) := by
  induction n generalizing a with
  | zero => exact ⟨none, gives_pure _, by simp⟩
  | succ n ih =>
    by_cases hz : b.byte a = 0
    · refine ⟨some a, gives_bind (read_gives (by omega)) ?_, ?_⟩
      · rw [if_pos hz]
        exact gives_pure _
      · exact iff_of_true rfl ⟨0, succ_pos n, hz⟩
    obtain ⟨r, hr, hiff⟩ := ih (a := a + 1) (by omega)
    refine ⟨r, gives_bind (read_gives (by omega)) ?_, ?_⟩
    · rw [if_neg hz]
      exact hr
    rw [hiff]
    constructor
    · intro ⟨i, hi, hbyte⟩
      exact ⟨i + 1, by omega, by rwa [← Nat.add_assoc, Nat.add_right_comm]⟩
    · intro ⟨i, hi, hbyte⟩
      cases i with
      | zero => exact absurd hbyte hz
      | succ i => exact ⟨i, by omega, by rwa [Nat.add_right_comm, Nat.add_assoc]⟩

/-! ### `validate_nla` -/

/-- The program reads inside the buffer and returns an error unless `P`. -/
def Checks (len : Nat) (p : Parse Int) (P : Prop) : Prop :=
  ∃ err, Gives (Scanned len) p err ∧ (err < 0 ↔ ¬ P)

theorem Checks.bind {k : α → Parse Int} {x : α} (hp : Gives (Scanned len) p x)
    (hk : Checks len (k x) P) : Checks len (p >>= k) P := by
  obtain ⟨err, hgives, hiff⟩ := hk
  exact ⟨err, gives_bind hp hgives, hiff⟩

theorem checks_erange (h : ¬ P) : Checks len (pure (-ERANGE)) P :=
  ⟨_, gives_pure _, iff_of_true (by decide) h⟩

theorem checks_einval (h : ¬ P) : Checks len (pure (-EINVAL)) P :=
  ⟨_, gives_pure _, iff_of_true (by decide) h⟩

theorem checks_zero (h : P) : Checks len (pure 0) P :=
  ⟨_, gives_pure _, iff_of_false (by decide) (not_not_intro h)⟩

theorem checks_ite {c : Prop} [Decidable c] (h : c ↔ ¬ P) :
    Checks len (pure (if c then -ERANGE else 0)) P := by
  by_cases hc : c
  · rw [if_pos hc]
    exact checks_erange (h.mp hc)
  · rw [if_neg hc]
    exact checks_zero (not_not.mp fun hp => hc (h.mpr hp))

theorem validateMinlen_neg_iff {l : Nat} (type : NlaType) :
    validateMinlen type (b.payloadLen o) l < 0 ↔ ¬ minLen type l ≤ b.payloadLen o := by
  have hunspec : (if type ≠ .unspec then nlaAttrMinlen type else 0) = nlaAttrMinlen type := by
    cases type <;> rfl
  have hmin : (if (l : Int) ≠ 0 then (l : Int) else nlaAttrMinlen type) = minLen type l := by
    unfold minLen
    split_ifs <;> omega
  simp only [validateMinlen, hunspec, hmin]
  split_ifs with h
  · exact iff_of_true (by decide) (Int.not_le.mpr h)
  · exact iff_of_false (by decide) (not_not_intro (Int.not_lt.mp h))

section

variable (hin : b.Inside len o) {l maxtype : Nat} {policy : Nat → NlaPolicy}

include hin

/-- The payload ends where the attribute does. -/
theorem Inside.payload : nlaData o + b.payloadLen o ≤ len ∧
    (b.attrLen o : Int) - NLA_HDRLEN = b.payloadLen o := by
  obtain ⟨-, hmin, hend⟩ := hin
  simp only [nlaData, payloadLen, NLA_HDRLEN]
  omega

theorem validateString_checks : Checks len (b.validateString o (b.payloadLen o) l)
    (b.FitsString l o) := by
  have hpay := hin.payload.1
  unfold validateString
  by_cases h1 : (b.payloadLen o : Int) < 1
  · rw [if_pos h1]
    apply checks_erange
    intro h
    have := h.1
    omega
  rw [if_neg h1]
  by_cases hl : (l : Int) ≠ 0
  · rw [if_pos hl, show ((b.payloadLen o : Int) - 1).toNat = b.payloadLen o - 1 by omega]
    apply Checks.bind (read_gives (by omega))
    have hlen : (if b.byte (nlaData o + (b.payloadLen o - 1)) = 0 then (b.payloadLen o : Int) - 1
        else b.payloadLen o) = b.stringLen o := by
      unfold stringLen
      split_ifs <;> omega
    rw [hlen]
    by_cases hlt : (l : Int) < b.stringLen o
    · rw [if_pos hlt]
      apply checks_erange
      intro h
      have := h.2 (by omega)
      omega
    · rw [if_neg hlt]
      exact checks_zero ⟨by omega, fun _ => by omega⟩
  · rw [if_neg hl]
    exact checks_zero ⟨by omega, fun h => absurd h (by omega)⟩

theorem validateNulString_checks :
    Checks len (b.validateNulString o (b.payloadLen o) l) (b.Fits l o .nulString) := by
  have hpay := hin.payload.1
  have hbound : b.payloadLen o < 2 ^ 16 := by
    simp only [payloadLen, attrLen, half]
    omega
  have hmin : (if (l : Int) ≠ 0 then min (b.payloadLen o : Int) (l + 1) else b.payloadLen o) =
      ((if l ≠ 0 then min (b.payloadLen o) (l + 1) else b.payloadLen o : Nat) : Int) := by
    split_ifs <;> omega
  have hle : (if l ≠ 0 then min (b.payloadLen o) (l + 1) else b.payloadLen o) ≤ b.payloadLen o := by
    split_ifs <;> omega
  unfold validateNulString Fits
  simp only [hmin]
  generalize (if l ≠ 0 then min (b.payloadLen o) (l + 1) else b.payloadLen o) = m at hle
  by_cases h0 : (m : Int) = 0
  · rw [if_pos h0]
    apply checks_einval
    intro ⟨⟨i, hi, _⟩, _⟩
    omega
  have hsize : ((m : Int) % 2 ^ 32).toNat = m := by omega
  rw [if_neg h0, hsize]
  obtain ⟨r, hr, hiff⟩ := memchrNul_gives (b := b) (a := nlaData o) (n := m)
    (show nlaData o + m ≤ len by omega)
  apply Checks.bind hr
  cases r with
  | none =>
    apply checks_einval
    intro ⟨hfound, _⟩
    exact absurd (hiff.mpr hfound) (by decide)
  | some _ =>
    obtain ⟨err, hgives, herr⟩ := validateString_checks hin (l := l)
    refine ⟨err, hgives, herr.trans ?_⟩
    have hfound := hiff.mp rfl
    constructor
    · exact fun h hboth => h hboth.2
    · exact fun h hstring => h ⟨hfound, hstring⟩

theorem validateNestedCompat_checks :
    Checks len (b.validateNestedCompat o (b.payloadLen o) l) (b.Fits l o .nestedCompat) := by
  have hpay := hin.payload.1
  unfold validateNestedCompat Fits
  by_cases h1 : (b.payloadLen o : Int) < l
  · rw [if_pos h1]
    apply checks_erange
    intro h
    omega
  rw [if_neg h1]
  by_cases h2 : (b.payloadLen o : Int) < nlaAlign l
  · rw [if_pos h2]
    exact checks_zero ⟨by omega, fun h => by omega⟩
  rw [if_neg h2]
  by_cases h3 : (b.payloadLen o : Int) < nlaAlign l + NLA_HDRLEN
  · rw [if_pos h3]
    apply checks_erange
    intro h
    omega
  rw [if_neg h3]
  have hnested : nlaData o + nlaAlign l + 4 ≤ len := by
    simp only [NLA_HDRLEN] at h3
    omega
  apply Checks.bind (nlaLen_gives hnested)
  by_cases h4 : (b.payloadLen o : Int) < nlaAlign l + NLA_HDRLEN +
    (b.attrLen (nlaData o + nlaAlign l) - NLA_HDRLEN)
  · rw [if_pos h4]
    apply checks_erange
    intro h
    omega
  · rw [if_neg h4]
    exact checks_zero ⟨by omega, fun _ => ⟨by omega, by omega⟩⟩

theorem validateType_checks (type : NlaType) :
    Checks len (b.validateType o (b.payloadLen o) l type) (b.Fits l o type) := by
  have hminlen : ∀ type, Checks len (pure (validateMinlen type (b.payloadLen o) l))
      (minLen type l ≤ b.payloadLen o) :=
    fun type => ⟨_, gives_pure _, validateMinlen_neg_iff type⟩
  cases type with
  | flag => exact checks_ite (by show _ ↔ ¬ b.payloadLen o = 0; omega)
  | nulString => exact validateNulString_checks hin
  | string => exact validateString_checks hin
  | binary => exact checks_ite (by show _ ↔ ¬ (l ≠ 0 → b.payloadLen o ≤ l); omega)
  | nestedCompat => exact validateNestedCompat_checks hin
  | nested =>
    show Checks len (pure (if (b.payloadLen o : Int) = 0 then 0 else
      validateMinlen .nested (b.payloadLen o) l))
        (b.payloadLen o = 0 ∨ minLen .nested l ≤ b.payloadLen o)
    by_cases h0 : (b.payloadLen o : Int) = 0
    · rw [if_pos h0]
      exact checks_zero (.inl (by omega))
    · rw [if_neg h0]
      refine ⟨_, gives_pure _, (validateMinlen_neg_iff _).trans (not_congr ?_)⟩
      exact (or_iff_right (by omega)).symm
  | unspec => exact hminlen _
  | u8 => exact hminlen _
  | u16 => exact hminlen _
  | u32 => exact hminlen _
  | u64 => exact hminlen _
  | msecs => exact hminlen _

/-- On an attribute the caller asks for, whose policy has a known type. -/
theorem validateNla_checks (hw : b.Wanted maxtype o)
    (htype : ofCode (policy (b.attrType o)).type = some type) :
    Checks len (b.validateNla o maxtype policy) (b.Satisfies (policy (b.attrType o)) o) := by
  apply Checks.bind (nlaLen_gives hin.1)
  apply Checks.bind (nlaType_gives hin.1)
  rw [if_neg (by have := hw.1; have := hw.2; omega), htype, hin.payload.2]
  obtain ⟨err, hgives, hiff⟩ :=
    validateType_checks hin (l := (policy (b.attrType o)).len.toNat) type
  refine ⟨err, hgives, hiff.trans (not_congr ?_)⟩
  constructor
  · exact fun h => ⟨type, htype, h⟩
  · intro ⟨type', htype', h⟩
    rw [htype] at htype'
    exact Option.some.inj htype' ▸ h

/-- On one whose policy has an unknown type it stops. -/
theorem validateNla_bug (hw : b.Wanted maxtype o)
    (htype : ofCode (policy (b.attrType o)).type = none) (s : Parser) :
    ∃ s', b.validateNla o maxtype policy s = .error .bug s' ∧ Scanned len s s' := by
  obtain ⟨s1, h1, hs1⟩ := nlaLen_gives (b := b) hin.1 s
  obtain ⟨s2, h2, hs2⟩ := nlaType_gives (b := b) hin.1 s1
  refine ⟨s2, ?_, hs1.trans hs2⟩
  unfold validateNla
  rw [bind_of_ok h1, bind_of_ok h2, if_neg (by have := hw.1; have := hw.2; omega), htype]
  rfl

end

/-! ### `nla_parse` -/

/-- What an accepted attribute changes in `tb`. -/
def keep (b : Stream) (maxtype : Nat) (tb : Nat → Option Nat) (o : Nat) : Nat → Option Nat :=
  if b.Wanted maxtype o then Function.update tb (b.attrType o) (some o) else tb

/-- How the loop ends: it has read bytes of the buffer and kept the attributes of `l`. It
stops at `BUG_ON` only for a policy of unknown type. -/
structure LoopEnds (b : Stream) (maxtype len : Nat) (policy : Option (Nat → NlaPolicy))
    (l : List Nat) (s : Parser) (r : EStateM.Result Stop Parser Int) : Prop where
  reads : ∀ a ∈ (exitState r).reads, a ∈ s.reads ∨ a < len
  tb : (exitState r).tb = l.foldl (keep b maxtype) s.tb
  ends : ∀ s', r ≠ .error .endless s'
  bug : ∀ s', r = .error .bug s' →
    ∃ p t, policy = some p ∧ 0 < t ∧ t ≤ maxtype ∧ NlaType.ofCode (p t).type = none

section

variable {maxtype x : Nat} {policy : Option (Nat → NlaPolicy)} {s s' : Parser}
  {r : EStateM.Result Stop Parser Int} {l : List Nat}

theorem met_outside (h : ¬ b.Inside len o) : b.met maxtype len policy o = [] := by
  rw [met, attrs, dif_neg h]
  rfl

theorem met_accepted (h : b.Inside len o) (hacc : b.Accepted maxtype policy o) :
    b.met maxtype len policy o = o :: b.met maxtype len policy (o + nlaAlign (b.attrLen o)) := by
  rw [met, attrs, dif_pos h, takeWhile_cons_of_pos (by simpa using hacc)]
  rfl

theorem met_rejected (h : b.Inside len o) (hacc : ¬ b.Accepted maxtype policy o) :
    b.met maxtype len policy o = [] := by
  rw [met, attrs, dif_pos h, takeWhile_cons_of_neg (by simpa using hacc)]

/-- The loop stops in a state that has only been read in. -/
theorem LoopEnds.here (hs : Scanned len s s') (err : Int) : LoopEnds b maxtype len policy [] s
    (.ok err s') :=
  ⟨hs.2, hs.1, fun _ => nofun, fun _ => nofun⟩

/-- The loop after an accepted attribute. -/
theorem LoopEnds.cons (hreads : ∀ a ∈ s'.reads, a ∈ s.reads ∨ a < len)
    (htb : s'.tb = keep b maxtype s.tb o) (h : LoopEnds b maxtype len policy l s' r) :
    LoopEnds b maxtype len policy (o :: l) s r := by
  refine ⟨?_, by rw [h.tb, htb, foldl_cons], h.ends, h.bug⟩
  intro a ha
  rcases h.reads a ha with hr | hlt
  · exact hreads a hr
  · exact .inr hlt

/-- The check of an attribute the caller asks for: it is rejected, or the parser stops at
`BUG_ON`, unless it is accepted. -/
theorem check_cases (hin : b.Inside len o) (hw : b.Wanted maxtype o) (s : Parser) :
    (∃ err s', b.check o maxtype policy s = .ok err s' ∧ Scanned len s s' ∧
      (err < 0 ↔ ¬ b.Accepted maxtype policy o)) ∨
      (∃ s', b.check o maxtype policy s = .error .bug s' ∧ Scanned len s s' ∧
      ¬ b.Accepted maxtype policy o ∧
        ∃ p t, policy = some p ∧ 0 < t ∧ t ≤ maxtype ∧ ofCode (p t).type = none) := by
  cases policy with
  | none =>
    left
    exact ⟨0, s, rfl, Scanned.refl s, iff_of_false (by decide)
      (not_not_intro fun _ p hp => nomatch hp)⟩
  | some p =>
    cases htype : ofCode (p (b.attrType o)).type with
    | none =>
      right
      obtain ⟨s', hrun, hs'⟩ := validateNla_bug hin hw htype s
      refine ⟨s', hrun, hs', ?_, p, _, rfl, hw.1, hw.2, htype⟩
      intro hacc
      obtain ⟨type, hsome, -⟩ := hacc hw p rfl
      exact absurd (htype.symm.trans hsome) nofun
    | some type =>
      left
      obtain ⟨err, hgives, hiff⟩ := validateNla_checks hin hw htype
      obtain ⟨s', hrun, hs'⟩ := hgives s
      refine ⟨err, s', hrun, hs', hiff.trans (not_congr ?_)⟩
      constructor
      · intro hsat _ p' hp'
        exact Option.some.inj hp' ▸ hsat
      · exact fun hacc => hacc hw p rfl

/-- **The loop** from the attribute at `o` on. -/
theorem parseLoop_ends {rem : Int} (hrem : rem = len - o) {fuel : Nat}
    (hfuel : (len - o) / 4 < fuel) (s : Parser) :
    LoopEnds b maxtype len policy (b.met maxtype len policy o) s
      (b.parseLoop maxtype policy fuel o rem s) := by
  induction fuel generalizing o rem s with
  | zero => exact absurd hfuel (not_lt_zero _)
  | succ fuel ih =>
    obtain ⟨s1, h1, hs1⟩ := nlaOk_gives (b := b) hrem s
    rw [parseLoop, bind_of_ok h1]
    by_cases hin : b.Inside len o
    · obtain ⟨s2, h2, hs2⟩ := nlaType_gives (b := b) hin.1 s1
      -- the rest of the loop, from the next attribute on
      have hnext : ∀ s, ∃ s', Scanned len s s' ∧ LoopEnds b maxtype len policy
          (b.met maxtype len policy (o + nlaAlign (b.attrLen o))) s'
          ((b.nlaNext o rem >>= fun x => b.parseLoop maxtype policy fuel x.1 x.2) s) := by
        intro s
        obtain ⟨s', h', hs'⟩ := nlaNext_gives (b := b) rem hin.1 s
        refine ⟨s', hs', ?_⟩
        rw [bind_of_ok h']
        have halign := lt_nlaAlign hin.2.1
        have hlen := hin.1
        exact ih (by omega) (by omega) s'
      rw [if_pos (decide_eq_true hin), bind_of_ok h2]
      by_cases hw : b.Wanted maxtype o
      · rw [if_pos (show 0 < b.attrType o ∧ b.attrType o ≤ maxtype from hw)]
        obtain ⟨err, s3, h3, hs3, herr⟩ | ⟨s3, h3, hs3, hacc, hbug⟩ := check_cases hin hw s2
        · rw [bind_of_ok h3]
          by_cases hneg : err < 0
          · rw [if_pos hneg, met_rejected hin (herr.mp hneg)]
            exact .here ((hs1.trans hs2).trans hs3) err
          have hacc : b.Accepted maxtype policy o := not_not.mp fun h => hneg (herr.mpr h)
          obtain ⟨s4, hs4, hrest⟩ := hnext { s3 with tb := update s3.tb (b.attrType o) (some o) }
          have hscan := (hs1.trans hs2).trans hs3
          rw [if_neg hneg, met_accepted hin hacc]
          refine .cons ?_ ?_ hrest
          · intro a ha
            rcases hs4.2 a ha with hr | hlt
            · exact hscan.2 a hr
            · exact .inr hlt
          · rw [hs4.1, keep, if_pos hw, hscan.1]
        · rw [bind_of_error h3, met_rejected hin hacc]
          have hscan := (hs1.trans hs2).trans hs3
          exact ⟨hscan.2, hscan.1, by simp, fun _ _ => hbug⟩
      · have hacc : b.Accepted maxtype policy o := fun h => absurd h hw
        obtain ⟨s3, hs3, hrest⟩ := hnext s2
        rw [if_neg (show ¬ (0 < b.attrType o ∧ b.attrType o ≤ maxtype) from hw),
          met_accepted hin hacc]
        exact .cons ((hs1.trans hs2).trans hs3).2
          (by rw [((hs1.trans hs2).trans hs3).1, keep, if_neg hw]) hrest
    · rw [if_neg (by simpa using hin), met_outside hin]
      exact .here hs1 0

/-! #### The table -/

theorem le_of_mem_attrs (hx : x ∈ b.attrs len o) : o ≤ x ∧ b.Inside len x := by
  induction o using attrs.induct b len with
  | case1 o hin ih =>
    rw [attrs, dif_pos hin, mem_cons] at hx
    rcases hx with rfl | hx
    · exact ⟨le_refl _, hin⟩
    · exact ⟨by have := (ih hx).1; omega, (ih hx).2⟩
  | case2 o hin =>
    rw [attrs, dif_neg hin] at hx
    exact nomatch hx

/-- Later attributes lie further on. -/
theorem attrs_sorted : (b.attrs len o).Pairwise (· < ·) := by
  induction o using attrs.induct b len with
  | case1 o hin ih =>
    rw [attrs, dif_pos hin]
    refine pairwise_cons.mpr ⟨fun x hx => ?_, ih⟩
    have hle := (le_of_mem_attrs hx).1
    have halign := lt_nlaAlign hin.2.1
    omega
  | case2 o hin =>
    rw [attrs, dif_neg hin]
    exact List.Pairwise.nil

theorem met_sorted : (b.met maxtype len policy o).Pairwise (· < ·) :=
  attrs_sorted.sublist (takeWhile_sublist _)

theorem inside_of_mem_met (hx : x ∈ b.met maxtype len policy o) : b.Inside len x :=
  (le_of_mem_attrs ((takeWhile_sublist _).subset hx)).2

theorem accepted_of_mem_met (hx : x ∈ b.met maxtype len policy o) :
    b.Accepted maxtype policy x := by
  have h := mem_takeWhile_imp hx
  simpa using h

/-- After a run of attributes a cell holds the last of its type, or what it held before. -/
theorem foldl_keep_cases (hl : l.Pairwise (· < ·)) (tb : Nat → Option Nat) (t : Nat) :
    (∃ x ∈ l, b.Wanted maxtype x ∧ b.attrType x = t ∧ (∀ y ∈ l, b.attrType y = t → y ≤ x) ∧
        l.foldl (keep b maxtype) tb t = some x) ∨
      (∀ x ∈ l, b.Wanted maxtype x → b.attrType x ≠ t) ∧ l.foldl (keep b maxtype) tb t = tb t := by
  induction l using reverseRecOn with
  | nil => exact .inr ⟨fun _ => nofun, rfl⟩
  | append_singleton l x ih =>
    rw [pairwise_append] at hl
    have hlast : ∀ y ∈ l, y ≤ x := fun y hy => le_of_lt (hl.2.2 y hy x (mem_singleton_self x))
    rw [foldl_append, foldl_cons, foldl_nil, keep]
    by_cases hx : b.Wanted maxtype x ∧ b.attrType x = t
    · left
      refine ⟨x, mem_append_right l (mem_singleton_self x), hx.1, hx.2, ?_, ?_⟩
      · intro y hy _
        rcases mem_append.mp hy with hy | hy
        · exact hlast y hy
        · exact le_of_eq (mem_singleton.mp hy)
      · rw [if_pos hx.1, ← hx.2, update_self]
    have hkeep : (if b.Wanted maxtype x then
        update (l.foldl (keep b maxtype) tb) (b.attrType x) (some x)
        else l.foldl (keep b maxtype) tb) t = l.foldl (keep b maxtype) tb t := by
      split_ifs with hw
      · exact update_of_ne (fun h => hx ⟨hw, h.symm⟩) _ _
      · rfl
    rw [hkeep]
    obtain ⟨y, hy, hw, htype, hmax, hval⟩ | ⟨hnone, hval⟩ := ih hl.1
    · left
      refine ⟨y, mem_append_left _ hy, hw, htype, ?_, hval⟩
      intro z hz hz'
      rcases mem_append.mp hz with hz | hz
      · exact hmax z hz hz'
      rw [mem_singleton.mp hz] at hz'
      -- an attribute of a wanted type is wanted
      have hwx : b.Wanted maxtype x := by
        unfold Wanted at hw ⊢
        rwa [hz', ← htype]
      exact absurd ⟨hwx, hz'⟩ hx
    · right
      refine ⟨fun y hy hw => ?_, hval⟩
      rcases mem_append.mp hy with hy | hy
      · exact hnone y hy hw
      · rw [mem_singleton.mp hy] at hw ⊢
        exact fun h => hx ⟨hw, h⟩

end

/-- The attribute at `o` is what a cell of `tb` should point to. -/
structure LastOfType (b : Stream) (maxtype len : Nat) (policy : Option (Nat → NlaPolicy))
    (t o : Nat) : Prop where
  type : b.attrType o = t
  inside : b.Inside len o
  met : o ∈ b.met maxtype len policy 0
  last : ∀ x ∈ b.met maxtype len policy 0, b.attrType x = t → x ≤ o
  satisfies : ∀ p, policy = some p → b.Satisfies (p t) o

/-- A cell after the loop. -/
theorem LoopEnds.cell (h : LoopEnds b maxtype len policy (b.met maxtype len policy 0) s r)
    (t : Nat) :
    (∃ o, (exitState r).tb t = some o ∧ 0 < t ∧ t ≤ maxtype ∧ LastOfType b maxtype len policy t o) ∨
      (∀ o ∈ b.met maxtype len policy 0, b.Wanted maxtype o → b.attrType o ≠ t) ∧
      (exitState r).tb t = s.tb t := by
  rw [h.tb]
  obtain ⟨o, ho, hw, htype, hmax, hval⟩ | hnone := foldl_keep_cases (b := b) met_sorted s.tb t
  · left
    subst htype
    refine ⟨o, hval, hw.1, hw.2, rfl, inside_of_mem_met ho, ho, hmax, ?_⟩
    exact accepted_of_mem_met ho hw
  · exact .inr hnone

/-- **`nla_parse` on any buffer.** It comes to an end, at `BUG_ON` only for a policy of
unknown type. It reads bytes of the buffer, writes cells of `tb` up to `maxtype`, and
leaves in them the last attribute of each type that it met before it stopped. -/
theorem nlaParse_sound (b : Stream) (tb : Nat → Option Nat) (maxtype len : Nat)
    (policy : Option (Nat → NlaPolicy)) (fuel : Nat) (hfuel : len / 4 < fuel) :
    let r := b.nlaParse fuel maxtype len policy ⟨[], tb⟩
    let s := exitState r
    ((∃ err, r = .ok err s) ∨ r = .error .bug s ∧
      ∃ p t, policy = some p ∧ 0 < t ∧ t ≤ maxtype ∧ NlaType.ofCode (p t).type = none) ∧
    (∀ a ∈ s.reads, a < len) ∧
    (∀ t, maxtype < t → s.tb t = tb t) ∧
    (∀ t, t ≤ maxtype → ∀ o, s.tb t = some o → LastOfType b maxtype len policy t o) ∧
    (∀ t, 0 < t → t ≤ maxtype → s.tb t = none → ∀ o ∈ b.met maxtype len policy 0,
      b.attrType o ≠ t) := by
  intro r s
  have hloop : LoopEnds b maxtype len policy (b.met maxtype len policy 0)
      ⟨[], fun t => if t ≤ maxtype then none else tb t⟩ r :=
    parseLoop_ends (by omega) hfuel _
  refine ⟨?_, ?_, ?_, ?_, ?_⟩
  · cases hr : r with
    | ok err s' =>
      left
      exact ⟨err, by rw [show s = exitState r from rfl, hr]; rfl⟩
    | error e s' =>
      right
      cases e with
      | bug => exact ⟨by rw [show s = exitState r from rfl, hr]; rfl, hloop.bug s' hr⟩
      | endless => exact absurd hr (hloop.ends s')
  · intro a ha
    exact (hloop.reads a ha).resolve_left (not_mem_nil)
  · intro t ht
    obtain ⟨o, -, -, hle, -⟩ | ⟨-, hval⟩ := hloop.cell t
    · omega
    · exact hval.trans (if_neg (not_le.mpr ht))
  · intro t ht o ho
    obtain ⟨x, hval, -, -, hlast⟩ | ⟨-, hval⟩ := hloop.cell t
    · exact Option.some.inj (hval.symm.trans ho) ▸ hlast
    · exact absurd ((ho.symm.trans hval).trans (if_pos ht)) nofun
  · intro t hpos ht hnone o ho htype
    obtain ⟨x, hval, -⟩ | ⟨hother, -⟩ := hloop.cell t
    · exact absurd (hval.symm.trans hnone) nofun
    · exact hother o ho ⟨htype ▸ hpos, htype ▸ ht⟩ htype

/-- Two attributes of type 1, the first with three bytes of payload and one of padding. -/
theorem nlaParse_sound_twice : 16 / 4 < 5 ∧
    LastOfType ⟨fun a => [7, 0, 1, 0, 42, 0, 0, 0, 8, 0, 1, 0, 1, 2, 3, 4].getD a 0, false⟩ 1 16
      (some fun _ => ⟨0, 3⟩) 1 8 :=
  ⟨by decide, (nlaParse_sound _ (fun _ => none) 1 16 _ 5 (by decide)).2.2.2.1 1 le_rfl
    8 (by decide)⟩

end Stream

end SilanKernel.Net.Nlattr
