import Mathlib.Data.List.Basic

/-!
# SilanKernel.Data.Pages

**Writing a memory page by page.** A device that takes at most one page at a time wraps around
inside the page when a write reaches its end. A buffer is therefore cut at the ends of the pages.

`Cut P a data cs` says that the chunks `cs` are such a cutting of `data` from the address `a` on;
`putWrapped` is what the device does with one chunk and `put` what was wanted. The main rule is
`Cut.foldl_putWrapped`: a buffer that is cut arrives as if nothing wrapped.
-/

namespace SilanKernel.Pages

open List Function Nat

variable {α : Type} {P a : Nat} {f : α → α → α} {m : Nat → α} {data : List α} {c : Nat × List α}
  {cs : List (Nat × List α)}

/-! ### Chunks -/

/-- Each chunk starts where the one before it ends, the first at `a`. -/
def Consecutive (a : Nat) : List (Nat × List α) → Prop
  | [] => True
  | c :: cs => c.1 = a ∧ Consecutive (a + c.2.length) cs

/-- The chunk has a byte and does not cross the end of a page. -/
def InPage (P : Nat) (c : Nat × List α) : Prop := 0 < c.2.length ∧ c.1 % P + c.2.length ≤ P

/-- The chunks cut the data at the ends of pages. -/
structure Cut (P a : Nat) (data : List α) (cs : List (Nat × List α)) : Prop where
  consecutive : Consecutive a cs
  inPage : ∀ c ∈ cs, InPage P c
  flatten : (cs.map Prod.snd).flatten = data

theorem Cut.nil : Cut P a ([] : List α) [] := ⟨trivial, nofun, rfl⟩

theorem Cut.cons (hpage : InPage P (a, data)) (h : Cut P (a + data.length) rest cs) :
    Cut P a (data ++ rest) ((a, data) :: cs) where
  consecutive := ⟨rfl, h.consecutive⟩
  inPage := forall_mem_cons.mpr ⟨hpage, h.inPage⟩
  flatten := by rw [map_cons, flatten_cons, h.flatten]

/-! ### Memories -/

/-- The values `data` go to the addresses from `a` on, each combined with what is there. -/
def put (f : α → α → α) : Nat → List α → (Nat → α) → Nat → α
  | _, [], m => m
  | a, b :: data, m => put f (a + 1) data (Function.update m a (f (m a) b))

/-- The same on a device that goes back to the start of the page at its end. -/
def putWrapped (P : Nat) (f : α → α → α) : Nat → List α → (Nat → α) → Nat → α
  | _, [], m => m
  | a, b :: data, m =>
    putWrapped P f (a / P * P + (a % P + 1) % P) data (Function.update m a (f (m a) b))

theorem put_append (xs ys : List α) : put f a (xs ++ ys) m = put f (a + xs.length) ys
    (put f a xs m) := by
  induction xs generalizing a m with
  | nil => rfl
  | cons b xs ih =>
    rw [cons_append, put, put, ih, length_cons, Nat.add_assoc, Nat.add_comm 1]

theorem put_of_lt (h : x < a) : put f a data m x = m x := by
  induction data generalizing a m with
  | nil => rfl
  | cons b data ih => rw [put, ih (Nat.lt_succ_of_lt h), update_of_ne (Nat.ne_of_lt h)]

theorem put_of_le (h : a + data.length ≤ x) : put f a data m x = m x := by
  induction data generalizing a m with
  | nil => rfl
  | cons b data ih =>
    rw [length_cons] at h
    rw [put, ih (by omega), update_of_ne (by omega)]

/-- Where the values went. -/
theorem put_getElem (h : i < data.length) : put f a data m (a + i) = f (m (a + i)) data[i] := by
  induction data generalizing a m i with
  | nil => exact absurd h (Nat.not_lt_zero i)
  | cons b data ih =>
    rw [put]
    cases i with
    | zero =>
      show put f (a + 1) data (Function.update m a (f (m a) b)) a = f (m a) b
      rw [put_of_lt (lt_succ_self a), update_self]
    | succ i =>
      have hnext : a + (i + 1) = a + 1 + i := by omega
      rw [hnext, ih (lt_of_succ_lt_succ h), update_of_ne (by omega)]
      rfl

/-- A chunk inside a page is not wrapped. -/
theorem putWrapped_eq_put (h : a % P + data.length ≤ P) : putWrapped P f a data m =
    put f a data m := by
  induction data generalizing a m with
  | nil => rfl
  | cons b data ih =>
    rw [putWrapped, put]
    cases data with
    | nil => rfl
    | cons b' data =>
      rw [length_cons, length_cons] at h
      have hnext : a / P * P + (a % P + 1) % P = a + 1 := by
        rw [mod_eq_of_lt (by omega), ← Nat.add_assoc, div_add_mod']
      have hmod : (a + 1) % P = a % P + 1 := by
        rw [← hnext, mul_add_mod_self_right, mod_mod, mod_eq_of_lt (by omega)]
      rw [hnext]
      exact ih (by rw [hmod, length_cons]; omega)

/-- **A buffer that is cut arrives whole.** -/
theorem Cut.foldl_putWrapped (h : Cut P a data cs) :
    cs.foldl (fun m c => putWrapped P f c.1 c.2 m) m = put f a data m := by
  obtain ⟨hcons, hpage, rfl⟩ := h
  induction cs generalizing a m with
  | nil => rfl
  | cons c cs ih =>
    obtain ⟨rfl, hcons⟩ := hcons
    obtain ⟨hc, hcs⟩ := forall_mem_cons.mp hpage
    rw [foldl_cons, putWrapped_eq_put hc.2, ih hcons hcs, map_cons, flatten_cons, put_append]

end SilanKernel.Pages
