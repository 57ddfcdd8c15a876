import Mathlib.Algebra.Group.Nat.Defs
import Mathlib.Data.List.Nodup
import Mathlib.Data.List.Perm.Subperm
import Mathlib.Data.List.Range

/-!
# SilanKernel.Data.Memory

A **memory of records**: one record at each address.

A pointer is a 32-bit word and 0 is the null pointer. `load` and `modify` follow a pointer and are
undefined on the null pointer; `put` is what an assignment does to the memory. Loops over linked
records take at most as many turns as there are addresses, `loopBound` in the models.
-/

namespace SilanKernel.Memory

abbrev Ptr := BitVec 32

abbrev Mem (α : Type) := Ptr → α

variable {α : Type}

def load (m : Mem α) (p : Ptr) : Option α := if p = 0 then none else some (m p)

/-- The memory after an assignment to the record at `p`. -/
def put (m : Mem α) (p : Ptr) (a : α) : Mem α := Function.update m p a

/-- An assignment to fields of the record at `p`. -/
def modify (m : Mem α) (p : Ptr) (f : α → α) : Option (Mem α) :=
  if p = 0 then none else some (put m p (f (m p)))

def loopBound : Nat := 2 ^ 33

variable {m : Mem α} {p : Ptr} {a : α} {l : List Ptr}

theorem load_eq (hp : p ≠ 0) : load m p = some (m p) := if_neg hp

theorem modify_eq (hp : p ≠ 0) (f : α → α) : modify m p f = some (put m p (f (m p))) := if_neg hp

@[simp] theorem put_self : put m p a p = a := Function.update_self ..

theorem put_of_ne (hq : q ≠ p) : put m p a q = m q := Function.update_of_ne hq ..

/-- An assignment outside of a list of addresses. -/
theorem put_off (hp : p ∉ l) (a : α) : ∀ z ∈ l, put m p a z = m z :=
  fun _ hz => put_of_ne fun hc => hp (hc ▸ hz)

/-- There are no more different pointers than words. -/
theorem length_le_of_nodup (hl : l.Nodup) : l.length ≤ 2 ^ 32 := by
  have hnodup : (l.map BitVec.toNat).Nodup := hl.map fun _ _ => BitVec.eq_of_toNat_eq
  have hsub : l.map BitVec.toNat ⊆ List.range (2 ^ 32) := by
    intro n hn
    obtain ⟨v, -, rfl⟩ := List.mem_map.mp hn
    exact List.mem_range.mpr v.isLt
  have hlen := (hnodup.subperm hsub).length_le
  rwa [List.length_map, List.length_range] at hlen

theorem length_lt_loopBound (hl : l.Nodup) : l.length + 2 < loopBound := by
  have hle := length_le_of_nodup hl
  rw [loopBound]
  omega

end SilanKernel.Memory
