import Mathlib.Algebra.Group.Nat.Defs
import Mathlib.Data.List.Perm.Basic

/-!
# SilanKernel.Kernel.Range

`clean_sort_range` of `kernel/range.c`.

The used entries are moved to the front and sorted. The comparison narrows a difference of 64 bits
to an `int`: it tells which of two starts is the greater if the low 32 bits of the difference do.
-/

namespace SilanKernel.Ranges

open List

/-- `struct range` -/
structure Range where
  start : BitVec 64
  end_ : BitVec 64

/-- The entry is not blank. -/
def Range.used (r : Range) : Bool := r.end_ != 0

section

variable {α : Type} {cmp : α → α → Int} {a b : α} {l : List α}

end

end SilanKernel.Ranges
