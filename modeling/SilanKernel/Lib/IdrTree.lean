import SilanKernel.Data.Digits
import SilanKernel.Data.Run
import SilanKernel.Data.Tally
import SilanKernel.Lib.Idr

/-!
# SilanKernel.Lib.IdrTree

The **invariant of the tree of layers**, and what the tree stands for.

`slotAt l e x` is the bit and the pointer of the slot for `x` in a tree of `l + 1` layers. A layer
is in order (`LayerOk`) if its bits say which of the layers below are full and its count says how
many slots are in use. What it means that a slot of a leaf is in use differs between ids with
pointers and ids without, and is a parameter.

A walk holds a layer and the path above it. `PathOk` is the invariant of the path with the slot it
goes through left open; a tree that is put together from a layer and a path in order is in order.
-/

namespace SilanKernel.IdTree

open Finset Bool Nat

variable {α : Type} {e : Entry α}

/-! ### Slots -/

/-- The bit and the pointer of the slot for `x`. -/
def slotAt : Nat → Entry α → Nat → Bool × Entry α
  | 0, .node p, x => (p.bitmap (digit IDR_BITS 0 x), p.ary (digit IDR_BITS 0 x))
  | l + 1, .node p, x => slotAt l (p.ary (digit IDR_BITS (l + 1) x)) x
  | _, _, _ => (false, .null)

@[simp] theorem slotAt_null (l x : Nat) : slotAt l (.null : Entry α) x = (false, .null) := by
  cases l <;> rfl

/-- Only the digits of the layers matter. -/
theorem slotAt_congr (h : low IDR_BITS (l + 1) x = low IDR_BITS (l + 1) y) :
    slotAt l e x = slotAt l e y := by
  induction l generalizing e with
  | zero =>
    have hd := (low_succ_eq_iff.mp h).1
    cases e with
    | node p => simp only [slotAt, hd]
    | null => rfl
    | item v => rfl
  | succ l ih =>
    obtain ⟨hd, hl⟩ := low_succ_eq_iff.mp h
    cases e with
    | node p =>
      simp only [slotAt, hd]
      exact ih hl
    | null => rfl
    | item v => rfl

/-- The number of layers. -/
def size : Nat → Entry α → Nat
  | 0, .node _ => 1
  | l + 1, .node p => 1 + ∑ i ∈ Finset.range IDR_SIZE, size l (p.ary i)
  | _, _ => 0

@[simp] theorem size_null (l : Nat) : size l (.null : Entry α) = 0 := by
  cases l <;> rfl

/-- A tree without a free slot has all its layers. -/
theorem size_of_full (h : ∀ x, (slotAt l e x).1 = true) : IDR_SIZE ^ l ≤ size l e := by
  induction l generalizing e with
  | zero =>
    cases e with
    | node p => exact le_refl 1
    | null => exact absurd (h 0) false_ne_true
    | item v => exact absurd (h 0) false_ne_true
  | succ l ih =>
    cases e with
    | null => exact absurd (h 0) false_ne_true
    | item v => exact absurd (h 0) false_ne_true
    | node p =>
      have hchild : ∀ i ∈ range IDR_SIZE, IDR_SIZE ^ l ≤ size l (p.ary i) := by
        intro i hi
        apply ih
        intro x
        obtain ⟨y, hy, hlow⟩ := exists_above_low IDR_BITS (l + 1) i x
        have hdigit : digit IDR_BITS (l + 1) y = i := by
          rw [digit, show y / 2 ^ ((l + 1) * IDR_BITS) = i from hy]
          exact mod_eq_of_lt (mem_range.mp hi)
        have hfull := h y
        rw [slotAt, hdigit, slotAt_congr hlow] at hfull
        exact hfull
      have hsum := card_nsmul_le_sum _ _ _ hchild
      rw [card_range, nsmul_eq_mul] at hsum
      rw [size, pow_succ, mul_comm]
      exact le_trans hsum (le_add_left _ 1)

/-! ### Layers in order -/

section

variable (used : Bool → Entry α → Bool)

/-- A slot above the leaves: the bit says whether the layer in it is full. -/
def ChildOk (W : Node α → Prop) (b : Bool) : Entry α → Prop
  | .null => b = false
  | .item _ => False
  | .node c => W c ∧ b = c.isFull

/-- **A layer in order**, `l` layers above the leaves. -/
def LayerOk : Nat → Node α → Prop
  | 0, p => p.layer = 0 ∧ p.count = tally IDR_SIZE (fun i => used (p.bitmap i) (p.ary i)) ∧
      ∀ i < IDR_SIZE, used (p.bitmap i) (p.ary i) = false → p.bitmap i = false ∧ p.ary i = .null
  | l + 1, p => p.layer = l + 1 ∧ p.count = tally IDR_SIZE (fun i => !(p.ary i).isNull) ∧
      ∀ i < IDR_SIZE, ChildOk (LayerOk l) (p.bitmap i) (p.ary i)

/-- A layer with the slot `m` left open. -/
structure HoleOk (l : Nat) (q : Node α) (m : Nat) : Prop where
  lt : m < IDR_SIZE
  layer : q.layer = l + 1
  count : q.count = tally IDR_SIZE fun i => decide (i = m) || !(q.ary i).isNull
  child : ∀ i < IDR_SIZE, i ≠ m → ChildOk (LayerOk used l) (q.bitmap i) (q.ary i)

/-- The path above a layer that is `l` layers above the leaves, in a tree of `L + 1` layers. -/
def PathOk (L : Nat) : Nat → Path α → Prop
  | l, [] => l = L
  | l, (q, m) :: pa => HoleOk used l q m ∧ PathOk L (l + 1) pa

end

/-- The bits of a path are right for a layer that is full or not. -/
def Linked : Bool → Path α → Prop
  | _, [] => True
  | b, (q, m) :: pa => q.bitmap m = b ∧ Linked q.isFull pa

/-- The path goes through the slots for `x`. -/
def Route (x : Nat) : Nat → Path α → Prop
  | _, [] => True
  | l, (_, m) :: pa => m = digit IDR_BITS (l + 1) x ∧ Route x (l + 1) pa

variable {used : Bool → Entry α → Bool} {l L m x y : Nat} {p p' q c : Node α} {pa : Path α}
  {e : Entry α}

@[simp] theorem put_ary_self : (q.put m e).ary m = e := Function.update_self ..

@[simp] theorem put_ary_ne (h : i ≠ m) : (q.put m e).ary i = q.ary i := Function.update_of_ne h ..

@[simp] theorem put_bitmap : (q.put m e).bitmap = q.bitmap := rfl

@[simp] theorem setBit_ary : (q.setBit m).ary = q.ary := rfl

theorem put_self : q.put m (q.ary m) = q := by
  rw [Layer.put, Function.update_eq_self]

theorem isFull_iff : p.isFull = true ↔ ∀ i < IDR_SIZE, p.bitmap i = true := by
  simp [Layer.isFull]

theorem not_isFull (hm : m < IDR_SIZE) (h : p.bitmap m = false) : p.isFull = false := by
  rw [← not_eq_true, isFull_iff]
  intro hall
  rw [hall m hm] at h
  exact Bool.noConfusion h

theorem LayerOk.layer_eq (hp : LayerOk used l p) : p.layer = l := by
  cases l with
  | zero => exact hp.1
  | succ l => exact hp.1

/-- What is in a slot above the leaves. -/
theorem LayerOk.child (hp : LayerOk used (l + 1) p) (hm : m < IDR_SIZE) :
    (p.ary m = .null ∧ p.bitmap m = false) ∨
      ∃ c, p.ary m = .node c ∧ LayerOk used l c ∧ p.bitmap m = c.isFull := by
  have hchild := hp.2.2 m hm
  cases hary : p.ary m with
  | null =>
    rw [hary] at hchild
    exact Or.inl ⟨rfl, hchild⟩
  | item v =>
    rw [hary] at hchild
    exact False.elim hchild
  | node c =>
    rw [hary] at hchild
    exact Or.inr ⟨c, rfl, hchild⟩

/-- A slot in use that is counted on its own. -/
theorem tally_open (h : (p.ary m).isNull = false) :
    tally IDR_SIZE (fun i => !(p.ary i).isNull) = tally IDR_SIZE fun i => decide (i = m) ||
      !(p.ary i).isNull := by
  apply tally_congr
  intro i hi
  by_cases him : i = m
  · simp [him, h]
  · simp [him]

/-- What is in that slot does not matter. -/
theorem tally_put : tally IDR_SIZE (fun i => decide (i = m) || !((q.put m e).ary i).isNull) =
    tally IDR_SIZE fun i => decide (i = m) || !(q.ary i).isNull := by
  apply tally_congr
  intro i hi
  by_cases h : i = m
  · simp [h]
  · simp [h]

/-- To open the slot of a child. -/
theorem LayerOk.hole (hp : LayerOk used (l + 1) p) (hm : m < IDR_SIZE) (hc : p.ary m = .node c) :
    HoleOk used l p m ∧ LayerOk used l c ∧ p.bitmap m = c.isFull := by
  obtain ⟨hlayer, hcount, hchild⟩ := hp
  have hm' := hchild m hm
  rw [hc] at hm'
  refine ⟨⟨hm, hlayer, ?_, fun i hi _ => hchild i hi⟩, hm'⟩
  rw [hcount, tally_open (by rw [hc]; rfl)]

theorem HoleOk.layerOk (hq : HoleOk used l q m) (hc : LayerOk used l c)
    (hbit : q.bitmap m = c.isFull) :
    LayerOk used (l + 1) (q.put m (.node c)) := by
  refine ⟨hq.layer, ?_, fun i hi => ?_⟩
  · rw [tally_open (by rw [put_ary_self]; rfl), tally_put]
    exact hq.count
  by_cases h : i = m
  · subst h
    rw [put_ary_self]
    exact ⟨hc, hbit⟩
  · rw [put_ary_ne h]
    exact hq.child i hi h

/-- **A tree put together.** -/
theorem layerOk_plug (hp : LayerOk used l p) (hpa : PathOk used L l pa)
    (hlink : Linked p.isFull pa) :
    LayerOk used L (plug p pa) := by
  induction pa generalizing l p with
  | nil =>
    obtain rfl : l = L := hpa
    exact hp
  | cons frame pa ih =>
    obtain ⟨hq, hpa⟩ := hpa
    exact ih (hq.layerOk hp hlink.1) hpa hlink.2

theorem PathOk.length (hpa : PathOk used L l pa) : l + pa.length = L := by
  induction pa generalizing l with
  | nil => exact hpa
  | cons frame pa ih =>
    have := ih hpa.2
    rw [List.length_cons]
    omega

/-! ### What a tree put together stands for -/

theorem slotAt_succ_congr (h : ∀ i, slotAt l (p.ary i) = slotAt l (p'.ary i)) :
    slotAt (l + 1) (.node p) = slotAt (l + 1) (.node p') := by
  funext x
  rw [slotAt, slotAt, h]

theorem slotAt_put (h : slotAt l e = slotAt l e') :
    slotAt (l + 1) (.node (q.put m e)) = slotAt (l + 1) (.node (q.put m e')) := by
  apply slotAt_succ_congr
  intro i
  by_cases hi : i = m
  · rw [hi, put_ary_self, put_ary_self, h]
  · rw [put_ary_ne hi, put_ary_ne hi]

/-- Layers that stand for the same can take each other's place. -/
theorem slotAt_plug_congr (h : slotAt l (.node p) = slotAt l (.node p'))
    (hlen : l + pa.length = L) :
    slotAt L (.node (plug p pa)) = slotAt L (.node (plug p' pa)) := by
  induction pa generalizing l p p' with
  | nil =>
    obtain rfl : l = L := hlen
    exact h
  | cons frame pa ih =>
    apply ih (slotAt_put h)
    rw [List.length_cons] at hlen
    omega

/-- The slots below a layer. -/
theorem slotAt_plug_below (hroute : Route x l pa) (hlen : l + pa.length = L)
    (h : above IDR_BITS (l + 1) y = above IDR_BITS (l + 1) x) :
    slotAt L (.node (plug p pa)) y = slotAt l (.node p) y := by
  induction pa generalizing l p with
  | nil =>
    obtain rfl : l = L := hlen
    rfl
  | cons frame pa ih =>
    obtain ⟨q, m⟩ := frame
    obtain ⟨rfl, hroute⟩ := hroute
    rw [List.length_cons] at hlen
    rw [above_eq IDR_BITS (l + 1) y] at h
    obtain ⟨habove, hdigit⟩ := above_succ_of_above (digit_lt IDR_BITS (l + 1) y) h.symm
    rw [plug, ih hroute (by omega) habove.symm, slotAt, ← hdigit, put_ary_self]

/-- The others. -/
theorem slotAt_plug_beside (hroute : Route x l pa) (hlen : l + pa.length = L)
    (htop : above IDR_BITS (L + 1) y = above IDR_BITS (L + 1) x)
    (h : above IDR_BITS (l + 1) y ≠ above IDR_BITS (l + 1) x) :
    slotAt L (.node (plug p pa)) y = slotAt L (.node (plug p' pa)) y := by
  induction pa generalizing l p p' with
  | nil =>
    obtain rfl : l = L := hlen
    exact absurd htop h
  | cons frame pa ih =>
    obtain ⟨q, m⟩ := frame
    obtain ⟨rfl, hroute⟩ := hroute
    rw [List.length_cons] at hlen
    by_cases habove : above IDR_BITS (l + 2) y = above IDR_BITS (l + 2) x
    · have hdigit : digit IDR_BITS (l + 1) y ≠ digit IDR_BITS (l + 1) x := by
        intro hd
        rw [above_eq IDR_BITS (l + 1) y, above_eq IDR_BITS (l + 1) x, habove, hd] at h
        exact h rfl
      rw [plug, plug, slotAt_plug_below hroute (by omega) habove, slotAt_plug_below hroute
        (by omega) habove, slotAt, slotAt, put_ary_ne hdigit, put_ary_ne hdigit]
    · exact ih hroute (by omega) habove

/-! ### How many layers there are -/

theorem size_put (hm : m < IDR_SIZE) (e e' : Entry α) :
    size (l + 1) (.node (q.put m e)) + size l e' = size (l + 1) (.node (q.put m e')) +
      size l e := by
  have hrest : ∑ i ∈ (range IDR_SIZE).erase m, size l ((q.put m e).ary i) =
      ∑ i ∈ (range IDR_SIZE).erase m, size l ((q.put m e').ary i) := by
    apply sum_congr rfl
    intro i hi
    rw [put_ary_ne (ne_of_mem_erase hi), put_ary_ne (ne_of_mem_erase hi)]
  rw [size, size, ← add_sum_erase _ (fun i => size l ((q.put m e).ary i)) (mem_range.mpr hm),
    ← add_sum_erase _ (fun i => size l ((q.put m e').ary i)) (mem_range.mpr hm), hrest,
    put_ary_self, put_ary_self]
  omega

theorem size_plug (hpa : PathOk used L l pa) (p p' : Node α) :
    size L (.node (plug p pa)) + size l (.node p') = size L (.node (plug p' pa)) + size l
      (.node p) := by
  induction pa generalizing l p p' with
  | nil =>
    obtain rfl : l = L := hpa
    exact add_comm ..
  | cons frame pa ih =>
    obtain ⟨q, m⟩ := frame
    obtain ⟨hq, hpa⟩ := hpa
    have hput := size_put (l := l) (q := q) hq.lt (.node p) (.node p')
    have hplug := ih hpa (q.put m (.node p)) (q.put m (.node p'))
    rw [plug, plug]
    omega

end SilanKernel.IdTree
