import SilanKernel.Lib.IdrAlloc

/-!
# SilanKernel.Lib.IdrSound

**What the calls of an idr do** to the map that its tree stands for.

A call reaches one slot of a leaf by a walk down the tree; `mapOf_update` says that the rest of the
map is as it was. A removal also frees the layers that have become empty and may take away the top
layer.
-/

namespace SilanKernel.IdTree

open List Function Nat Bool Layer

variable {α : Type} {used : Bool → Entry α → Bool} {F : Nat → Bool × Entry α}
  {l L m y id total : Nat} {p p' q c leaf : Node α} {pa : Path α} {s : Idr α}
  {e : Entry α} {c : Cache}

/-! ### One slot -/

/-- Two leaves that differ in the slot `n` only. -/
structure Changed (n : Nat) (p p' : Node α) : Prop where
  layer : p'.layer = p.layer
  bitmap : ∀ i, i ≠ n → p'.bitmap i = p.bitmap i
  ary : ∀ i, i ≠ n → p'.ary i = p.ary i

theorem changed_put : Changed n p (p.put n e) := ⟨rfl, fun _ _ => rfl, fun _ hi => put_ary_ne hi⟩

theorem Changed.setBit (h : Changed n p p') : Changed n p (p'.setBit n) :=
  ⟨h.layer, fun i hi => (update_of_ne hi ..).trans (h.bitmap i hi), h.ary⟩

theorem changed_clear : Changed n p ((p.clearBit n).put n e) :=
  ⟨rfl, fun _ hi => update_of_ne hi .., fun _ hi => put_ary_ne hi⟩

theorem LayerOk.changed (hp : LayerOk used 0 p) (hn : n < IDR_SIZE) (hc : Changed n p p')
    (hcount : p'.count + (used (p.bitmap n) (p.ary n)).toNat =
      p.count + (used (p'.bitmap n) (p'.ary n)).toNat)
    (hclean : used (p'.bitmap n) (p'.ary n) = false → p'.bitmap n = false ∧ p'.ary n = .null) :
    LayerOk used 0 p' := by
  obtain ⟨hlayer, hold, hslot⟩ := hp
  have hfill := tally_change (f := fun i => used (p'.bitmap i) (p'.ary i))
    (g := fun i => used (p.bitmap i) (p.ary i)) hn
    (fun i _ hi => by simp only [hc.bitmap i hi, hc.ary i hi])
  refine ⟨hc.layer.trans hlayer, by omega, fun i hi hu => ?_⟩
  by_cases h : i = n
  · subst h
    exact hclean hu
  · rw [hc.bitmap i h, hc.ary i h] at hu ⊢
    exact hslot i hi hu

/-- The map with one slot changed. -/
theorem mapOf_update (hroute : Route id 0 pa) (hlen : 0 + pa.length = L)
    (hid : id < 2 ^ ((L + 1) * IDR_BITS)) (hc : Changed (digit IDR_BITS 0 id) p p') :
    mapOf (L + 1) (.node (plug p' pa)) = update (mapOf (L + 1) (.node (plug p pa))) id
      (p'.bitmap (digit IDR_BITS 0 id), p'.ary (digit IDR_BITS 0 id)) := by
  funext y
  by_cases hy : y = id
  · subst hy
    rw [update_self, mapOf, if_pos hid]
    exact slotAt_plug_below hroute hlen rfl
  rw [update_of_ne hy, mapOf, mapOf]
  split
  next hlt =>
    have htop : above IDR_BITS (L + 1) y = above IDR_BITS (L + 1) id := by
      rw [above, above, div_eq_of_lt hlt, div_eq_of_lt hid]
    by_cases habove : above IDR_BITS 1 y = above IDR_BITS 1 id
    · have hdigit : digit IDR_BITS 0 y ≠ digit IDR_BITS 0 id := by
        intro hd
        have hzero : above IDR_BITS 0 y = above IDR_BITS 0 id := by
          rw [above_eq IDR_BITS 0 y, above_eq IDR_BITS 0 id, habove, hd]
        simp only [above, Nat.zero_mul, Nat.pow_zero, Nat.div_one] at hzero
        exact hy hzero
      show slotAt L _ y = slotAt L _ y
      rw [slotAt_plug_below hroute hlen habove, slotAt_plug_below hroute hlen habove,
        slotAt, slotAt, hc.bitmap _ hdigit, hc.ary _ hdigit]
    · exact slotAt_plug_beside hroute hlen htop habove
  next => rfl

/-- The slot itself. -/
theorem mapOf_slot (hroute : Route id 0 pa) (hlen : 0 + pa.length = L)
    (hid : id < 2 ^ ((L + 1) * IDR_BITS)) :
    mapOf (L + 1) (.node (plug p pa)) id =
      (p.bitmap (digit IDR_BITS 0 id), p.ary (digit IDR_BITS 0 id)) := by
  rw [mapOf, if_pos hid]
  exact slotAt_plug_below hroute hlen rfl

theorem size_leaf (hpa : PathOk used L 0 pa) (p p' : Node α) :
    size L (.node (plug p pa)) = size L (.node (plug p' pa)) := by
  have hplug := size_plug hpa p p'
  have hone : ∀ q : Node α, size 0 (.node q) = 1 := fun _ => rfl
  rw [hone, hone] at hplug
  omega

section

variable (hf : Found used s id L leaf pa) (hrep : IdrRep used F total s)

include hf hrep

/-- Another leaf in the place of the one that was found, under layers that stand for the same. -/
theorem Found.replace (hc : Changed (digit IDR_BITS 0 id) leaf p) (ht : LayerOk used L t)
    (hslots : slotAt L (.node t) = slotAt L (.node (plug p pa)))
    (hsize : size L (.node t) = size L (.node (plug p pa))) :
    IdrRep used (update F id (p.bitmap (digit IDR_BITS 0 id), p.ary (digit IDR_BITS 0 id))) total
      { s with top := .node t } := by
  have hmap := mapOf_update hf.route hf.path.length hf.lt hc
  have hsame := hrep.same
  have htotal := hrep.size
  rw [hf.top_eq, hf.layers_eq] at hsame htotal
  rw [hsame] at hmap
  refine ⟨.inr ⟨_, L, rfl, hf.layers_eq, hf.le, ht⟩, hrep.freeOk, ?_, ?_⟩
  · show mapOf s.layers _ = _
    rw [hf.layers_eq, ← hmap, mapOf_congr hslots]
  · show size (s.layers - 1) _ + _ = total
    rw [hf.layers_eq, Nat.add_sub_cancel, hsize, size_leaf hf.path p leaf]
    exact htotal

/-- A leaf in order in the place of the one that was found, with its slot marked. -/
theorem Found.mark (hc : Changed (digit IDR_BITS 0 id) leaf (p.setBit (id &&& IDR_MASK)))
    (hp : LayerOk used 0 (p.setBit (id &&& IDR_MASK))) :
    IdrRep used (update F id (true, p.ary (digit IDR_BITS 0 id))) total
      { s with top := .node (idrMarkFull p pa id) } := by
  have hnot : leaf.isFull = false := not_isFull (digit_lt IDR_BITS 0 id) hf.clear
  have hzero : above IDR_BITS 0 id = id := by rw [above, Nat.zero_mul, Nat.pow_zero, Nat.div_one]
  obtain ⟨hok, hslots, hsize⟩ := markUp_spec hp hf.path (hnot ▸ hf.linked) hf.route hzero
  have hbit : (p.setBit (id &&& IDR_MASK)).bitmap (digit IDR_BITS 0 id) = true := by
    rw [and_mask]
    exact update_self ..
  have hnew := hf.replace hrep hc hok hslots hsize
  rw [hbit] at hnew
  exact hnew

/-- The same without a mark. -/
theorem Found.put (hc : Changed (digit IDR_BITS 0 id) leaf p) (hp : LayerOk used 0 p)
    (hbit : p.bitmap (digit IDR_BITS 0 id) = false) :
    IdrRep used (update F id (false, p.ary (digit IDR_BITS 0 id))) total
        { s with top := .node (plug p pa) } ∧
      Found used { s with top := .node (plug p pa) } id L p pa := by
  have hn := digit_lt IDR_BITS 0 id
  have hlink : Linked p.isFull pa := by
    rw [not_isFull hn hbit, ← not_isFull hn hf.clear]
    exact hf.linked
  have hnew := hf.replace hrep hc (layerOk_plug hp hf.path hlink) rfl rfl
  rw [hbit] at hnew
  exact ⟨hnew, { hf with
    top_eq := rfl
    leaf_ok := hp
    linked := hlink
    clear := hbit }⟩

end

/-! ### The walk to a slot -/

/-- A path in order above a layer in order. -/
structure Zipped (used : Bool → Entry α → Bool) (L id l : Nat) (p : Node α)
    (pa : Path α) : Prop where
  ok : LayerOk used l p
  path : PathOk used L l pa
  linked : Linked p.isFull pa
  route : Route id l pa

theorem descend_spec (hz : Zipped used L id l p pa) :
    Ends (descend (fun q _ => q) id l (.node p) pa) fun (e, pa') =>
      (e = .null ∧ slotAt l (.node p) id = (false, .null)) ∨
        ∃ leaf, e = .node leaf ∧ Zipped used L id 0 leaf pa' ∧ plug leaf pa' = plug p pa := by
  induction l generalizing p pa with
  | zero => exact .ret (.inr ⟨p, rfl, hz, rfl⟩)
  | succ l ih =>
    rw [descend, slotIndex_eq]
    have hm := digit_lt IDR_BITS (l + 1) id
    rcases hz.ok.child hm with ⟨hnull, -⟩ | ⟨c, hary, -⟩
    · have hnone : slotAt (l + 1) (.node p) id = (false, .null) := by
        rw [slotAt, hnull, slotAt_null]
      rw [hnull]
      cases l with
      | zero => exact .ret (.inl ⟨rfl, hnone⟩)
      | succ l => exact .ret (.inl ⟨rfl, hnone⟩)
    · obtain ⟨hhole, hok, hbit⟩ := hz.ok.hole hm hary
      have hself : p.put (digit IDR_BITS (l + 1) id) (.node c) = p := by rw [← hary, put_self]
      rw [hary]
      refine .mono (ih ⟨hok, ⟨hhole, hz.path⟩, ⟨hbit, hz.linked⟩, ⟨rfl, hz.route⟩⟩) fun r hr => ?_
      rw [slotAt, hary]
      rwa [plug, hself] at hr

/-- What a walk does to the layers on its way. -/
theorem descend_visit (visit : Node α → Nat → Node α) (id l : Nat) (e : Entry α) (pa : Path α) :
    descend visit id l e (pa.map fun a => (visit a.1 a.2, a.2)) =
      (descend (fun q _ => q) id l e pa).map fun r =>
      (r.1, r.2.map fun a => (visit a.1 a.2, a.2)) := by
  induction l generalizing e pa with
  | zero => rfl
  | succ l ih =>
    cases e with
    | null => rfl
    | item v => rfl
    | node p => exact ih _ ((p, slotIndex (l + 1) id) :: pa)

/-- The path as it is found in a tree put together. -/
def framesOf (p : Node α) : Path α → Path α
  | [] => []
  | (q, m) :: pa => (q.put m (.node p), m) :: framesOf (q.put m (.node p)) pa

theorem descend_plug (visit : Node α → Nat → Node α) (hroute : Route id l pa)
    (hlen : l + pa.length = L) :
    descend visit id L (.node (plug p pa)) [] =
      descend visit id l (.node p) ((framesOf p pa).map fun a => (visit a.1 a.2, a.2)) := by
  induction pa generalizing l p with
  | nil =>
    obtain rfl : l = L := hlen
    rfl
  | cons frame pa ih =>
    obtain ⟨q, m⟩ := frame
    obtain ⟨rfl, hroute⟩ := hroute
    rw [length_cons] at hlen
    rw [plug, ih hroute (by omega), descend, slotIndex_eq, put_ary_self]
    rfl

theorem PathOk.framesOf (hpa : PathOk used L l pa) (p : Node α) :
    PathOk used L l (framesOf p pa) := by
  induction pa generalizing l p with
  | nil => exact hpa
  | cons frame pa ih =>
    obtain ⟨hq, hpa⟩ := hpa
    refine ⟨⟨hq.lt, hq.layer, ?_, fun i hi h => ?_⟩, ih hpa _⟩
    · rw [tally_put]
      exact hq.count
    · rw [put_ary_ne h]
      exact hq.child i hi h

theorem Route.framesOf (hroute : Route x l pa) (p : Node α) : Route x l (framesOf p pa) := by
  induction pa generalizing l p with
  | nil => trivial
  | cons frame pa ih => exact ⟨hroute.1, ih hroute.2 _⟩

theorem plug_framesOf (p p' : Node α) (pa : Path α) : plug p' (framesOf p pa) = plug p' pa := by
  induction pa generalizing p p' with
  | nil => rfl
  | cons frame pa ih =>
    have hput : (frame.1.put frame.2 (.node p)).put frame.2 (.node p') = frame.1.put frame.2
        (.node p') := by
      simp [put]
    rw [IdTree.framesOf, plug, plug, hput, ih]

/-- The walk to the slot of an id: the leaf and the layers above it. -/
structure Walked (used : Bool → Entry α → Bool) (F : Nat → Bool × Entry α) (total : Nat)
    (s : Idr α) (id L : Nat) (visit : Node α → Nat → Node α) (leaf : Node α)
    (pa : Path α) : Prop where
  walk : descend visit id (s.layers - 1) s.top [] =
    some (.node leaf, pa.map fun a => (visit a.1 a.2, a.2))
  layers_eq : s.layers = L + 1
  le : L ≤ 5
  lt : id < 2 ^ ((L + 1) * IDR_BITS)
  zipped : Zipped used L id 0 leaf pa
  same : mapOf (L + 1) (.node (plug leaf pa)) = F
  slot : F id = (leaf.bitmap (digit IDR_BITS 0 id), leaf.ary (digit IDR_BITS 0 id))
  size : size L (.node (plug leaf pa)) + s.idFree.length = total

theorem walk_spec (visit : Node α → Nat → Node α) (hrep : IdrRep used F total s)
    (hid : F id ≠ (false, .null)) :
    ∃ L leaf pa, Walked used F total s id L visit leaf pa := by
  have hsame := hrep.same
  have hsize := hrep.size
  rcases hrep.tree with ⟨htop, hlayers⟩ | ⟨p, l, htop, hlayers, hl, hok⟩
  · rw [← hsame, htop, mapOf_null] at hid
    exact absurd rfl hid
  rw [htop, hlayers] at hsame hsize
  have hlt : id < 2 ^ ((l + 1) * IDR_BITS) := by
    by_contra hge
    rw [← hsame, mapOf, if_neg hge] at hid
    exact hid rfl
  have hz : Zipped used l id l p [] := ⟨hok, rfl, trivial, trivial⟩
  obtain ⟨⟨e, pa⟩, hwalk, hcase⟩ := descend_spec hz
  have hvisit := descend_visit visit id l (.node p) []
  rw [hwalk] at hvisit
  rcases hcase with ⟨-, hnone⟩ | ⟨leaf, rfl, hz', hplug⟩
  · rw [← hsame, mapOf, if_pos hlt, Nat.add_sub_cancel, hnone] at hid
    exact absurd rfl hid
  rw [plug] at hplug
  rw [← hplug] at hsame hsize
  refine ⟨l, leaf, pa, ?_, hlayers, hl, hlt, hz', hsame, ?_, hsize⟩
  · rw [htop, hlayers]
    exact hvisit
  · rw [← hsame, mapOf_slot hz'.route hz'.path.length hlt]

/-! ### Lookup -/

theorem findLoop_eq (hp : LayerOk used l p) : findLoop id (l + 1) (.node p) =
    some (slotAt l (.node p) id).2 := by
  induction l generalizing p with
  | zero =>
    rw [findLoop, hp.1, if_neg (not_not.mpr rfl), slotIndex_eq, slotAt, findLoop]
  | succ l ih =>
    rw [findLoop, hp.1, if_neg (not_not.mpr rfl), slotIndex_eq, slotAt]
    rcases hp.child (digit_lt IDR_BITS (l + 1) id) with ⟨hnull, -⟩ | ⟨c, hary, hok, -⟩
    · rw [hnull, findLoop, slotAt_null]
    · rw [hary]
      exact ih hok

theorem and_max_id_mask (hid : id < 2 ^ 31) : id &&& MAX_ID_MASK = id := by
  rw [MAX_ID_MASK, MAX_ID_BIT, and_two_pow_sub_one_eq_mod, mod_eq_of_lt hid]

/-- **`idr_find`** returns the pointer of the slot. -/
theorem idrFind_spec (hrep : IdrRep used F total s) (hid : id < 2 ^ 31) :
    idrFind s id = some (F id).2 := by
  rw [idrFind, ← hrep.same]
  rcases hrep.tree with ⟨htop, hlayers⟩ | ⟨p, l, htop, hlayers, hl, hok⟩
  · simp only [htop, mapOf_null]
  · simp only [htop, hlayers, hok.layer_eq, and_max_id_mask hid]
    by_cases hlt : id < 2 ^ ((l + 1) * IDR_BITS)
    · rw [intGe_of_lt hlt, if_neg Bool.false_ne_true, findLoop_eq hok, mapOf, if_pos hlt,
        Nat.add_sub_cancel]
    · rw [intGe_of_le hid (not_lt.mp hlt), if_pos rfl, mapOf, if_neg hlt]

/-! ### Removal -/

/-- The path of a removal: the bits on it are cleared. -/
def clearPath (pa : Path α) : Path α := pa.map fun a => (Layer.clearBit a.1 a.2, a.2)

theorem PathOk.clearPath (hpa : PathOk used L l pa) : PathOk used L l (clearPath pa) := by
  induction pa generalizing l with
  | nil => exact hpa
  | cons frame pa ih =>
    obtain ⟨hq, hpa⟩ := hpa
    exact ⟨⟨hq.lt, hq.layer, hq.count, fun i hi h => by
      rw [show (clearBit frame.1 frame.2).bitmap i = frame.1.bitmap i from update_of_ne h ..]
      exact hq.child i hi h⟩, ih hpa⟩

theorem Route.clearPath (hroute : Route x l pa) : Route x l (clearPath pa) := by
  induction pa generalizing l with
  | nil => trivial
  | cons frame pa ih => exact ⟨hroute.1, ih hroute.2⟩

theorem slotAt_clearPath (hlen : l + pa.length = L) :
    slotAt L (.node (plug p (clearPath pa))) = slotAt L (.node (plug p pa)) := by
  induction pa generalizing l p with
  | nil => rfl
  | cons frame pa ih =>
    obtain ⟨q, m⟩ := frame
    rw [length_cons] at hlen
    have hlen' : l + 1 + (IdTree.clearPath pa).length = L := by
      rw [IdTree.clearPath, length_map]
      omega
    have hsame : slotAt (l + 1) (.node ((q.clearBit m).put m (.node p))) =
        slotAt (l + 1) (.node (q.put m (.node p))) := rfl
    show slotAt L (.node (plug ((q.clearBit m).put m (.node p)) (IdTree.clearPath pa))) = _
    rw [slotAt_plug_congr hsame hlen', plug]
    exact ih (l := l + 1) (by omega)

theorem size_clearPath (hpa : PathOk used L l pa) :
    size L (.node (plug p (clearPath pa))) = size L (.node (plug p pa)) := by
  induction pa generalizing l p with
  | nil => rfl
  | cons frame pa ih =>
    obtain ⟨q, m⟩ := frame
    obtain ⟨-, hpa⟩ := hpa
    let q' := (q.clearBit m).put m (.node p)
    have heq : size (l + 1) (.node q') =
        size (l + 1) (.node (q.put m (.node p))) := rfl
    have hplug := size_plug hpa q' (q.put m (.node p))
    show size L (.node (plug q' (IdTree.clearPath pa))) = _
    rw [ih hpa, plug]
    omega

/-- No bit on the path is set. -/
def Cleared (pa : Path α) : Prop := ∀ a ∈ pa, a.1.bitmap a.2 = false

theorem cleared_clearPath (pa : Path α) : Cleared (clearPath pa) := by
  intro a ha
  obtain ⟨b, -, rfl⟩ := mem_map.mp ha
  exact update_self ..

theorem Cleared.linked (hc : Cleared pa) (hpa : PathOk used L l pa) : Linked false pa := by
  induction pa generalizing l with
  | nil => trivial
  | cons frame pa ih =>
    have hbit : frame.1.bitmap frame.2 = false := hc frame mem_cons_self
    have hlink := ih (fun a ha => hc a (mem_cons_of_mem frame ha)) hpa.2
    rw [← not_isFull hpa.1.lt hbit] at hlink
    exact ⟨hbit, hlink⟩

/-- What is left when empty layers are freed. -/
structure Released (used : Bool → Entry α → Bool) (L k : Nat) (t : Node α) (c : Cache)
    (r : Cache × Entry α × Bool) : Prop where
  same : slotAt L r.2.1 = slotAt L (.node t)
  size : size L r.2.1 + k ≤ r.1.inUse
  inUse : r.1.inUse ≤ c.inUse
  tree : (r.2.2 = true ∧ r.2.1 = .null) ∨
    (r.2.2 = false ∧ ∃ t', r.2.1 = .node t' ∧ LayerOk used L t')

theorem slotAt_release (l : Nat) (p : Node α) : slotAt l (.node p.release) = slotAt l
    (.node p) := by
  cases l <;> rfl

theorem size_release (l : Nat) (p : Node α) : size l (.node p.release) = size l (.node p) := by
  cases l <;> rfl

theorem size_pos (l : Nat) (p : Node α) : 1 ≤ size l (.node p) := by
  cases l with
  | zero => exact le_refl 1
  | succ l => exact Nat.le_add_right ..

theorem HoleOk.released (hq : HoleOk used l q m) (hbit : q.bitmap m = false) :
    LayerOk used (l + 1) (q.put m .null).release := by
  have hchange := tally_change (f := fun i => decide (i = m) || !(q.ary i).isNull)
    (g := fun i => !((q.put m .null).ary i).isNull) hq.lt (fun i _ hi => by simp [hi])
  have hnull : (!((q.put m .null).ary m).isNull).toNat = 0 := by rw [put_ary_self]; rfl
  simp only [hnull, decide_true, Bool.true_or, Bool.toNat_true] at hchange
  refine ⟨hq.layer, ?_, fun i hi => ?_⟩
  · show q.count - 1 = _
    rw [hq.count]
    show _ = ((tally IDR_SIZE fun i => !((q.put m .null).ary i).isNull : Nat) : Int)
    omega
  · show ChildOk _ (q.bitmap i) ((q.put m .null).ary i)
    by_cases h : i = m
    · rw [h, put_ary_self]
      exact hbit
    · rw [put_ary_ne h]
      exact hq.child i hi h

theorem releaseLoop_spec (hp : LayerOk used l p.release) (hpa : PathOk used L l pa)
    (hclear : Cleared pa) (hnot : p.isFull = false)
    (hsize : size L (.node (plug p pa)) + k ≤ c.inUse) :
    Released used L k (plug p pa) c (releaseLoop c p pa) := by
  induction pa generalizing l p c with
  | nil =>
    obtain rfl : l = L := hpa
    have hpos := size_pos l p
    rw [plug] at hsize ⊢
    rw [releaseLoop]
    by_cases hcount : p.release.count = 0
    · rw [if_pos hcount]
      constructor
      · funext y
        rw [slotAt_null, ← slotAt_release, slotAt_blank hp hcount]
      · show size l .null + k ≤ c.inUse - 1
        rw [size_null]
        omega
      · exact sub_le ..
      · exact .inl ⟨rfl, rfl⟩
    · rw [if_neg hcount]
      exact ⟨slotAt_release l p, by rwa [size_release], le_refl _, .inr ⟨rfl, _, rfl, hp⟩⟩
  | cons frame pa ih =>
    obtain ⟨q, m⟩ := frame
    have hlen := hpa.length
    have hlink := hclear.linked hpa
    rw [releaseLoop]
    by_cases hcount : p.release.count = 0
    · rw [if_pos hcount]
      have hbit : q.bitmap m = false := hlink.1
      have hgone : slotAt l (.null : Entry α) = slotAt l (.node p) := by
        funext y
        rw [slotAt_null, ← slotAt_release, slotAt_blank hp hcount]
      have hpos := size_pos l p
      have hput := size_put (l := l) (q := q) hpa.1.lt (.node p) .null
      have hplug := size_plug hpa.2 (q.put m (.node p)) (q.put m .null)
      rw [size_null] at hput
      rw [plug] at hsize ⊢
      have hless : size L (.node (plug (q.put m .null) pa)) + k ≤ (kmemCacheFree c).inUse := by
        show _ ≤ c.inUse - 1
        omega
      have hrel := ih (hpa.1.released hbit) hpa.2 (fun a ha => hclear a (mem_cons_of_mem _ ha))
        (not_isFull hpa.1.lt hbit) hless
      refine ⟨?_, hrel.size, le_trans hrel.inUse (sub_le ..), hrel.tree⟩
      rw [hrel.same]
      exact slotAt_plug_congr (slotAt_put hgone) hpa.2.length
    · rw [if_neg hcount]
      have hsize' := size_plug hpa p.release p
      rw [size_release] at hsize'
      refine ⟨slotAt_plug_congr (slotAt_release l p) hlen, ?_, le_refl _,
        .inr ⟨rfl, _, rfl, layerOk_plug hp hpa (hnot.symm ▸ hlink)⟩⟩
      show size L (.node (plug p.release ((q, m) :: pa))) + k ≤ c.inUse
      omega

/-- What a call that frees layers leaves: the map is `F`, and the cache has at least the layers. -/
def Left (used : Bool → Entry α → Bool) (F : Nat → Bool × Entry α) (c : Cache)
    (r : Cache × Idr α) : Prop :=
  ∃ total, IdrRep used F total r.2 ∧ total ≤ r.1.inUse ∧ r.1.inUse ≤ c.inUse

/-- The leaf with one slot emptied. -/
theorem LayerOk.remove (hp : LayerOk used 0 p) (hused : used false .null = false)
    (hlt : n < IDR_SIZE) (hn : used (p.bitmap n) (p.ary n) = true) :
    LayerOk used 0 ((p.clearBit n).put n .null).release := by
  have hbit : ((p.clearBit n).put n .null).release.bitmap n = false := update_self ..
  have hnull : ((p.clearBit n).put n .null).release.ary n = .null := put_ary_self
  apply hp.changed hlt
  · exact ⟨rfl, fun i hi => update_of_ne hi .., fun i hi => put_ary_ne hi⟩
  · rw [hn, hbit, hnull, hused]
    show p.count - 1 + _ = _
    simp
  · exact fun _ => ⟨hbit, hnull⟩

/-- `sub_remove` once the walk has come to the leaf. The bits on the path do not matter: the walk
clears them. -/
theorem subRemove_at
    (hwalk : descend clearBit id (s.layers - 1) s.top [] = some (.node leaf, clearPath pa))
    (hlayers : s.layers = L + 1) (hL : L ≤ 5) (hleaf : LayerOk used 0 leaf)
    (hpath : PathOk used L 0 pa) (hroute : Route id 0 pa) (hid : id < 2 ^ ((L + 1) * IDR_BITS))
    (hfree : FreeOk s.idFree) (hused : used false .null = false)
    (hbit : leaf.bitmap (digit IDR_BITS 0 id) = true)
    (hn : used (leaf.bitmap (digit IDR_BITS 0 id)) (leaf.ary (digit IDR_BITS 0 id)) = true)
    (hc : size L (.node (plug leaf pa)) + s.idFree.length ≤ c.inUse) :
    Ends (subRemove c s id)
      (Left used (update (mapOf (L + 1) (.node (plug leaf pa))) id (false, .null)) c) := by
  have hlen := hpath.length
  rw [hlayers] at hwalk
  rw [subRemove, hlayers]
  refine .bind_eq hwalk ?_
  dsimp only
  rw [and_mask, if_pos hbit]
  have hleaf' := hleaf.remove hused (digit_lt IDR_BITS 0 id) hn
  let n := digit IDR_BITS 0 id
  have hnot : ((leaf.clearBit n).put n .null).isFull = false :=
    not_isFull (digit_lt IDR_BITS 0 id) (update_self ..)
  have hmap := mapOf_update hroute hlen hid (p := leaf) (changed_clear (e := .null))
  rw [show ((leaf.clearBit _).put n Entry.null).bitmap _ = false from
    update_self .., put_ary_self] at hmap
  generalize (leaf.clearBit n).put n .null = leaf' at hleaf' hnot hmap ⊢
  have hsize : size L (.node (plug leaf' (clearPath pa))) + s.idFree.length ≤ c.inUse := by
    rw [size_clearPath hpath, size_leaf hpath leaf' leaf]
    exact hc
  have hrel := releaseLoop_spec hleaf' hpath.clearPath (cleared_clearPath pa) hnot hsize
  generalize releaseLoop c leaf' (clearPath pa) = r at hrel ⊢
  obtain ⟨c', top, gone⟩ := r
  have hmap' : mapOf (L + 1) top =
      update (mapOf (L + 1) (.node (plug leaf pa))) id (false, .null) := by
    rw [← hmap, mapOf_congr (hrel.same.trans (slotAt_clearPath hlen))]
  refine .ret ⟨size L top + s.idFree.length, ?_, hrel.size, hrel.inUse⟩
  rcases hrel.tree with ⟨rfl, rfl⟩ | ⟨rfl, t, rfl, ht⟩
  · refine ⟨.inl ⟨rfl, rfl⟩, hfree, ?_, by rw [size_null, size_null]⟩
    rw [← hmap']
    funext y
    rw [mapOf_null, mapOf_null]
  · exact ⟨.inr ⟨t, L, rfl, rfl, hL, ht⟩, hfree, hmap', rfl⟩

theorem subRemove_spec (hrep : IdrRep used F total s) (hused : used false .null = false)
    (hbit : (F id).1 = true) (hn : used (F id).1 (F id).2 = true) (hc : total ≤ c.inUse) :
    Ends (subRemove c s id) (Left used (update F id (false, .null)) c) := by
  obtain ⟨L, leaf, pa, hwalk⟩ := walk_spec clearBit hrep (by
    intro hnone
    rw [hnone] at hbit
    exact Bool.noConfusion hbit)
  rw [hwalk.slot] at hbit hn
  have hat := subRemove_at hwalk.walk hwalk.layers_eq hwalk.le hwalk.zipped.ok hwalk.zipped.path
    hwalk.zipped.route hwalk.lt hrep.freeOk hused hbit hn (c := c) (by
      rw [hwalk.size]
      exact hc)
  rwa [hwalk.same] at hat

/-- The walk to a free slot clears no bit that is set: no layer on its way is full. -/
theorem descend_free (hp : LayerOk used l p) (hfree : (slotAt l (.node p) id).1 = false)
    (pa : Path α) :
    Ends (descend clearBit id l (.node p) pa) fun r => plugEntry r.1 r.2 = .node (plug p pa) ∧
      (r.1 = .null ∨ ∃ leaf, r.1 = .node leaf ∧ leaf.bitmap (digit IDR_BITS 0 id) = false) := by
  induction l generalizing p pa with
  | zero =>
    refine .ret ⟨?_, .inr ⟨p, rfl, hfree⟩⟩
    cases pa <;> rfl
  | succ l ih =>
    have hbit : p.bitmap (digit IDR_BITS (l + 1) id) = false := by
      by_contra hset
      rw [hp.full (by simpa using hset)] at hfree
      exact Bool.noConfusion hfree
    have hclear : p.clearBit (digit IDR_BITS (l + 1) id) = p := by
      rw [clearBit, ← hbit, update_eq_self]
    rw [descend, slotIndex_eq, hclear]
    rw [slotAt] at hfree
    rcases hp.child (digit_lt IDR_BITS (l + 1) id) with ⟨hnull, -⟩ | ⟨c, hary, hok, -⟩
    · have hplug : plugEntry .null ((p, digit IDR_BITS (l + 1) id) :: pa) = .node (plug p pa) := by
        rw [plugEntry, ← hnull, put_self]
      rw [hnull]
      cases l <;> exact .ret ⟨hplug, .inl rfl⟩
    · rw [hary] at hfree ⊢
      refine .mono (ih hok hfree _) fun r hr => ?_
      rwa [plug, ← hary, put_self] at hr

theorem subRemove_free (hrep : IdrRep used F total s) (hid : id < 2 ^ (s.layers * IDR_BITS))
    (hfree : (F id).1 = false) : subRemove c s id = some (c, s) := by
  obtain ⟨top, free, layers⟩ := s
  rcases hrep.tree with ⟨rfl, rfl⟩ | ⟨p, l, rfl, rfl, -, hok⟩
  · rfl
  rw [← hrep.same, mapOf, if_pos hid, Nat.add_sub_cancel] at hfree
  obtain ⟨⟨e, pa⟩, hwalk, hplug, hend⟩ := descend_free hok hfree []
  rw [subRemove, Nat.add_sub_cancel, hwalk]
  rcases hend with rfl | ⟨leaf, rfl, hbit⟩
  · simp [hplug, plug]
  · simp [and_mask, hbit, hplug, plug]

theorem descend_congr (visit) (e : Entry α) (pa)
    (h : low IDR_BITS (l + 1) x = low IDR_BITS (l + 1) y) :
    descend visit x l e pa = descend visit y l e pa ∧ digit IDR_BITS 0 x = digit IDR_BITS 0 y := by
  obtain ⟨hd, hl⟩ := low_succ_eq_iff.mp h
  induction l generalizing e pa with
  | zero => exact ⟨rfl, hd⟩
  | succ l ih =>
    obtain ⟨hd', hl'⟩ := low_succ_eq_iff.mp hl
    refine ⟨?_, (ih e pa hl hd' hl').2⟩
    cases e with
    | node p =>
      rw [descend, descend, slotIndex_eq, slotIndex_eq, hd]
      exact (ih _ _ hl hd' hl').1
    | item v => rfl
    | null => rfl

/-- `sub_remove` sees the digits of the layers only: an id beyond them is taken for a smaller
one. -/
theorem subRemove_congr (hrep : IdrRep used F total s)
    (h : x % 2 ^ (s.layers * IDR_BITS) = y % 2 ^ (s.layers * IDR_BITS)) :
    subRemove c s x = subRemove c s y := by
  obtain ⟨top, free, layers⟩ := s
  rcases hrep.tree with ⟨rfl, rfl⟩ | ⟨p, l, rfl, rfl, -, -⟩
  · rfl
  obtain ⟨hwalk, hd⟩ := descend_congr clearBit (.node p) [] h
  simp only [subRemove, and_mask, Nat.add_sub_cancel, hwalk, hd]

/-- The top layer has one child, at the leftmost slot. -/
theorem LayerOk.single (hp : LayerOk used (l + 1) p) (hcount : p.count = 1)
    (hchild : (p.ary 0).isNull = false) :
    (∃ c, p.ary 0 = .node c ∧ LayerOk used l c) ∧ ∀ i < IDR_SIZE, i ≠ 0 → p.ary i = .null := by
  constructor
  · rcases hp.child (m := 0) (by decide) with ⟨hnull, -⟩ | ⟨c, hary, hok, -⟩
    · rw [hnull] at hchild
      exact Bool.noConfusion hchild
    · exact ⟨c, hary, hok⟩
  intro i hi hne
  by_contra hnull
  have hfill : tally IDR_SIZE (fun i => !(p.ary i).isNull) = 1 := by
    have := hp.2.1
    omega
  have hrest := tally_change (f := fun i => !(p.ary i).isNull)
    (g := fun i => !decide (i = 0) && !(p.ary i).isNull) (m := 0) (n := IDR_SIZE) (by decide)
    (fun j _ hj => by simp [hj])
  simp only [hfill, hchild, decide_true, Bool.not_true, Bool.false_and, Bool.not_false,
    Bool.toNat_true, Bool.toNat_false] at hrest
  have hnone := tally_eq_zero.mp
    (by omega : tally IDR_SIZE (fun i => !decide (i = 0) && !(p.ary i).isNull) = 0) i hi
  cases hary : p.ary i with
  | null => exact hnull hary
  | item v => simp [hne, Entry.isNull] at hnone
  | node c => simp [hne, Entry.isNull] at hnone

theorem shrinkTop_spec (hrep : IdrRep used F total s) (hc : total ≤ c.inUse) :
    Left used F c (shrinkTop c s) := by
  have hkeep : Left used F c (c, s) := ⟨total, hrep, hc, le_refl _⟩
  rcases hrep.tree with ⟨htop, -⟩ | ⟨p, l, htop, hlayers, hl, hok⟩
  · simp only [shrinkTop, htop]
    exact hkeep
  simp only [shrinkTop, htop]
  split
  next h =>
    obtain ⟨hcount, hmore, hchild⟩ := h
    obtain ⟨l, rfl⟩ : ∃ l', l = l' + 1 := ⟨l - 1, by omega⟩
    obtain ⟨⟨child, hary, hchildOk⟩, hothers⟩ := hok.single hcount (by simpa using hchild)
    have hsame := hrep.same
    have hsize := hrep.size
    rw [htop, hlayers] at hsame hsize
    rw [hary, hlayers]
    have hsum : ∑ i ∈ Finset.range IDR_SIZE, size l (p.ary i) = size l (.node child) := by
      rw [Finset.sum_eq_single 0, hary]
      · intro i hi hne
        rw [hothers i (Finset.mem_range.mp hi) hne, size_null]
      · exact absurd (Finset.mem_range.mpr (by decide))
    rw [Nat.add_sub_cancel, size, hsum] at hsize
    refine ⟨size l (.node child) + s.idFree.length, ⟨.inr ⟨child, l, rfl, rfl, by omega, hchildOk⟩,
      hrep.freeOk, ?_, rfl⟩, ?_, sub_le ..⟩
    · rw [← hsame]
      funext y
      show mapOf (l + 1) _ y = mapOf (l + 2) _ y
      refine (if_level (fun hd => ?_) fun hd => ?_).symm
      · show slotAt (l + 1) _ y = slotAt l _ y
        rw [slotAt, hd, hary]
      · show slotAt (l + 1) _ y = _
        rw [slotAt, hothers _ (digit_lt IDR_BITS (l + 1) y) hd, slotAt_null]
    · show _ ≤ c.inUse - 1
      omega
  next => exact hkeep

theorem trimFree_spec {free : List (Node α)} (hfree : FreeOk free)
    (hc : k + free.length ≤ c.inUse) :
    FreeOk (trimFree c free).2 ∧ k + (trimFree c free).2.length ≤ (trimFree c free).1.inUse ∧
      (trimFree c free).1.inUse ≤ c.inUse := by
  induction free generalizing c with
  | nil => exact ⟨hfree, hc, le_refl _⟩
  | cons p free ih =>
    rw [trimFree]
    split
    · rw [length_cons] at hc
      have hc' : k + free.length ≤ (kmemCacheFree c).inUse := by
        show _ ≤ c.inUse - 1
        omega
      obtain ⟨hok, hle, hmono⟩ := ih hfree.tail hc'
      exact ⟨hok, hle, le_trans hmono (sub_le ..)⟩
    · exact ⟨hfree, hc, le_refl _⟩

/-- What `idr_remove` does after `sub_remove` does not change the map. -/
theorem idrRemove_of (h : Ends (subRemove c s (id &&& MAX_ID_MASK)) (Left used F c)) :
    Ends (idrRemove c s id) (Left used F c) := by
  rw [idrRemove]
  refine .bind h fun ⟨c1, s1⟩ ⟨t1, hrep1, hc1, hle1⟩ => ?_
  obtain ⟨t2, hrep2, hc2, hle2⟩ := shrinkTop_spec hrep1 hc1
  dsimp only
  generalize shrinkTop c1 s1 = r2 at hrep2 hc2 hle2 ⊢
  obtain ⟨c2, s2⟩ := r2
  have hsize := hrep2.size
  obtain ⟨hfree, hle, hmono⟩ := trimFree_spec hrep2.freeOk (k := size (s2.layers - 1) s2.top)
    (c := c2) (by
    rw [hsize]
    exact hc2)
  exact .ret ⟨_, ⟨hrep2.tree, hfree, hrep2.same, rfl⟩, hle, le_trans hmono (le_trans hle2 hle1)⟩

/-- **`idr_remove`** empties the slot of an id that is in use. -/
theorem idrRemove_spec (hrep : IdrRep used F total s) (hused : used false .null = false)
    (hbit : (F id).1 = true) (hn : used (F id).1 (F id).2 = true) (hid : id < 2 ^ 31)
    (hc : total ≤ c.inUse) :
    Ends (idrRemove c s id) (Left used (update F id (false, .null)) c) := by
  apply idrRemove_of
  rw [and_max_id_mask hid]
  exact subRemove_spec hrep hused hbit hn hc

/-- The id that **`idr_remove`** really goes to is emptied if it is in use. If it is not, nothing
changes. -/
theorem idrRemove_folded (hrep : IdrRep used F total s) (hused : ∀ b e, used b e = b)
    (hc : total ≤ c.inUse) (hf : id % 2 ^ (s.layers * IDR_BITS) = f) :
    Ends (idrRemove c s id) (Left used (if (F f).1 then update F f (false, .null) else F) c) := by
  have hlayers : s.layers * IDR_BITS ≤ 31 := by
    rw [IDR_BITS]
    rcases hrep.tree with ⟨-, hlayers⟩ | ⟨p, l, -, hlayers, hl, -⟩
    · omega
    · omega
  have hlt : f < 2 ^ (s.layers * IDR_BITS) := hf ▸ Nat.mod_lt _ (Nat.two_pow_pos _)
  have hmask : (id &&& MAX_ID_MASK) % 2 ^ (s.layers * IDR_BITS) = f % 2 ^
      (s.layers * IDR_BITS) := by
    rw [MAX_ID_MASK, MAX_ID_BIT, and_two_pow_sub_one_eq_mod,
      mod_mod_of_dvd _ (pow_dvd_pow 2 hlayers), hf, mod_eq_of_lt hlt]
  apply idrRemove_of
  rw [subRemove_congr hrep hmask]
  split
  next hbit => exact subRemove_spec hrep (hused ..) hbit ((hused ..).trans hbit) hc
  next hbit => exact ⟨_, subRemove_free hrep hlt (Bool.not_eq_true _ ▸ hbit), total, hrep,
    hc, le_refl _⟩

/-! ### Memory -/

/-- An idr that stands for `F`, with layers from the cache. -/
def Stored (used : Bool → Entry α → Bool) (F : Nat → Bool × Entry α) (c : Cache)
    (s : Idr α) : Prop :=
  ∃ total, IdrRep used F total s ∧ total ≤ c.inUse ∧ c.inUse * layerSize ≤ 2 ^ 32

theorem Left.stored (h : Left used F c r) (hc : c.inUse * layerSize ≤ 2 ^ 32) :
    Stored used F r.1 r.2 := by
  obtain ⟨total, hrep, hle, hmono⟩ := h
  exact ⟨total, hrep, hle, le_trans (mul_le_mul_right layerSize hmono) hc⟩

theorem stored_init (c : Cache) (hc : c.inUse * layerSize ≤ 2 ^ 32) :
    Stored used (fun _ => (false, .null)) c (idrInit α) := by
  refine ⟨0, ⟨.inl ⟨rfl, rfl⟩, nofun, ?_, rfl⟩, zero_le _, hc⟩
  funext y
  exact mapOf_null 0 y

/-- **`idr_pre_get`** changes the free list only. -/
theorem idrPreGet_spec (h : Stored used F c s) (granted : List Bool) :
    Stored used F (idrPreGet c s granted).1 (idrPreGet c s granted).2.1 := by
  induction granted generalizing c s with
  | nil =>
    rw [idrPreGet]
    split <;> exact h
  | cons g granted ih =>
    rw [idrPreGet]
    split
    · obtain ⟨total, hrep, hle, hc⟩ := h
      rw [kmemCacheZalloc]
      by_cases hg : (g && decide ((c.inUse + 1) * layerSize ≤ 2 ^ 32)) = true
      · rw [if_pos hg]
        rw [and_eq_true, decide_eq_true_eq] at hg
        apply ih
        have hfree : FreeOk (Layer.zero :: s.idFree) := by
          intro q hq
          rcases mem_cons.mp hq with rfl | hq
          · exact ⟨rfl, update_eq_self .., rfl⟩
          · exact hrep.freeOk q hq
        refine ⟨total + 1, ⟨hrep.tree, hfree, hrep.same, ?_⟩, succ_le_succ hle, hg.2⟩
        rw [← hrep.size]
        rfl
      · rw [if_neg hg]
        exact ⟨total, hrep, hle, hc⟩
    · exact h

/-- A full tree does not fit into the address space. -/
theorem Stored.room (h : Stored used F c s) : ∃ y, 0 ≤ y ∧ y < 2 ^ 30 ∧ (F y).1 = false := by
  obtain ⟨total, hrep, hle, hc⟩ := h
  by_contra hnone
  have hfull : ∀ y, y < 2 ^ 30 → (F y).1 = true := by
    intro y hy
    by_contra hbit
    exact hnone ⟨y, zero_le y, hy, not_eq_true _ ▸ hbit⟩
  have hsame := hrep.same
  rcases hrep.tree with ⟨htop, hlayers⟩ | ⟨p, l, htop, hlayers, hl, hok⟩
  · have := hfull 0 (by decide)
    rw [← hsame, htop, mapOf_null] at this
    exact Bool.noConfusion this
  rw [htop, hlayers] at hsame
  have hin : ∀ y, y < 2 ^ 30 → y < 2 ^ ((l + 1) * IDR_BITS) ∧ (slotAt l (.node p) y).1 = true := by
    intro y hy
    have hbit := hfull y hy
    rw [← hsame, mapOf] at hbit
    split at hbit
    next hlt => exact ⟨hlt, hbit⟩
    next => exact Bool.noConfusion hbit
  obtain rfl : l = 5 := by
    by_contra hne
    have hcap := (hin (2 ^ 30 - 1) (by decide)).1
    have hpow : 2 ^ ((l + 1) * IDR_BITS) ≤ 2 ^ 25 :=
      Nat.pow_le_pow_right Nat.two_pos (by rw [IDR_BITS]; omega)
    omega
  have hsize : IDR_SIZE ^ 5 ≤ size 5 (.node p) := by
    apply size_of_full
    intro x
    have hlow : low IDR_BITS 6 x = low IDR_BITS 6 (low IDR_BITS 6 x) := (low_of_lt (low_lt ..)).symm
    rw [slotAt_congr hlow]
    exact (hin _ (low_lt IDR_BITS 6 x)).2
  have htotal := hrep.size
  rw [htop, hlayers] at htotal
  have hmany : 2 ^ 25 ≤ c.inUse := by
    have hpow : IDR_SIZE ^ 5 = 2 ^ 25 := by decide
    rw [hpow] at hsize
    change size 5 (.node p) + _ = total at htotal
    omega
  rw [layerSize] at hc
  omega

end SilanKernel.IdTree
