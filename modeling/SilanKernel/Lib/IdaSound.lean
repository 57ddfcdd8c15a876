import SilanKernel.Lib.IdrSound

/-!
# SilanKernel.Lib.IdaSound

**What the calls of an ida do** to the set of ids that its bitmaps stand for.

A slot of the idr is in use when it has a bitmap, and its bit is set when the bitmap is full.
Between the moment that a bitmap becomes empty and the removal of its slot the bit is set as well,
and the layer may look full when the layers above say that it is not; the removal clears all these
bits.
-/

namespace SilanKernel.IdTree

open Function Nat

open Memory (loopBound)

variable {S : Set Nat} {F : Nat → Bool × Entry IdaBitmap} {total id k o : Nat} {c : Cache} {a : Ida}
  {bm : IdaBitmap}

/-- A slot of a leaf is in use when there is a bitmap. -/
def idaUsed (_ : Bool) (e : Entry IdaBitmap) : Bool := !e.isNull

/-! ### Bitmaps -/

/-- The slot `k` stands for the ids of the set in its range. -/
def ChunkOk (S : Set Nat) (k : Nat) (slot : Bool × Entry IdaBitmap) : Prop :=
  match slot.2 with
  | .null => slot.1 = false ∧ ∀ o < IDA_BITMAP_BITS, k * IDA_BITMAP_BITS + o ∉ S
  | .node _ => False
  | .item bm => (∀ o < IDA_BITMAP_BITS, bm.bitmap o = true ↔ k * IDA_BITMAP_BITS + o ∈ S) ∧
      bm.nrBusy = tally IDA_BITMAP_BITS bm.bitmap ∧ slot.1 = decide (bm.nrBusy = IDA_BITMAP_BITS)

/-- **An ida stands for a set of ids.** -/
structure IdaRep (S : Set Nat) (F : Nat → Bool × Entry IdaBitmap) (c : Cache)
    (s : Idr IdaBitmap) : Prop where
  stored : Stored idaUsed F c s
  chunk : ∀ k, ChunkOk S k (F k)
  lt : ∀ y ∈ S, y < 2 ^ 31

/-- A bitmap that is marked full is full. -/
theorem ChunkOk.full (h : ChunkOk S k (F k)) (hbit : (F k).1 = true) :
    ∀ y, k * IDA_BITMAP_BITS ≤ y → y < (k + 1) * IDA_BITMAP_BITS → y ∈ S := by
  intro y hle hlt
  rw [ChunkOk] at h
  split at h
  next =>
    rw [hbit] at h
    exact Bool.noConfusion h.1
  next => exact False.elim h
  next bm _ =>
    obtain ⟨hbits, hbusy, hfull⟩ := h
    rw [hbit] at hfull
    have hall : tally IDA_BITMAP_BITS bm.bitmap = IDA_BITMAP_BITS := by
      have := of_decide_eq_true hfull.symm
      omega
    rw [Nat.add_one_mul] at hlt
    have hy := (hbits (y - k * IDA_BITMAP_BITS) (by omega)).mp (tally_eq_bound.mp hall _ (by omega))
    rwa [Nat.add_sub_cancel' hle] at hy

/-- The slots of the other bitmaps. -/
theorem ChunkOk.congr (h : ChunkOk S k slot)
    (hsame : ∀ o < IDA_BITMAP_BITS, k * IDA_BITMAP_BITS + o ∈ S' ↔ k * IDA_BITMAP_BITS + o ∈ S) :
    ChunkOk S' k slot := by
  rw [ChunkOk] at h ⊢
  split at h
  next =>
    exact ⟨h.1, fun o ho hmem => h.2 o ho ((hsame o ho).mp hmem)⟩
  next => exact h
  next => exact ⟨fun o ho => (h.1 o ho).trans (hsame o ho).symm, h.2⟩

/-- Two ids in different bitmaps differ. -/
theorem chunk_ne (hk : k ≠ k') (ho : o < IDA_BITMAP_BITS) (ho' : o' < IDA_BITMAP_BITS) :
    k * IDA_BITMAP_BITS + o ≠ k' * IDA_BITMAP_BITS + o' := by
  rw [IDA_BITMAP_BITS] at *
  omega

/-- The first slot beyond the range of ids. -/
def idaLast : Nat := 2164803

theorem IdaRep.room (h : IdaRep S F c s) : (F idaLast).1 = false := by
  by_contra hbit
  have hmem := (h.chunk idaLast).full (by simpa using hbit) (idaLast * IDA_BITMAP_BITS)
    (le_refl _) (by decide)
  have := h.lt _ hmem
  rw [idaLast, IDA_BITMAP_BITS] at this
  omega

/-- The slot found is not beyond it. -/
theorem le_idaLast (h : IdaRep S F c s) (hk : k ≤ idaLast)
    (hbehind : ∀ y, k ≤ y → y < t → (F y).1 = true) : t ≤ idaLast := by
  by_contra hlt
  have hbit := hbehind idaLast hk (not_le.mp hlt)
  rw [h.room] at hbit
  exact Bool.noConfusion hbit

/-- One id is put in or taken out: the slot of its bitmap. -/
theorem IdaRep.update {slot : Bool × Entry IdaBitmap} (h : IdaRep S F c s)
    (hstored : Stored idaUsed (update F k slot) c' s') (hslot : ChunkOk S' k slot)
    (hother : ∀ k' ≠ k, ∀ o < IDA_BITMAP_BITS, k' * IDA_BITMAP_BITS + o ∈ S' ↔
      k' * IDA_BITMAP_BITS + o ∈ S) (hlt : ∀ y ∈ S', y < 2 ^ 31) : IdaRep S'
    (update F k slot) c' s' := by
  refine ⟨hstored, fun k' => ?_, hlt⟩
  by_cases hk : k' = k
  · subst hk
    rw [update_self]
    exact hslot
  · rw [update_of_ne hk]
    exact (h.chunk k').congr (hother k' hk)

/-! ### Allocation -/

variable {L : Nat} {leaf : Node IdaBitmap} {pa : Path IdaBitmap}

theorem Found.slot_eq {α : Type} {used : Bool → Entry α → Bool} {F : Nat → Bool × Entry α}
    {s : Idr α} {leaf : Node α} {pa : Path α} (hf : Found used s t L leaf pa)
    (hrep : IdrRep used F total s) :
    F t = (false, leaf.ary (digit IDR_BITS 0 t)) := by
  rw [← hrep.same, hf.layers_eq, hf.top_eq, mapOf_slot hf.route hf.path.length hf.lt, hf.clear]

/-- A bitmap is there, or an empty one is put in. -/
theorem bitmapAt_spec (h : IdaRep S F c s) (hf : Found idaUsed s t L leaf pa) (spare : Bool) :
    Ends (bitmapAt leaf (t &&& IDR_MASK) spare) fun r =>
      match r with
      | .noMemory => True
      | .found bm leaf' _ => ∃ F', IdaRep S F' c { s with top := .node (plug leaf' pa) } ∧
          Found idaUsed { s with top := .node (plug leaf' pa) } t L leaf' pa ∧
          F' t = (false, .item bm) := by
  obtain ⟨total, hrep, hle, hc⟩ := h.stored
  have hslot := hf.slot_eq hrep
  have hchunk := h.chunk t
  have hself : { s with top := .node (plug leaf pa) } = s := by rw [← hf.top_eq]
  rw [bitmapAt, and_mask]
  let n := digit IDR_BITS 0 t
  cases hary : leaf.ary n with
  | node p =>
    rw [hslot, hary] at hchunk
    exact False.elim hchunk
  | item bm =>
    refine .ret ⟨F, ?_, ?_, by rw [hslot, hary]⟩
    · rw [hself]
      exact h
    · rw [hself]
      exact hf
  | null =>
    refine .ite (fun _ => .ret ?_) fun _ => .ret trivial
    rw [hslot, hary] at hchunk
    have hary' : ({ leaf.put n (.item .zero) with count := leaf.count + 1 } : Node IdaBitmap).ary
        n = .item .zero := put_ary_self
    have hchanged : Changed n leaf
        { leaf.put n (.item .zero) with count := leaf.count + 1 } :=
      ⟨rfl, fun i _ => rfl, fun i hi => put_ary_ne hi⟩
    have hok : LayerOk idaUsed 0 { leaf.put n (.item .zero) with count := leaf.count + 1 } := by
      apply hf.leaf_ok.changed (digit_lt IDR_BITS 0 t) hchanged
      · rw [idaUsed, idaUsed, hary, hary']
        show leaf.count + 1 + 0 = leaf.count + 1
        omega
      · rw [idaUsed, hary']
        exact Bool.noConfusion
    obtain ⟨hrep', hf'⟩ := hf.put hrep hchanged hok hf.clear
    rw [hary'] at hrep'
    refine ⟨_, h.update ⟨total, hrep', hle, hc⟩ ?_ (fun _ _ _ _ => Iff.rfl) h.lt, hf',
      update_self ..⟩
    refine ⟨fun o ho => ?_, ?_, rfl⟩
    · exact iff_of_false Bool.false_ne_true (hchunk.2 o ho)
    · have hzero : tally IDA_BITMAP_BITS IdaBitmap.zero.bitmap = 0 :=
        tally_eq_zero.mpr fun _ _ => rfl
      rw [hzero]
      rfl

/-- The bitmap with one bit more. -/
theorem ChunkOk.insert (h : ChunkOk S k (false, .item bm)) (ho : o < IDA_BITMAP_BITS)
    (hclear : bm.bitmap o = false) (hb : b = decide ((bm.take o).nrBusy = IDA_BITMAP_BITS)) :
    ChunkOk (insert (k * IDA_BITMAP_BITS + o) S) k (b, .item (bm.take o)) := by
  obtain ⟨hbits, hbusy, -⟩ := h
  have hbitmap : (bm.take o).bitmap = update bm.bitmap o true := rfl
  refine ⟨fun o' ho' => ?_, ?_, hb⟩
  · rw [Set.mem_insert_iff, hbitmap]
    by_cases heq : o' = o
    · subst heq
      simp
    rw [update_of_ne heq, hbits o' ho']
    constructor
    · exact .inr
    · intro hor
      rcases hor with hor | hor
      · omega
      · exact hor
  · have hchange := tally_change (f := update bm.bitmap o true) (g := bm.bitmap) ho
      (fun i _ hi => update_of_ne hi ..)
    rw [update_self, hclear, Bool.toNat_true, Bool.toNat_false] at hchange
    rw [hbitmap]
    show bm.nrBusy + 1 = _
    omega

/-- **A bit is taken.** -/
theorem takeBit_spec (h : IdaRep S F c s) (hf : Found idaUsed s t L leaf pa)
    (hslot : F t = (false, .item bm)) (ho : o < IDA_BITMAP_BITS) (hclear : bm.bitmap o = false)
    (hid : t * IDA_BITMAP_BITS + o < 2 ^ 31) :
    ∃ F', IdaRep (insert (t * IDA_BITMAP_BITS + o) S) F' c (takeBit s leaf pa bm t o) := by
  obtain ⟨total, hrep, hle, hc⟩ := h.stored
  let n := digit IDR_BITS 0 t
  have hary : leaf.ary n = .item bm := by
    have := hf.slot_eq hrep
    rw [hslot] at this
    exact (congrArg Prod.snd this).symm
  have hchunk := h.chunk t
  rw [hslot] at hchunk
  have hother : ∀ k' ≠ t, ∀ o' < IDA_BITMAP_BITS, k' * IDA_BITMAP_BITS + o' ∈ insert
      (t * IDA_BITMAP_BITS + o) S ↔ k' * IDA_BITMAP_BITS + o' ∈ S := by
    intro k' hk' o' ho'
    rw [Set.mem_insert_iff]
    exact or_iff_right (chunk_ne hk' ho' ho)
  have hlt : ∀ y ∈ insert (t * IDA_BITMAP_BITS + o) S, y < 2 ^ 31 := by
    intro y hy
    rcases Set.mem_insert_iff.mp hy with rfl | hy
    · exact hid
    · exact h.lt y hy
  rw [takeBit, and_mask]
  have hok : ∀ p : Node IdaBitmap, Changed n leaf p → p.count = leaf.count →
      p.ary n = .item (bm.take o) → LayerOk idaUsed 0 p := by
    intro p hchanged hcount hitem
    apply hf.leaf_ok.changed (digit_lt IDR_BITS 0 t) hchanged
    · rw [idaUsed, idaUsed, hary, hitem, hcount]
      rfl
    · rw [idaUsed, hitem]
      exact Bool.noConfusion
  by_cases hfull : (bm.take o).nrBusy = IDA_BITMAP_BITS
  · rw [if_pos hfull]
    have hchanged := (changed_put (n := digit IDR_BITS 0 t) (p := leaf)
      (e := .item (bm.take o))).setBit
    have hmark := hf.mark hrep (p := leaf.put n (.item (bm.take o)))
      (by rw [and_mask]; exact hchanged) (by rw [and_mask]; exact hok _ hchanged rfl put_ary_self)
    rw [put_ary_self] at hmark
    refine ⟨_, h.update ⟨total, hmark, hle, hc⟩
      (hchunk.insert ho hclear (decide_eq_true hfull).symm) hother hlt⟩
  · rw [if_neg hfull]
    obtain ⟨hput, -⟩ := hf.put hrep changed_put (hok _ changed_put rfl put_ary_self) hf.clear
    rw [put_ary_self] at hput
    refine ⟨_, h.update ⟨total, hput, hle, hc⟩
      (hchunk.insert ho hclear (decide_eq_false hfull).symm) hother hlt⟩

theorem throwAway_spec (h : IdaRep S F c a.idr) :
    IdaRep S F (throwAway c a).1 (throwAway c a).2.idr := by
  obtain ⟨total, hrep, hle, hc⟩ := h.stored
  rw [throwAway]
  split
  · cases hfree : a.idr.idFree with
    | nil => exact h
    | cons p free =>
      have hfreeOk := hrep.freeOk
      have hsize := hrep.size
      rw [hfree] at hfreeOk hsize
      rw [List.length_cons] at hsize
      refine ⟨⟨total - 1, ⟨hrep.tree, hfreeOk.tail, hrep.same, ?_⟩, ?_, ?_⟩, h.chunk, h.lt⟩
      · show size (a.idr.layers - 1) a.idr.top + free.length = total - 1
        omega
      · show total - 1 ≤ c.inUse - 1
        omega
      · exact le_trans (mul_le_mul_right layerSize (sub_le ..)) hc
  · exact h

/-- What `ida_get_new_above` comes to. -/
def AllocOk (S : Set Nat) (start : Nat) : Cache × Ida × Except Int Nat → Prop
  | (c, a, .ok id) => IsLeast { y | start ≤ y ∧ y ∉ S } id ∧ ∃ F, IdaRep (insert id S) F c a.idr
  | (c, a, .error rc) => (rc = -EAGAIN ∨ rc = -ENOSPC) ∧ ∃ F, IdaRep S F c a.idr

/-- All ids from `start` up to the place of the search are taken. -/
def Behind (S : Set Nat) (start place : Nat) : Prop :=
  start ≤ place ∧ ∀ y, start ≤ y → y < place → y ∈ S

/-- On to the slot `t`, over bitmaps that are full. -/
theorem Behind.slot (hb : Behind S start (k * IDA_BITMAP_BITS + offset)) (h : IdaRep S F c s)
    (hoff : offset < IDA_BITMAP_BITS) (hle : k ≤ t) (hfull : ∀ y, k ≤ y → y < t → (F y).1 = true) :
    Behind S start (t * IDA_BITMAP_BITS + if t ≠ k then 0 else offset) := by
  obtain ⟨hstart, hbehind⟩ := hb
  by_cases heq : t = k
  · rw [if_neg (not_not.mpr heq), heq]
    exact ⟨hstart, hbehind⟩
  rw [if_pos heq]
  have hmul : (k + 1) * IDA_BITMAP_BITS ≤ t * IDA_BITMAP_BITS := mul_le_mul_right _ (by omega)
  rw [add_one_mul] at hmul
  refine ⟨by omega, fun y hs hy => ?_⟩
  by_cases hlt : y < k * IDA_BITMAP_BITS + offset
  · exact hbehind y hs hlt
  have hdiv : k ≤ y / IDA_BITMAP_BITS := by
    rw [le_div_iff_mul_le (by decide)]
    omega
  have hdiv' : y / IDA_BITMAP_BITS < t := Nat.div_lt_of_lt_mul (by rw [Nat.mul_comm]; omega)
  apply (h.chunk _).full (hfull _ hdiv hdiv') y
  · exact div_mul_le_self ..
  · rw [mul_comm]
    exact lt_mul_div_succ y (by decide)

/-- On within a bitmap. -/
theorem Behind.bits (hb : Behind S start (t * IDA_BITMAP_BITS + offset)) (h : IdaRep S F c s)
    (hslot : F t = (false, .item bm)) (hle : offset ≤ o) (ho : o ≤ IDA_BITMAP_BITS)
    (hbits : ∀ i, offset ≤ i → i < o → bm.bitmap i = true) :
    Behind S start (t * IDA_BITMAP_BITS + o) := by
  obtain ⟨hstart, hbehind⟩ := hb
  refine ⟨by omega, fun y hs hy => ?_⟩
  by_cases hlt : y < t * IDA_BITMAP_BITS + offset
  · exact hbehind y hs hlt
  · have hchunk := h.chunk t
    rw [hslot] at hchunk
    have hmem := (hchunk.1 (y - t * IDA_BITMAP_BITS) (by omega)).mp (hbits _ (by omega) (by omega))
    rwa [Nat.add_sub_cancel' (by omega)] at hmem

theorem idaLoop_spec (h : IdaRep S F c a.idr) (hk : k ≤ idaLast) (hoff : offset < IDA_BITMAP_BITS)
    (hb : Behind S start (k * IDA_BITMAP_BITS + offset)) (hfuel : idaLast < fuel + k) :
    Ends (idaLoop fuel c a k offset) (AllocOk S start) := by
  induction fuel generalizing F c a k offset with
  | zero => omega
  | succ fuel ih =>
    obtain ⟨total, hrep, hle, hc⟩ := h.stored
    rw [idaLoop]
    refine .bind (idrGetEmptySlot_spec hrep rfl ⟨idaLast, hk, by decide, h.room⟩)
      fun found hfound => ?_
    cases found with
    | error idr rc =>
      obtain ⟨rfl, hrep'⟩ := hfound
      exact .ret ⟨.inl rfl, F, ⟨total, hrep', hle, hc⟩, h.chunk, h.lt⟩
    | slot idr t leaf pa =>
      obtain ⟨hrep', ⟨L, hf⟩, hkt, hfull⟩ := hfound
      have h' : IdaRep S F c idr := ⟨⟨total, hrep', hle, hc⟩, h.chunk, h.lt⟩
      have ht := le_idaLast h hk hfull
      rw [idaLast] at ht
      have hnowrap : t * IDA_BITMAP_BITS % 2 ^ 32 = t * IDA_BITMAP_BITS :=
        mod_eq_of_lt (by rw [IDA_BITMAP_BITS]; omega)
      dsimp only
      rw [hnowrap]
      refine .ite (fun _ => .ret ⟨.inr rfl, F, h'⟩) fun hlt => ?_
      have hb' := hb.slot h hoff hkt hfull
      have hoff' : (if t ≠ k then 0 else offset) < IDA_BITMAP_BITS := by
        split
        · decide
        · exact hoff
      generalize (if t ≠ k then 0 else offset) = offset' at hb' hoff' ⊢
      refine .bind (bitmapAt_spec h' hf a.freeBitmap) fun slot hslot => ?_
      cases slot with
      | noMemory => exact .ret ⟨.inl rfl, F, h'⟩
      | found bm leaf' spare =>
        obtain ⟨F', h1, hf1, hitem⟩ := hslot
        dsimp only
        rcases findNextBit_spec (fun i => !bm.bitmap i) IDA_BITMAP_BITS offset' with
          ⟨hbit, hnone⟩ | ⟨hbit, hge, hclear, hbelow⟩
        · -- The rest of the bitmap is taken.
          rw [if_pos hbit]
          have hnext := hb'.bits h1 hitem (le_of_lt hoff') (le_refl _) fun i hi hi' => by
            simpa using hnone i hi hi'
          rw [← add_one_mul, ← add_zero (_ * _)] at hnext
          have htlt : t < idaLast := by
            rw [MAX_ID_BIT, IDA_BITMAP_BITS] at hlt
            rw [idaLast]
            omega
          exact ih h1 (by omega) (by decide) hnext (by omega)
        rw [if_neg (Nat.ne_of_lt hbit)]
        generalize findNextBit (fun i => !bm.bitmap i) IDA_BITMAP_BITS offset' =
          o at hbit hge hclear hbelow ⊢
        have hnowrap' : (t * IDA_BITMAP_BITS + o) % 2 ^ 32 = t * IDA_BITMAP_BITS + o :=
          mod_eq_of_lt (by rw [IDA_BITMAP_BITS] at *; omega)
        rw [hnowrap']
        refine .ite (fun _ => .ret ⟨.inr rfl, F', h1⟩) fun hid => ?_
        have hclear' : bm.bitmap o = false := by simpa using hclear
        rw [MAX_ID_BIT] at hid
        obtain ⟨F2, h2⟩ := takeBit_spec h1 hf1 hitem hbit hclear' (by omega)
        have hplace := hb'.bits h1 hitem hge (le_of_lt hbit) fun i hi hi' => by
          simpa using hbelow i hi hi'
        have hnot : t * IDA_BITMAP_BITS + o ∉ S := by
          have hchunk := h1.chunk t
          rw [hitem] at hchunk
          intro hmem
          have := (hchunk.1 o hbit).mpr hmem
          rw [hclear'] at this
          exact Bool.noConfusion this
        refine .ret ⟨⟨⟨hplace.1, hnot⟩, fun y hy => ?_⟩, F2, throwAway_spec h2⟩
        by_contra hy'
        exact hy.2 (hplace.2 y hy.1 (not_le.mp hy'))

/-- **`ida_get_new_above`** takes the least id from `start` on that is free, or changes nothing. -/
theorem idaGetNewAbove_spec (h : IdaRep S F c a.idr) (hstart : start < 2 ^ 31) :
    Ends (idaGetNewAbove c a start) (AllocOk S start) := by
  have hdiv : start / IDA_BITMAP_BITS ≤ idaLast := by
    rw [IDA_BITMAP_BITS, idaLast]
    omega
  apply idaLoop_spec h hdiv (mod_lt _ (by decide))
  · rw [div_add_mod']
    exact ⟨le_refl _, fun y hs hy => absurd hy (not_lt.mpr hs)⟩
  · rw [idaLast, loopBound]
    generalize start / IDA_BITMAP_BITS = k
    omega

/-! ### Removal -/

/-- The bitmap with one bit less, which is not full. -/
theorem ChunkOk.remove (h : ChunkOk S k (b, .item bm)) (ho : o < IDA_BITMAP_BITS)
    (hset : bm.bitmap o = true) : ChunkOk (S \ {k * IDA_BITMAP_BITS + o}) k
    (false, .item (bm.drop o)) := by
  obtain ⟨hbits, hbusy, -⟩ := h
  have hbitmap : (bm.drop o).bitmap = update bm.bitmap o false := rfl
  have hcount : (bm.drop o).nrBusy = tally IDA_BITMAP_BITS (bm.drop o).bitmap := by
    have hchange := tally_change (f := update bm.bitmap o false) (g := bm.bitmap) ho
      (fun i _ hi => update_of_ne hi ..)
    rw [update_self, hset, Bool.toNat_true, Bool.toNat_false] at hchange
    rw [hbitmap]
    show bm.nrBusy - 1 = _
    omega
  refine ⟨fun o' ho' => ?_, hcount, ?_⟩
  · rw [hbitmap, Set.mem_sdiff, Set.mem_singleton_iff]
    by_cases heq : o' = o
    · subst heq
      simp
    rw [update_of_ne heq, hbits o' ho']
    constructor
    · intro hmem
      exact ⟨hmem, by omega⟩
    · exact fun hmem => hmem.1
  · symm
    apply decide_eq_false
    intro hfull
    rw [hcount] at hfull
    have hall := tally_eq_bound.mp (by exact_mod_cast hfull) o ho
    rw [hbitmap, update_self] at hall
    exact Bool.noConfusion hall

/-- A bitmap without bits can go. -/
theorem ChunkOk.empty (h : ChunkOk S k (false, .item bm)) (hzero : bm.nrBusy = 0) :
    ChunkOk S k (false, .null) := by
  obtain ⟨hbits, hbusy, -⟩ := h
  refine ⟨rfl, fun o ho hmem => ?_⟩
  have hnone := tally_eq_zero.mp (by omega : tally IDA_BITMAP_BITS bm.bitmap = 0) o ho
  rw [(hbits o ho).mpr hmem] at hnone
  exact Bool.noConfusion hnone

/-- The bitmap of an id in the set. -/
theorem IdaRep.bitmap_of_mem (h : IdaRep S F c s) (ho : o < IDA_BITMAP_BITS)
    (hid : k * IDA_BITMAP_BITS + o ∈ S) : ∃ b bm, F k = (b, .item bm) ∧ bm.bitmap o = true := by
  have hchunk := h.chunk k
  generalize F k = slot at hchunk ⊢
  obtain ⟨b, e⟩ := slot
  cases e with
  | null => exact absurd hid (hchunk.2 o ho)
  | node p => exact False.elim hchunk
  | item bm => exact ⟨b, bm, rfl, (hchunk.1 o ho).mpr hid⟩

/-- The leaf with the smaller bitmap, under a path whose bits are cleared. -/
structure Smaller (F : Nat → Bool × Entry IdaBitmap) (total : Nat) (s : Idr IdaBitmap) (k L : Nat)
    (bm : IdaBitmap) (pa : Path IdaBitmap) (p : Node IdaBitmap) : Prop where
  ok : LayerOk idaUsed 0 p
  item : p.ary (digit IDR_BITS 0 k) = .item bm
  same : mapOf (L + 1) (.node (plug p (clearPath pa))) =
    Function.update F k (p.bitmap (digit IDR_BITS 0 k), .item bm)
  size : size L (.node (plug p (clearPath pa))) + s.idFree.length = total

section

variable (hw : Walked idaUsed F total s k L Layer.clearBit leaf pa)

include hw

theorem Walked.smaller (hary : leaf.ary (digit IDR_BITS 0 k) = .item bm)
    (hchanged : Changed (digit IDR_BITS 0 k) leaf p) (hcount : p.count = leaf.count)
    (hitem : p.ary (digit IDR_BITS 0 k) = .item bm') : Smaller F total s k L bm' pa p := by
  have hlen := hw.zipped.path.length
  constructor
  · apply hw.zipped.ok.changed (digit_lt IDR_BITS 0 k) hchanged
    · rw [idaUsed, idaUsed, hary, hitem, hcount]
      rfl
    · rw [idaUsed, hitem]
      exact Bool.noConfusion
  · exact hitem
  · have hmap := mapOf_update hw.zipped.route hlen hw.lt hchanged
    rw [hw.same, hitem] at hmap
    rw [← hmap, mapOf_congr (slotAt_clearPath hlen)]
  · rw [size_clearPath hw.zipped.path, size_leaf hw.zipped.path p leaf]
    exact hw.size

/-- The removal of a bitmap from the idr, with the bits on the path cleared before. -/
theorem Smaller.remove (hp : Smaller F total s k L bm pa p) (hfree : FreeOk s.idFree)
    (hbit : p.bitmap (digit IDR_BITS 0 k) = true) (hk : k < 2 ^ 31) (hc : total ≤ c.inUse) :
    Ends (idrRemove c { s with top := .node (plug p (clearPath pa)) } k)
      (Left idaUsed (update F k (false, .null)) c) := by
  have hpath := hw.zipped.path.clearPath
  have hroute := hw.zipped.route.clearPath
  have hwalk : descend Layer.clearBit k (s.layers - 1) (.node (plug p (clearPath pa))) [] =
      some (.node p, clearPath (framesOf p (clearPath pa))) := by
    rw [hw.layers_eq, Nat.add_sub_cancel, descend_plug Layer.clearBit hroute hpath.length]
    rfl
  have hused : idaUsed (p.bitmap (digit IDR_BITS 0 k)) (p.ary (digit IDR_BITS 0 k)) = true := by
    rw [hp.item]
    rfl
  have hsize : IdTree.size L (.node (plug p (framesOf p (clearPath pa)))) + s.idFree.length ≤
      c.inUse := by
    rw [plug_framesOf, hp.size]
    exact hc
  have hremove := subRemove_at (s := { s with top := .node (plug p (clearPath pa)) }) hwalk
    hw.layers_eq hw.le hp.ok (hpath.framesOf p) (hroute.framesOf p) hw.lt hfree rfl hbit hused hsize
  rw [plug_framesOf, hp.same, update_idem] at hremove
  apply idrRemove_of
  rwa [and_max_id_mask hk]

/-- The bitmap is left in the idr. -/
theorem Smaller.rep (hp : Smaller F total s k L bm pa p) (hfree : FreeOk s.idFree)
    (hbit : p.bitmap (digit IDR_BITS 0 k) = false) :
    IdrRep idaUsed (update F k (false, .item bm)) total
      { s with top := .node (plug p (clearPath pa)) } := by
  have hpath := hw.zipped.path.clearPath
  have hlink : Linked p.isFull (clearPath pa) := by
    rw [not_isFull (digit_lt IDR_BITS 0 k) hbit]
    exact (cleared_clearPath pa).linked hpath
  have hsame := hp.same
  rw [hbit] at hsame
  refine ⟨.inr ⟨_, L, rfl, hw.layers_eq, hw.le, layerOk_plug hp.ok hpath hlink⟩, hfree, ?_, ?_⟩
  · show mapOf s.layers _ = _
    rw [hw.layers_eq, hsame]
  · show IdTree.size (s.layers - 1) _ + _ = total
    rw [hw.layers_eq]
    exact hp.size

end

/-- **`ida_remove`** takes an id out of the set. -/
theorem idaRemove_spec (h : IdaRep S F c a.idr) (hid : id ∈ S) :
    Ends (idaRemove c a id) fun (c', a') => ∃ F', IdaRep (S \ {id}) F' c' a'.idr := by
  obtain ⟨total, hrep, hle, hc⟩ := h.stored
  have hlt := h.lt id hid
  have ho : id % IDA_BITMAP_BITS < IDA_BITMAP_BITS := mod_lt _ (by decide)
  have hidEq : id / IDA_BITMAP_BITS * IDA_BITMAP_BITS + id % IDA_BITMAP_BITS = id := div_add_mod' ..
  rw [idaRemove]
  generalize id / IDA_BITMAP_BITS = k, id % IDA_BITMAP_BITS = o at ho hidEq ⊢
  have hk : k < 2 ^ 31 := by
    rw [IDA_BITMAP_BITS] at hidEq
    omega
  subst hidEq
  obtain ⟨b, bm, hslot, hset⟩ := h.bitmap_of_mem ho hid
  have hchunk := h.chunk k
  rw [hslot] at hchunk
  have hchunk' := hchunk.remove ho hset
  have hother : ∀ k' ≠ k, ∀ o' < IDA_BITMAP_BITS, k' * IDA_BITMAP_BITS + o' ∈
      S \ {k * IDA_BITMAP_BITS + o} ↔ k' * IDA_BITMAP_BITS + o' ∈ S := by
    intro k' hk' o' ho'
    rw [Set.mem_sdiff, Set.mem_singleton_iff]
    exact and_iff_left (chunk_ne hk' ho' ho)
  have hbound : ∀ y ∈ S \ {k * IDA_BITMAP_BITS + o}, y < 2 ^ 31 := fun y hy => h.lt y hy.1
  obtain ⟨L, leaf, pa, hw⟩ :=
    walk_spec Layer.clearBit hrep (show F k ≠ (false, .null) by rw [hslot]; simp)
  let n := digit IDR_BITS 0 k
  have hary : leaf.ary n = .item bm := by
    have := hw.slot
    rw [hslot] at this
    exact (congrArg Prod.snd this).symm
  refine .bind_eq hw.walk ?_
  rw [show (pa.map fun a => (Layer.clearBit a.1 a.2, a.2)) = clearPath pa from rfl]
  have hary' : (leaf.clearBit n).ary n = .item bm := hary
  dsimp only [clearAt]
  rw [and_mask, hary']
  dsimp only
  rw [if_pos hset]
  refine .ite (fun hzero => ?_) fun _ => .ret ?_
  · -- The last bit: the bitmap is taken out of the idr.
    have hp : Smaller F total a.idr k L (bm.drop o) pa
        (((leaf.clearBit n).put n (.item (bm.drop o))).setBit n) :=
      hw.smaller hary changed_clear.setBit rfl put_ary_self
    refine .bind (hp.remove hw hrep.freeOk (update_self ..) hk hle) fun r hleft => .ret ?_
    exact ⟨_, h.update (hleft.stored hc) (hchunk'.empty hzero) hother hbound⟩
  · have hp : Smaller F total a.idr k L (bm.drop o) pa
        ((leaf.clearBit n).put n (.item (bm.drop o))) :=
      hw.smaller hary changed_clear rfl put_ary_self
    exact ⟨_, h.update ⟨total, hp.rep hw hrep.freeOk (update_self ..), hle, hc⟩ hchunk'
      hother hbound⟩

/-!
### Runs

**An ida is a set of ids**: a run of calls on an ida follows the runs of a set in which a new id is
the least free one from the start on.
-/

/-- The calls, with the outcomes of the allocations. -/
inductive IdaCall where
  | preGet (granted : List Bool) (bitmap : Bool)
  | getNewAbove (start : Nat)
  | remove (id : Nat)

inductive IdaRet where
  | flag (r : Int)
  | id (r : Except Int Nat)
  | done

def idaStep (st : Cache × Ida) : IdaCall → Option ((Cache × Ida) × IdaRet)
  | .preGet granted bitmap =>
    let (c, a, r) := idaPreGet st.1 st.2 granted bitmap
    some ((c, a), .flag r)
  | .getNewAbove start => (idaGetNewAbove st.1 st.2 start).map fun (c, a, r) => ((c, a), .id r)
  | .remove id => (idaRemove st.1 st.2 id).map fun st => (st, .done)

/-- The calls on a set: the result and the set after it. -/
def setSpec (S : Set Nat) : IdaCall → IdaRet → Set Nat → Prop
  | .preGet _ _, .flag _, S' => S' = S
  | .getNewAbove start, .id (.ok id), S' => IsLeast { y | start ≤ y ∧ y ∉ S } id ∧ S' = insert id S
  | .getNewAbove _, .id (.error rc), S' => (rc = -EAGAIN ∨ rc = -ENOSPC) ∧ S' = S
  | .remove id, .done, S' => S' = S \ {id}
  | _, _, _ => False

/-- A start is an `int` that is not negative, and only ids in the set are removed. -/
def IdaLegal (S : Set Nat) : IdaCall → Prop
  | .preGet _ _ => True
  | .getNewAbove start => start < 2 ^ 31
  | .remove id => id ∈ S

/-- **The ida stands for the set.** -/
def IdaStands (st : Cache × Ida) (S : Set Nat) : Prop := ∃ F, IdaRep S F st.1 st.2.idr

theorem idaPreGet_spec (h : IdaStands st S) (granted : List Bool) (bitmap : Bool) :
    IdaStands ((idaPreGet st.1 st.2 granted bitmap).1, (idaPreGet st.1 st.2 granted bitmap).2.1)
      S := by
  obtain ⟨F, hrep⟩ := h
  have hstored := idrPreGet_spec hrep.stored granted
  rw [idaPreGet]
  generalize idrPreGet st.1 st.2.idr granted = res at hstored ⊢
  obtain ⟨c, idr, r⟩ := res
  have hnext : ∀ spare, IdaStands (c, ⟨idr, spare⟩) S := fun _ => ⟨F, hstored, hrep.chunk, hrep.lt⟩
  dsimp only
  split
  · exact hnext _
  split
  · exact hnext _
  · split
    · exact hnext true
    · exact hnext _

/-- One call. -/
theorem idaStep_spec (h : IdaStands st S) (a : IdaCall) (hlegal : IdaLegal S a) :
    ∃ st' r S', idaStep st a = some (st', r) ∧ setSpec S a r S' ∧ IdaStands st' S' := by
  obtain ⟨F, hrep⟩ := h
  cases a with
  | preGet granted bitmap => exact ⟨_, _, S, rfl, rfl, idaPreGet_spec ⟨F, hrep⟩ granted bitmap⟩
  | getNewAbove start =>
    obtain ⟨⟨c, a, r⟩, hrun, hr⟩ := idaGetNewAbove_spec hrep hlegal
    have hstep : idaStep st (.getNewAbove start) = some ((c, a), .id r) := by
      rw [idaStep, hrun]
      rfl
    cases r with
    | error rc => exact ⟨_, _, S, hstep, ⟨hr.1, rfl⟩, hr.2⟩
    | ok id => exact ⟨_, _, insert id S, hstep, ⟨hr.1, rfl⟩, hr.2⟩
  | remove id =>
    obtain ⟨⟨c, a⟩, hrun, hr⟩ := idaRemove_spec hrep hlegal
    refine ⟨(c, a), .done, S \ {id}, ?_, rfl, hr⟩
    rw [idaStep, hrun]
    rfl

/-- **An ida is a set of ids.** Every run of calls on a new ida, with any outcome of the
allocations, follows the set. -/
theorem ida_refines_set (c : Cache) (hc : c.inUse * layerSize ≤ 2 ^ 32) (calls : List IdaCall) :
    Run.Follows IdaLegal IdaStands idaStep setSpec (c, idaInit) ∅ calls := by
  have hempty : IdaStands (c, idaInit) ∅ := by
    refine ⟨fun _ => (false, .null), stored_init c hc, fun k => ⟨rfl, fun o _ => ?_⟩,
      fun y hy => ?_⟩
    · exact Set.notMem_empty _
    · exact absurd hy (Set.notMem_empty y)
  exact Run.follows_of_step (R := IdaStands)
    (fun _ _ a h hlegal => idaStep_spec h a hlegal) hempty calls

/-- Ids from 990 on: the second and third lie in two bitmaps. -/
theorem ida_refines_set_twoBitmaps : (0 : Nat) * layerSize ≤ 2 ^ 32 ∧
    Run.Follows IdaLegal IdaStands idaStep setSpec (⟨0⟩, idaInit) ∅
      [.preGet (List.replicate 14 true) true, .getNewAbove 990, .getNewAbove 990,
        .preGet (List.replicate 14 true) true, .getNewAbove 990, .remove 991, .getNewAbove 990] :=
  ⟨by decide, ida_refines_set ⟨0⟩ (by decide) _⟩

end SilanKernel.IdTree
