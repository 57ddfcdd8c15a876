import SilanKernel.Lib.IdrTree

/-!
# SilanKernel.Lib.IdrAlloc

`idr_get_empty_slot` **finds the least free slot** from an id on, and makes the layers down to it.

The walk of `sub_alloc` has all the slots from the first id up to where it is behind it, and all of
them are in use. Whether it skips bits that are set, or goes up because no bit is left, this is a
step to the same place with another digit.
-/

namespace SilanKernel.IdTree

open List Function Bool Nat Layer

open Memory (loopBound)

variable {α : Type} {used : Bool → Entry α → Bool} {f : Nat → Bool × Entry α}
  {l L m x y id start total : Nat} {p q c new : Node α} {pa : Path α} {free : List (Node α)}

/-! ### The arithmetic of slots -/

theorem slotIndex_eq (l id : Nat) : slotIndex l id = digit IDR_BITS l id := by
  rw [slotIndex, IDR_MASK, IDR_SIZE, and_two_pow_sub_one_eq_mod, shiftRight_eq_div_pow, digit,
    mul_comm]

theorem and_mask (id : Nat) : id &&& IDR_MASK = digit IDR_BITS 0 id := by
  rw [← slotIndex_eq, slotIndex, mul_zero, shiftRight_zero]

theorem or_mask (id k : Nat) : id ||| (2 ^ k - 1) = 2 ^ k * (id / 2 ^ k) + (2 ^ k - 1) := by
  apply eq_of_testBit_eq
  intro i
  have hlt : 2 ^ k - 1 < 2 ^ k := sub_lt (Nat.two_pow_pos k) Nat.one_pos
  rw [testBit_or, testBit_two_pow_sub_one, testBit_two_pow_mul_add _ hlt,
    testBit_two_pow_sub_one, testBit_div_two_pow]
  by_cases hi : i < k
  · simp [hi]
  · simp [hi, Nat.sub_add_cancel (Nat.not_lt.mp hi)]

theorem nextBlock_eq (h : withDigit IDR_BITS l id IDR_SIZE < 2 ^ 32) :
    nextBlock id (l + 1) = withDigit IDR_BITS l id IDR_SIZE := by
  have hpos : 0 < 2 ^ (IDR_BITS * (l + 1)) := Nat.two_pow_pos _
  have heq : (id ||| (2 ^ (IDR_BITS * (l + 1)) - 1)) + 1 = withDigit IDR_BITS l id IDR_SIZE := by
    rw [or_mask, Nat.add_assoc, Nat.sub_add_cancel hpos, ← Nat.mul_add_one, withDigit, IDR_SIZE,
      ← add_one_mul, above, mul_assoc, mul_comm (2 ^ IDR_BITS), ← pow_succ_mul,
      mul_comm IDR_BITS, mul_comm]
  rw [nextBlock, heq, mod_eq_of_lt h]

theorem xor_digit (a : Nat) (hm : m < 2 ^ k) : a ^^^ (a % 2 ^ k) ^^^ m =
    2 ^ k * (a / 2 ^ k) + m := by
  apply eq_of_testBit_eq
  intro i
  rw [testBit_xor, testBit_xor, testBit_mod_two_pow, testBit_two_pow_mul_add _ hm,
    testBit_div_two_pow]
  by_cases hi : i < k
  · simp [hi]
  · have hbit : m.testBit i = false :=
      testBit_lt_two_pow (Nat.lt_of_lt_of_le hm
        (Nat.pow_le_pow_right Nat.two_pos (Nat.not_lt.mp hi)))
    simp [hi, hbit, Nat.sub_add_cancel (Nat.not_lt.mp hi)]

theorem xor_eq_withDigit (hm : m < IDR_SIZE) :
    ((id >>> (IDR_BITS * l)) ^^^ slotIndex l id ^^^ m) <<< (IDR_BITS * l) =
      withDigit IDR_BITS l id m := by
  have hindex : slotIndex l id = (id >>> (IDR_BITS * l)) % 2 ^ IDR_BITS :=
    and_two_pow_sub_one_eq_mod ..
  rw [hindex, xor_digit _ hm, shiftLeft_eq, shiftRight_eq_div_pow, Nat.div_div_eq_div_mul,
    ← pow_add, withDigit, above, mul_comm IDR_BITS, ← add_one_mul, mul_comm (2 ^ IDR_BITS)]

theorem findNextBit_spec (bits : Nat → Bool) (size offset : Nat) :
    (findNextBit bits size offset = size ∧ ∀ i, offset ≤ i → i < size → bits i = false) ∨
      (findNextBit bits size offset < size ∧ offset ≤ findNextBit bits size offset ∧
        bits (findNextBit bits size offset) = true ∧
        ∀ i, offset ≤ i → i < findNextBit bits size offset → bits i = false) := by
  rw [findNextBit]
  cases hfind : (range size).find? fun i => decide (offset ≤ i) && bits i with
  | none =>
    left
    rw [find?_range_eq_none] at hfind
    constructor
    · rfl
    · intro i ho hi
      have := hfind i hi
      simpa [ho] using this
  | some m =>
    right
    rw [find?_range_eq_some] at hfind
    obtain ⟨hm, hlt, hmin⟩ := hfind
    simp only [and_eq_true, decide_eq_true_eq] at hm
    rw [mem_range] at hlt
    refine ⟨hlt, hm.1, hm.2, fun i ho hi => ?_⟩
    have := hmin i hi
    simpa [ho] using this

/-! ### Layers -/

/-- A layer with nothing in it. -/
structure Blank (p : Node α) : Prop where
  bitmap : p.bitmap = fun _ => false
  ary : p.ary = fun _ => .null
  count : p.count = 0

/-- The free list: layers with nothing in them but the link. -/
def FreeOk (free : List (Node α)) : Prop := ∀ p ∈ free, Blank (p.put 0 .null)

theorem FreeOk.tail (h : FreeOk (q :: free)) : FreeOk free := fun p hp => h p (mem_cons_of_mem q hp)

theorem Blank.slotAt (hp : Blank p) (l : Nat) : slotAt l (.node p) = fun _ => (false, .null) := by
  funext x
  cases l with
  | zero => rw [IdTree.slotAt, hp.bitmap, hp.ary]
  | succ l => rw [IdTree.slotAt, hp.ary, slotAt_null]

theorem Blank.size (hp : Blank p) (l : Nat) : size l (.node p) = 1 := by
  cases l with
  | zero => rfl
  | succ l => simp [IdTree.size, hp.ary]

theorem Blank.layerOk (hp : Blank p) (hused : used false .null = false) (hl : p.layer = l) :
    LayerOk used l p := by
  cases l with
  | zero => simp [LayerOk, hl, hp.count, hp.bitmap, hp.ary, hused, tally]
  | succ l => simp [LayerOk, hl, hp.count, hp.bitmap, hp.ary, Entry.isNull, tally, ChildOk]

/-- An empty layer has nothing in it. -/
theorem LayerOk.blank (hp : LayerOk used l p) (hcount : p.count = 0) :
    ∀ i < IDR_SIZE, p.bitmap i = false ∧ p.ary i = .null := by
  cases l with
  | zero =>
    obtain ⟨-, hc, hslot⟩ := hp
    have hzero : tally IDR_SIZE (fun i => used (p.bitmap i) (p.ary i)) = 0 := by omega
    intro i hi
    exact hslot i hi (tally_eq_zero.mp hzero i hi)
  | succ l =>
    obtain ⟨-, hc, hchild⟩ := hp
    have hzero : tally IDR_SIZE (fun i => !(p.ary i).isNull) = 0 := by omega
    intro i hi
    have hnull : p.ary i = .null := by
      have := tally_eq_zero.mp hzero i hi
      cases hary : p.ary i with
      | null => rfl
      | item v => simp [hary, Entry.isNull] at this
      | node c => simp [hary, Entry.isNull] at this
    have := hchild i hi
    rw [hnull] at this
    exact ⟨this, hnull⟩

/-- Where a bit is set all slots below it are in use. -/
theorem LayerOk.full (hp : LayerOk used l p) (hbit : p.bitmap (digit IDR_BITS l x) = true) :
    (slotAt l (.node p) x).1 = true := by
  induction l generalizing p with
  | zero => exact hbit
  | succ l ih =>
    rcases hp.child (digit_lt IDR_BITS (l + 1) x) with ⟨-, hclear⟩ | ⟨c, hary, hok, hfull⟩
    · rw [hbit] at hclear
      exact Bool.noConfusion hclear
    · rw [slotAt, hary]
      rw [hbit] at hfull
      exact ih hok (isFull_iff.mp hfull.symm _ (digit_lt IDR_BITS l x))

theorem Route.congr (hroute : Route x l pa)
    (h : above IDR_BITS (l + 1) x = above IDR_BITS (l + 1) y) :
    Route y l pa := by
  induction pa generalizing l with
  | nil => trivial
  | cons frame pa ih =>
    obtain ⟨hm, hroute⟩ := hroute
    rw [above_eq IDR_BITS (l + 1) x] at h
    obtain ⟨habove, hdigit⟩ := above_succ_of_above (digit_lt IDR_BITS (l + 1) x) h.symm
    exact ⟨hm.trans hdigit.symm, ih hroute habove.symm⟩

/-! ### The walk -/

/-- The tree `top` stands for `f`; with the free list it has `total` layers. -/
structure Tree (used : Bool → Entry α → Bool) (f : Nat → Bool × Entry α) (total L : Nat)
    (top : Node α) (free : List (Node α)) : Prop where
  ok : LayerOk used L top
  same : slotAt L (.node top) = f
  freeOk : FreeOk free
  size : size L (.node top) + free.length = total

/-- Where a walk is that looks for a free slot from `start` on. -/
structure Walk (used : Bool → Entry α → Bool) (f : Nat → Bool × Entry α) (start total L : Nat)
    (free : List (Node α)) (id l : Nat) (p : Node α) (pa : Path α) : Prop where
  ok : LayerOk used l p
  path : PathOk used L l pa
  linked : Linked p.isFull pa
  route : Route id l pa
  same : slotAt L (.node (plug p pa)) = f
  freeOk : FreeOk free
  size : size L (.node (plug p pa)) + free.length = total
  lt : id < 2 ^ ((L + 1) * IDR_BITS)
  le : start ≤ id
  behind : ∀ y, start ≤ y → y < id → (f y).1 = true

section

variable (hw : Walk used f start total L free id l p pa)

include hw

theorem Walk.tree : Tree used f total L (plug p pa) free :=
  ⟨layerOk_plug hw.ok hw.path hw.linked, hw.same, hw.freeOk, hw.size⟩

/-- The slots below the layer of the walk. -/
theorem Walk.below (h : above IDR_BITS (l + 1) y = above IDR_BITS (l + 1) id) :
    f y = slotAt l (.node p) y := by
  rw [← hw.same]
  exact slotAt_plug_below hw.route hw.path.length h

/-- The bits up to the digit `d` are set: what is in between is in use. -/
theorem Walk.passed (hd : d ≤ IDR_SIZE)
    (hbits : ∀ i, digit IDR_BITS l id ≤ i → i < d → p.bitmap i = true) :
    ∀ y, start ≤ y → y < withDigit IDR_BITS l id d → (f y).1 = true := by
  intro y hs hy
  by_cases hid : y < id
  · exact hw.behind y hs hid
  · obtain ⟨habove, hle, hlt⟩ := below_withDigit (not_lt.mp hid) hy hd
    rw [hw.below habove]
    exact hw.ok.full (hbits _ hle hlt)

theorem Walk.level_le : l ≤ L := by
  have := hw.path.length
  omega

/-- On to the slot `d` of the same layer. -/
theorem Walk.advance (hle : digit IDR_BITS l id < d) (hd : d < IDR_SIZE)
    (hbits : ∀ i, digit IDR_BITS l id ≤ i → i < d → p.bitmap i = true) :
    Walk used f start total L free (withDigit IDR_BITS l id d) l p pa := by
  have hlt := lt_withDigit hle
  exact { hw with
    route := hw.route.congr (withDigit_digits hd).1.symm
    lt := withDigit_lt hw.lt (lt_succ_of_le hw.level_le) hd
    le := le_trans hw.le (le_of_lt hlt)
    behind := hw.passed (le_of_lt hd) hbits }

end

/-- Down to a layer that is there. -/
theorem Walk.down (hw : Walk used f start total L free id (l + 1) p pa)
    (hc : p.ary (digit IDR_BITS (l + 1) id) = .node c) :
    Walk used f start total L free id l c ((p, digit IDR_BITS (l + 1) id) :: pa) := by
  obtain ⟨hhole, hok, hbit⟩ := hw.ok.hole (digit_lt IDR_BITS (l + 1) id) hc
  have hplug : p.put (digit IDR_BITS (l + 1) id) (.node c) = p := by rw [← hc, put_self]
  exact { hw with
    ok := hok
    path := ⟨hhole, hw.path⟩
    linked := ⟨hbit, hw.linked⟩
    route := ⟨rfl, hw.route⟩
    same := by rw [plug, hplug]; exact hw.same
    size := by rw [plug, hplug]; exact hw.size }

theorem LayerOk.hole_adopt (hp : LayerOk used (l + 1) p) (hm : m < IDR_SIZE)
    (hnull : p.ary m = .null) :
    HoleOk used l (p.adopt m new) m := by
  obtain ⟨hlayer, hcount, hchild⟩ := hp
  have hfill : tally IDR_SIZE (fun i => !(p.ary i).isNull) + 1 =
      tally IDR_SIZE (fun i => decide (i = m) || !(p.ary i).isNull) := by
    have := tally_change (f := fun i => !(p.ary i).isNull)
      (g := fun i => decide (i = m) || !(p.ary i).isNull) hm (fun i _ hi => by simp [hi])
    simpa [hnull, Entry.isNull] using this
  constructor
  · exact hm
  · exact hlayer
  · rw [show (p.adopt m new).ary = (p.put m (.node new)).ary from rfl, tally_put, ← hfill,
      show (p.adopt m new).count = p.count + 1 from rfl, hcount]
    omega
  · intro i hi h
    rw [adopt, put_ary_ne h]
    exact hchild i hi

theorem slotAt_adopt (hnull : p.ary m = .null) (hnew : Blank new) :
    slotAt (l + 1) (.node (p.adopt m new)) = slotAt (l + 1) (.node p) := by
  apply slotAt_succ_congr
  intro i
  by_cases hi : i = m
  · rw [hi, hnull, adopt, put_ary_self, hnew.slotAt]
    funext x
    exact (slotAt_null l x).symm
  · rw [adopt, put_ary_ne hi]

theorem size_adopt (hm : m < IDR_SIZE) (hnull : p.ary m = .null) (hnew : Blank new) :
    size (l + 1) (.node (p.adopt m new)) = size (l + 1) (.node p) + 1 := by
  have hsame : size (l + 1) (.node (p.adopt m new)) = size (l + 1)
      (.node (p.put m (.node new))) := by
    rw [size, size, adopt]
  have hself : p.put m (p.ary m) = p := put_self
  rw [hnull] at hself
  have hput := size_put (l := l) (q := p) hm (.node new) .null
  rw [hself, size_null, hnew.size, add_zero] at hput
  rw [hsame]
  exact hput

theorem plug_adopt : plug new ((p.adopt m new, m) :: pa) = plug (p.adopt m new) pa := by
  have hput : (p.adopt m new).put m (.node new) = p.adopt m new := by
    have hself : (p.adopt m new).ary m = .node new := put_ary_self
    rw [← hself, put_self]
  rw [plug, hput]

/-- Down to a new layer. -/
theorem Walk.create (hw : Walk used f start total L (q :: free) id (l + 1) p pa)
    (hused : used false .null = false) (hnull : p.ary (digit IDR_BITS (l + 1) id) = .null)
    (hnew : Blank new) (hlayer : new.layer = l) :
    Walk used f start total L free id l new
      ((p.adopt (digit IDR_BITS (l + 1) id) new, digit IDR_BITS (l + 1) id) :: pa) := by
  have hm := digit_lt IDR_BITS (l + 1) id
  have hbit : p.bitmap (digit IDR_BITS (l + 1) id) = false := by
    have := hw.ok.2.2 _ hm
    rwa [hnull] at this
  have hempty : new.isFull = false := not_isFull hm (by rw [hnew.bitmap])
  have hlen : l + 1 + pa.length = L := hw.path.length
  exact { hw with
    ok := hnew.layerOk hused hlayer
    path := ⟨hw.ok.hole_adopt hm hnull, hw.path⟩
    linked := ⟨hbit.trans hempty.symm, hw.linked⟩
    route := ⟨rfl, hw.route⟩
    same := by
      rw [plug_adopt, slotAt_plug_congr (slotAt_adopt hnull hnew) hlen]
      exact hw.same
    freeOk := hw.freeOk.tail
    size := by
      have hsize := size_plug hw.path (p.adopt (digit IDR_BITS (l + 1) id) new) p
      have htotal := hw.size
      rw [size_adopt hm hnull hnew] at hsize
      rw [length_cons] at htotal
      rw [plug_adopt]
      omega }

theorem Walk.restart (hw : Walk used f start total L free id l p pa)
    (hbits : ∀ i, digit IDR_BITS l id ≤ i → i < IDR_SIZE → p.bitmap i = true)
    (hlt : withDigit IDR_BITS l id IDR_SIZE < 2 ^ ((L + 1) * IDR_BITS)) :
    Walk used f start total L free (withDigit IDR_BITS l id IDR_SIZE) L (plug p pa) [] := by
  have hle := le_of_lt (lt_withDigit (digit_lt IDR_BITS l id))
  exact { hw with
    ok := hw.tree.ok
    path := rfl
    linked := trivial
    route := trivial
    lt := hlt
    le := le_trans hw.le hle
    behind := hw.passed (le_refl _) hbits }

theorem Walk.up (hw : Walk used f start total L free id l p ((q, m) :: pa))
    (hbits : ∀ i, digit IDR_BITS l id ≤ i → i < IDR_SIZE → p.bitmap i = true)
    (hlt : withDigit IDR_BITS l id IDR_SIZE < 2 ^ ((L + 1) * IDR_BITS))
    (hsame : above IDR_BITS (l + 2) id = above IDR_BITS (l + 2)
      (withDigit IDR_BITS l id IDR_SIZE)) :
    Walk used f start total L free (withDigit IDR_BITS l id IDR_SIZE) (l + 1)
      (q.put m (.node p)) pa := by
  exact { hw.restart hbits hlt with
    ok := hw.path.1.layerOk hw.ok hw.linked.1
    path := hw.path.2
    linked := hw.linked.2
    route := hw.route.2.congr hsame }

/-- What `sub_alloc` comes to. -/
def SubAllocOk (used : Bool → Entry α → Bool) (f : Nat → Bool × Entry α) (start total L : Nat) :
    Alloc α × List (Node α) → Prop
  | (.slot id leaf pa, free) =>
    Walk used f start total L free id 0 leaf pa ∧ leaf.bitmap (digit IDR_BITS 0 id) = false
  | (.noMemory top, free) => Tree used f total L top free
  | (.needToGrow id top, free) => Tree used f total L top free ∧ id = 2 ^ ((L + 1) * IDR_BITS) ∧
      ∀ y, start ≤ y → y < id → (f y).1 = true
  | (.noMoreSpace _, _) => False

theorem intGe_of_le (hid : id < 2 ^ 31) (h : n ≤ id) : intGe id n = true := by
  rw [intGe, decide_eq_true hid, decide_eq_true h, Bool.and_self]

theorem intGe_of_lt (h : id < n) : intGe id n = false := by
  rw [intGe, decide_eq_false (not_le.mpr h), Bool.and_false]

theorem capacity_le (hL : L ≤ 5) : 2 ^ ((L + 1) * IDR_BITS) ≤ 2 ^ 30 :=
  Nat.pow_le_pow_right Nat.two_pos (by rw [IDR_BITS]; omega)

/-- The walk at a layer without a free slot from `id` on. -/
theorem Walk.cases_full (hw : Walk used f start total L free id l p pa) (hL : L ≤ 5)
    (hbits : ∀ i, digit IDR_BITS l id ≤ i → i < IDR_SIZE → p.bitmap i = true) :
    nextBlock id (l + 1) = withDigit IDR_BITS l id IDR_SIZE ∧ id < nextBlock id (l + 1) ∧
      (intGe (nextBlock id (l + 1)) (2 ^ ((L + 1) * IDR_BITS)) = true ∧
          SubAllocOk used f start total L (.needToGrow (nextBlock id (l + 1)) (plug p pa), free) ∨
        intGe (nextBlock id (l + 1)) (2 ^ ((L + 1) * IDR_BITS)) = false ∧
          nextBlock id (l + 1) < 2 ^ ((L + 1) * IDR_BITS) ∧ pa ≠ []) := by
  have hcap := capacity_le hL
  have hle := withDigit_le hw.lt (lt_succ_of_le hw.level_le) (le_refl IDR_SIZE)
  have heq : nextBlock id (l + 1) = withDigit IDR_BITS l id IDR_SIZE := nextBlock_eq (by omega)
  rw [heq]
  refine ⟨rfl, lt_withDigit (digit_lt IDR_BITS l id), ?_⟩
  rcases lt_or_eq_of_le hle with hlt | htop
  · right
    refine ⟨intGe_of_lt hlt, hlt, fun hpa => ?_⟩
    subst hpa
    obtain rfl : l = L := hw.path
    exact absurd (withDigit_top hw.lt) (Nat.ne_of_lt hlt)
  · left
    have hpassed := hw.passed (le_refl _) hbits
    rw [htop] at hpassed ⊢
    exact ⟨intGe_of_le (by omega) (le_refl _), hw.tree, rfl, hpassed⟩

/-- The loop of `sub_alloc`. A step down leaves the id at least as large, and a step up or a restart
makes it larger. -/
theorem subAllocLoop_spec (hL : L ≤ 5) (hused : used false .null = false)
    (hw : Walk used f start total L free id l p pa)
    (hfuel : (2 ^ ((L + 1) * IDR_BITS) - id) * 7 + l < fuel) :
    Ends (subAllocLoop (L + 1) fuel free id l p pa) (SubAllocOk used f start total L) := by
  induction fuel generalizing free id l p pa with
  | zero => omega
  | succ fuel ih =>
    have hcap := capacity_le hL
    rw [subAllocLoop]
    simp only [slotIndex_eq]
    rcases findNextBit_spec (fun i => !p.bitmap i) IDR_SIZE (digit IDR_BITS l id) with
      ⟨hm, hnone⟩ | ⟨hm, hle, hbit, hbelow⟩
    · -- All bits from here on are set.
      have hbits : ∀ i, digit IDR_BITS l id ≤ i → i < IDR_SIZE → p.bitmap i = true :=
        fun i h h' => by
        simpa using hnone i h h'
      obtain ⟨hnext, hinc, hcase⟩ := hw.cases_full hL hbits
      rw [if_pos hm]
      rcases hcase with ⟨hge, hgrow⟩ | ⟨hge, hnlt, hpa⟩
      · rw [if_pos hge]
        exact .ret hgrow
      rw [hge, if_neg Bool.false_ne_true]
      obtain ⟨⟨q, k⟩, pa, rfl⟩ := exists_cons_of_ne_nil hpa
      have hpath := hw.path.length
      rw [length_cons] at hpath
      have hmeasure : ∀ l', l' ≤ 5 →
          (2 ^ ((L + 1) * IDR_BITS) - nextBlock id (l + 1)) * 7 + l' < fuel := by
        intro l' hl'
        omega
      rw [hnext] at hnlt hmeasure ⊢
      refine .ite (fun hsame => ?_) fun _ => ?_
      · rw [mul_comm, shiftRight_eq_div_pow, shiftRight_eq_div_pow] at hsame
        exact ih (hw.up hbits hnlt hsame) (hmeasure _ (by omega))
      · exact ih (hw.restart hbits hnlt) (hmeasure _ hL)
    · rw [if_neg (Nat.ne_of_lt hm)]
      have hclear : p.bitmap (findNextBit (fun i => !p.bitmap i) IDR_SIZE (digit IDR_BITS l id))
          = false := by
        simpa using hbit
      generalize findNextBit (fun i => !p.bitmap i) IDR_SIZE (digit IDR_BITS l id) =
        m at hm hle hclear hbelow ⊢
      -- The id with the digit that was found.
      obtain ⟨id', hid', hw', hdigit, hge⟩ : ∃ id', (if m ≠ digit IDR_BITS l id then
            ((id >>> (IDR_BITS * l)) ^^^ digit IDR_BITS l id ^^^ m) <<< (IDR_BITS * l)
              else id) = id' ∧
          Walk used f start total L free id' l p pa ∧ digit IDR_BITS l id' = m ∧ id ≤ id' := by
        by_cases hne : m = digit IDR_BITS l id
        · exact ⟨id, by rw [if_neg (not_not.mpr hne)], hw, hne.symm, le_refl id⟩
        have hlt' : digit IDR_BITS l id < m := by omega
        refine ⟨withDigit IDR_BITS l id m, ?_, hw.advance hlt' hm fun i h h' => ?_,
          (withDigit_digits hm).2, le_of_lt (lt_withDigit hlt')⟩
        · rw [if_pos hne, ← slotIndex_eq, xor_eq_withDigit hm]
        · simpa using hbelow i h h'
      simp only [hid']
      have hlt' := hw'.lt
      rw [if_neg (by rw [MAX_ID_BIT]; omega)]
      cases l with
      | zero =>
        rw [if_pos rfl]
        exact .ret ⟨hw', hdigit ▸ hclear⟩
      | succ l =>
        rw [if_neg (succ_ne_zero l)]
        have hmeasure : (2 ^ ((L + 1) * IDR_BITS) - id') * 7 + l < fuel := by omega
        subst hdigit
        rcases hw'.ok.child hm with ⟨hnull, -⟩ | ⟨c, hary, -⟩
        · rw [hnull]
          cases free with
          | nil => exact .ret hw'.tree
          | cons new free =>
            have hblank := hw'.freeOk new mem_cons_self
            exact ih (hw'.create hused hnull ⟨hblank.bitmap, hblank.ary, hblank.count⟩ rfl) hmeasure
        · rw [hary]
          exact ih (hw'.down hary) hmeasure

/-! ### More layers -/

/-- What a tree of so many layers stands for. -/
def mapOf (layers : Nat) (top : Entry α) (y : Nat) : Bool × Entry α :=
  if y < 2 ^ (layers * IDR_BITS) then slotAt (layers - 1) top y else (false, .null)

theorem mapOf_null (layers y : Nat) : mapOf layers (.null : Entry α) y = (false, .null) := by
  rw [mapOf, slotAt_null, ite_self]

theorem mapOf_congr (h : slotAt L e = slotAt L e') : mapOf (L + 1) e = mapOf (L + 1) e' := by
  funext y
  rw [mapOf, mapOf, Nat.add_sub_cancel, h]

section

variable (hp : LayerOk used l p) (hcount : p.count = 0)

include hp hcount

theorem slotAt_blank (k y : Nat) : slotAt k (.node p) y = (false, .null) := by
  have hblank := hp.blank hcount
  cases k with
  | zero =>
    obtain ⟨hbit, hnull⟩ := hblank _ (digit_lt IDR_BITS 0 y)
    rw [slotAt, hbit, hnull]
  | succ k => rw [slotAt, (hblank _ (digit_lt IDR_BITS (k + 1) y)).2, slotAt_null]

theorem mapOf_blank (layers l' : Nat) :
    mapOf layers (.node { p with layer := l' }) = fun _ => (false, .null) := by
  funext y
  have hslot : slotAt (layers - 1) (.node { p with layer := l' }) y = slotAt (layers - 1)
      (.node p) y := by
    cases layers - 1 <;> rfl
  rw [mapOf, hslot, slotAt_blank hp hcount, ite_self]

theorem size_blank (k l' : Nat) : size k (.node { p with layer := l' }) = 1 := by
  have hblank := hp.blank hcount
  cases k with
  | zero => rfl
  | succ k =>
    have hzero : ∑ i ∈ Finset.range IDR_SIZE, size k (p.ary i) = 0 := by
      apply Finset.sum_eq_zero
      intro i hi
      rw [(hblank i (Finset.mem_range.mp hi)).2, size_null]
    rw [size, hzero]

theorem layerOk_moved : LayerOk used (l + 1) { p with layer := l + 1 } := by
  have hblank := hp.blank hcount
  have hzero : tally IDR_SIZE (fun i => !(p.ary i).isNull) = 0 := by
    rw [tally_eq_zero]
    intro i hi
    rw [(hblank i hi).2]
    rfl
  refine ⟨rfl, ?_, fun i hi => ?_⟩
  · rw [hzero, hcount]
    rfl
  · obtain ⟨hbit, hnull⟩ := hblank i hi
    simp only [hnull, ChildOk, hbit]

end

theorem over_ary : (new.over p n).ary = (new.put 0 (.node p)).ary := by
  rw [Layer.over]
  split <;> rfl

theorem over_ary_zero : (new.over p n).ary 0 = .node p := by
  rw [over_ary, put_ary_self]

theorem over_ary_ne (hi : i ≠ 0) : (new.over p n).ary i = new.ary i := by
  rw [over_ary, put_ary_ne hi]

theorem over_bitmap (hnew : Blank new) : (new.over p n).bitmap i =
    (decide (i = 0) && p.isFull) := by
  rw [Layer.over]
  cases p.isFull with
  | true =>
    rw [if_pos rfl, Bool.and_true]
    show update new.bitmap 0 true i = _
    rw [hnew.bitmap]
    by_cases hi : i = 0
    · rw [hi, update_self, decide_eq_true rfl]
    · rw [update_of_ne hi, decide_eq_false hi]
  | false =>
    rw [if_neg Bool.false_ne_true, Bool.and_false]
    show new.bitmap i = false
    rw [hnew.bitmap]

theorem over_count : (new.over p n).count = 1 := by
  rw [Layer.over]
  split <;> rfl

theorem over_layer : (new.over p n).layer = n := by
  rw [Layer.over]
  split <;> rfl

theorem layerOk_over (hp : LayerOk used l p) (hnew : Blank new) :
    LayerOk used (l + 1) (new.over p (l + 1)) := by
  have hone : tally IDR_SIZE (fun i => !((new.over p (l + 1)).ary i).isNull) = 1 := by
    have hchange := tally_change (f := fun i => !((new.over p (l + 1)).ary i).isNull)
      (g := fun _ => false) (m := 0) (n := IDR_SIZE) (by decide)
      (fun i _ hi => by simp [over_ary_ne hi, hnew.ary, Entry.isNull])
    have hzero : tally IDR_SIZE (fun _ => false) = 0 := tally_eq_zero.mpr fun _ _ => rfl
    simpa [hzero, over_ary_zero, Entry.isNull] using hchange
  refine ⟨over_layer, ?_, fun i hi => ?_⟩
  · rw [over_count, hone]
    rfl
  rw [over_bitmap hnew]
  by_cases h : i = 0
  · rw [h, over_ary_zero]
    exact ⟨hp, true_and _⟩
  · rw [over_ary_ne h, hnew.ary, decide_eq_false h]
    rfl

theorem mapOf_over (hnew : Blank new) :
    mapOf (l + 2) (.node (new.over p n)) = mapOf (l + 1) (.node p) := by
  funext y
  refine if_level (fun hd => ?_) fun hd => ?_
  · show slotAt (l + 1) _ y = slotAt l _ y
    rw [slotAt, hd, over_ary_zero]
  · show slotAt (l + 1) _ y = _
    rw [slotAt, over_ary_ne hd, hnew.ary, slotAt_null]

theorem size_over (hnew : Blank new) : size (l + 1) (.node (new.over p n)) = size l
    (.node p) + 1 := by
  have hsum : ∑ i ∈ Finset.range IDR_SIZE, size l ((new.over p n).ary i) = size l (.node p) := by
    rw [Finset.sum_eq_single 0, over_ary_zero]
    · intro i _ hi
      rw [over_ary_ne hi, hnew.ary, size_null]
    · intro h
      exact absurd (Finset.mem_range.mpr (by decide)) h
  rw [size, hsum, add_comm]

/-- The layers that were added, over the old top. -/
def Stacked : Nat → Node α → Prop
  | 0, _ => True
  | added + 1, p => ∃ c, p.ary 0 = .node c ∧ (∀ i, i ≠ 0 → p.ary i = .null) ∧ Stacked added c

theorem tearDown_spec (h : Stacked n p) (hfree : FreeOk free) :
    FreeOk (tearDown n (.node p) free) ∧ (tearDown n (.node p) free).length = free.length + n := by
  induction n generalizing p free with
  | zero => exact ⟨hfree, rfl⟩
  | succ n ih =>
    obtain ⟨c, hc, hnull, hst⟩ := h
    rw [tearDown, hc]
    have hblank : ∀ q ∈ { p.put 0 .null with bitmap := fun _ => false, count := 0 } :: free,
        Blank (q.put 0 .null) := by
      intro q hq
      rcases mem_cons.mp hq with rfl | hq
      · refine ⟨rfl, ?_, rfl⟩
        funext i
        by_cases hi : i = 0
        · rw [hi, put_ary_self]
        · rw [put_ary_ne hi]
          exact (put_ary_ne hi).trans (hnull i hi)
      · exact hfree q hq
    obtain ⟨hok, hlen⟩ := ih hst hblank
    rw [length_cons] at hlen
    exact ⟨hok, by omega⟩

/-- What the loop that adds layers comes to. -/
def GrowOk (used : Bool → Entry α → Bool) (id l added : Nat) (p : Node α) (free : List (Node α)) :
    List (Node α) × Option (Node α × Nat) → Prop
  | (free', none) => p.count ≠ 0 ∧ FreeOk free' ∧ free'.length = free.length + added
  | (free', some (p', layers)) => ∃ l', layers = l' + 1 ∧ l' ≤ 5 ∧ id < 2 ^ ((l' + 1) * IDR_BITS) ∧
      LayerOk used l' p' ∧ mapOf (l' + 1) (.node p') = mapOf (l + 1) (.node p) ∧ FreeOk free' ∧
      size l' (.node p') + free'.length = size l (.node p) + free.length

theorem growLoop_spec {added : Nat} (hl : l ≤ 5) (hp : LayerOk used l p) (hst : Stacked added p)
    (hfree : FreeOk free) (hid : id < 2 ^ 30) (hfuel : 6 < fuel + l + 1) :
    Ends (growLoop id fuel free p (l + 1) added) (GrowOk used id l added p free) := by
  induction fuel generalizing free p l added with
  | zero => omega
  | succ fuel ih =>
    rw [growLoop]
    by_cases hgrow : (decide (l + 1 < MAX_LEVEL - 1) && intGe id (2 ^ ((l + 1) * IDR_BITS))) = true
    · rw [if_pos hgrow]
      rw [and_eq_true, decide_eq_true_eq, MAX_LEVEL] at hgrow
      by_cases hcount : p.count = 0
      · rw [if_pos hcount]
        rw [hp.layer_eq]
        have hst' : Stacked added { p with layer := l + 1 } := by
          cases added with
          | zero => trivial
          | succ added => exact hst
        refine .mono (ih (by omega) (layerOk_moved hp hcount) hst' hfree (by omega)) ?_
        intro ⟨free', r⟩ hr
        cases r with
        | none => exact absurd hcount hr.1
        | some r =>
          obtain ⟨l', hlayers, hl', hlt, hok, hmap, hfree', hsize⟩ := hr
          have hmap' := mapOf_blank hp hcount
          have hsize' := size_blank hp hcount
          have hself : ({ p with layer := p.layer } : Node α) = p := rfl
          refine ⟨l', hlayers, hl', hlt, hok, ?_, hfree', ?_⟩
          · rw [hmap, hmap', ← hself, hmap']
          · rw [hsize, hsize', ← hself, hsize']
      · rw [if_neg hcount]
        cases free with
        | nil =>
          have htear := tearDown_spec hst hfree
          exact .ret ⟨hcount, htear.1, htear.2⟩
        | cons new free =>
          have hnew := hfree new mem_cons_self
          have hst' : Stacked (added + 1) ((new.put 0 .null).over p (l + 1)) :=
            ⟨p, over_ary_zero, fun i hi => by rw [over_ary_ne hi, hnew.ary], hst⟩
          refine .mono (ih (by omega) (layerOk_over hp hnew) hst' hfree.tail (by omega)) ?_
          intro ⟨free', r⟩ hr
          cases r with
          | none =>
            obtain ⟨-, hfree', hlen⟩ := hr
            refine ⟨hcount, hfree', ?_⟩
            rw [length_cons]
            omega
          | some r =>
            obtain ⟨l', hlayers, hl', hlt, hok, hmap, hfree', hsize⟩ := hr
            refine ⟨l', hlayers, hl', hlt, hok, hmap.trans (mapOf_over hnew), hfree', ?_⟩
            rw [size_over hnew] at hsize
            rw [length_cons]
            omega
    · rw [if_neg hgrow]
      have hlt : id < 2 ^ ((l + 1) * IDR_BITS) := by
        by_contra hge
        have hint := intGe_of_le (by omega) (not_lt.mp hge)
        rw [hint, Bool.and_true, decide_eq_true_eq, MAX_LEVEL] at hgrow
        obtain rfl : l = 5 := by omega
        exact hge hid
      exact .ret ⟨l, rfl, hl, hlt, hp, rfl, hfree, rfl⟩

/-! ### The slot -/

/-- **An idr in order**: it stands for `F` and has `total` layers with those on its free list. -/
structure IdrRep (used : Bool → Entry α → Bool) (F : Nat → Bool × Entry α) (total : Nat)
    (s : Idr α) : Prop where
  tree : (s.top = .null ∧ s.layers = 0) ∨
    ∃ p l, s.top = .node p ∧ s.layers = l + 1 ∧ l ≤ 5 ∧ LayerOk used l p
  freeOk : FreeOk s.idFree
  same : mapOf s.layers s.top = F
  size : size (s.layers - 1) s.top + s.idFree.length = total

/-- A free slot that was found, with the layers down to it. -/
structure Found (used : Bool → Entry α → Bool) (s : Idr α) (id L : Nat) (leaf : Node α)
    (pa : Path α) : Prop where
  top_eq : s.top = .node (plug leaf pa)
  layers_eq : s.layers = L + 1
  le : L ≤ 5
  leaf_ok : LayerOk used 0 leaf
  path : PathOk used L 0 pa
  linked : Linked leaf.isFull pa
  route : Route id 0 pa
  lt : id < 2 ^ ((L + 1) * IDR_BITS)
  clear : leaf.bitmap (digit IDR_BITS 0 id) = false

def EmptyOk (used : Bool → Entry α → Bool) (F : Nat → Bool × Entry α) (total start : Nat) :
    Empty α → Prop
  | .slot s id leaf pa => IdrRep used F total s ∧ (∃ L, Found used s id L leaf pa) ∧ start ≤ id ∧
      ∀ y, start ≤ y → y < id → (F y).1 = true
  | .error s rc => rc = -1 ∧ IdrRep used F total s

variable {F : Nat → Bool × Entry α} {s : Idr α}

theorem Tree.rep (ht : Tree used f total L top free) (hL : L ≤ 5)
    (hF : mapOf (L + 1) (.node top) = F) :
    IdrRep used F total ⟨.node top, free, L + 1⟩ :=
  ⟨.inr ⟨top, L, rfl, rfl, hL, ht.ok⟩, ht.freeOk, hF, ht.size⟩

section

variable (hrep : IdrRep used F total s) (hused : used false .null = false)

include hrep hused

/-- The first layer. -/
theorem topLayer_spec : Ends (topLayer s) fun first =>
      match first with
      | none => True
      | some (p, layers, free) =>
        ∃ l, layers = l + 1 ∧ s.layers ≤ layers ∧ l ≤ 5 ∧ LayerOk used l p ∧
          mapOf (l + 1) (.node p) = F ∧ FreeOk free ∧ size l (.node p) + free.length = total ∧
          (p.count ≠ 0 → free = s.idFree) := by
  have hfree := hrep.freeOk
  have hsame := hrep.same
  have hsize := hrep.size
  rcases hrep.tree with ⟨htop, hlayers⟩ | ⟨p, l, htop, hlayers, hl, hok⟩
  · rw [topLayer, htop]
    cases hs : s.idFree with
    | nil => exact .ret trivial
    | cons p free =>
      rw [hs] at hfree hsize
      have hblank := hfree p mem_cons_self
      have hnew : LayerOk used 0 { p.put 0 .null with layer := 0 } :=
        Blank.layerOk ⟨hblank.bitmap, hblank.ary, hblank.count⟩ hused rfl
      refine .ret ⟨0, rfl, by omega, by omega, hnew, ?_, hfree.tail, ?_, ?_⟩
      · rw [mapOf_blank hnew hblank.count, ← hsame, htop, hlayers]
        funext y
        rw [mapOf_null]
      · rw [htop, size_null, length_cons] at hsize
        show 1 + free.length = total
        omega
      · exact absurd hblank.count
  · rw [topLayer, htop]
    rw [htop, hlayers] at hsame hsize
    exact .ret ⟨l, hlayers, le_refl _, hl, hok, hsame, hfree, hsize, fun _ => rfl⟩

/-- **`idr_get_empty_slot` finds the least free slot** from an id on, if there is one in the range
of the tree. -/
theorem buildUp_spec (hroom : ∃ y, id ≤ y ∧ y < 2 ^ 30 ∧ (F y).1 = false)
    (hk : k = 0 ∨ 2 ^ (k * IDR_BITS) ≤ id)
    (hfuel : 7 < fuel + k) : Ends (buildUp fuel s id) (EmptyOk used F total id) := by
  -- Each time that the tree has to grow, the id needs a layer more than before.
  induction fuel generalizing s id k with
  | zero =>
    have hle : 2 ^ (k * IDR_BITS) < 2 ^ 30 := by omega
    have := (Nat.pow_lt_pow_iff_right (by decide)).mp hle
    rw [IDR_BITS] at this
    omega
  | succ fuel ih =>
    obtain ⟨y0, hy0, hlt0, hclear0⟩ := hroom
    rw [buildUp]
    refine .bind (topLayer_spec hrep hused) fun first hfirst => ?_
    rcases first with _ | ⟨p, layers, free⟩
    · exact .ret ⟨rfl, hrep⟩
    obtain ⟨l, rfl, hlayers, hl, hok, hmap, hfree, hsize, hback⟩ := hfirst
    refine .bind (growLoop_spec hl hok trivial hfree (by omega) (by rw [MAX_LEVEL]; omega)) ?_
    rintro ⟨free', _ | ⟨p', layers'⟩⟩ hgrown
    · obtain ⟨hcount, hfree', hlen⟩ := hgrown
      rw [hback hcount] at hlen
      exact .ret ⟨rfl, hrep.tree, hfree', hrep.same, by rw [hlen]; exact hrep.size⟩
    obtain ⟨L, rfl, hL, hlt, hok', hmap', hfree'', hsize'⟩ := hgrown
    have hF : mapOf (L + 1) (.node p') = F := hmap'.trans hmap
    have hin : ∀ y, y < 2 ^ ((L + 1) * IDR_BITS) → slotAt L (.node p') y = F y := by
      intro y hy
      rw [← hF, mapOf, if_pos hy, Nat.add_sub_cancel]
    have hw : Walk used (slotAt L (.node p')) id total L free' id L p' [] :=
      ⟨hok', rfl, trivial, trivial, rfl, hfree'', hsize'.trans hsize, hlt, le_refl id,
        fun y h h' => absurd h' (not_lt.mpr h)⟩
    have hfuel' : (2 ^ ((L + 1) * IDR_BITS) - id) * 7 + L < loopBound := by
      have := capacity_le hL
      rw [loopBound]
      omega
    refine .bind (subAllocLoop_spec hL hused hw hfuel') ?_
    rintro ⟨v, free1⟩ hv
    cases v with
    | slot id' leaf pa =>
      obtain ⟨hw', hclear⟩ := hv
      have hlt' := hw'.lt
      refine .ret ⟨hw'.tree.rep hL ((mapOf_congr hw'.same).trans hF),
        ⟨L, rfl, rfl, hL, hw'.ok, hw'.path, hw'.linked, hw'.route, hlt', hclear⟩, hw'.le,
        fun y h h' => ?_⟩
      rw [← hin y (by omega)]
      exact hw'.behind y h h'
    | noMemory top => exact .ret ⟨rfl, hv.rep hL ((mapOf_congr hv.same).trans hF)⟩
    | noMoreSpace top => exact False.elim hv
    | needToGrow id' top =>
      obtain ⟨htree, rfl, hfull⟩ := hv
      have hge : 2 ^ ((L + 1) * IDR_BITS) ≤ y0 := by
        by_contra hlt'
        have := hfull y0 hy0 (not_le.mp hlt')
        rw [hin y0 (not_le.mp hlt'), hclear0] at this
        exact Bool.noConfusion this
      have hk' : k < L + 1 := by
        rcases hk with hk | hk
        · omega
        · have hpow : 2 ^ (k * IDR_BITS) < 2 ^ ((L + 1) * IDR_BITS) := by omega
          have := (Nat.pow_lt_pow_iff_right (by decide)).mp hpow
          exact Nat.lt_of_mul_lt_mul_right this
      refine .mono (ih (htree.rep hL ((mapOf_congr htree.same).trans hF)) ⟨y0, hge, hlt0, hclear0⟩
        (.inr (le_refl _)) (by omega)) fun r hr => ?_
      cases r with
      | error s' rc => exact hr
      | slot s' id' leaf pa =>
        obtain ⟨hrep', hfound, hle, hbehind⟩ := hr
        refine ⟨hrep', hfound, by omega, fun y h h' => ?_⟩
        by_cases hy : y < 2 ^ ((L + 1) * IDR_BITS)
        · rw [← hin y hy]
          exact hfull y h hy
        · exact hbehind y (not_lt.mp hy) h'

theorem idrGetEmptySlot_spec (hroom : ∃ y, start ≤ y ∧ y < 2 ^ 30 ∧ (F y).1 = false) :
    Ends (idrGetEmptySlot s start) (EmptyOk used F total start) :=
  buildUp_spec hrep hused hroom (.inl rfl) (by decide)

end

/-! ### Marking a layer full -/

/-- The path with a slot that has become full. -/
theorem markUp_spec (hp : LayerOk used l p) (hpa : PathOk used L l pa) (hlink : Linked false pa)
    (hroute : Route x l pa) (hn : above IDR_BITS l x = n) :
    LayerOk used L (markUp p pa n) ∧ slotAt L (.node (markUp p pa n)) = slotAt L
      (.node (plug p pa)) ∧ size L (.node (markUp p pa n)) = size L (.node (plug p pa)) := by
  induction pa generalizing l p n with
  | nil =>
    obtain rfl : l = L := hpa
    exact ⟨hp, rfl, rfl⟩
  | cons frame pa ih =>
    obtain ⟨q, m⟩ := frame
    obtain ⟨hq, hpa'⟩ := hpa
    rw [markUp]
    cases hfull : p.isFull with
    | false =>
      rw [if_neg Bool.false_ne_true]
      exact ⟨layerOk_plug hp ⟨hq, hpa'⟩ (hfull ▸ hlink), rfl, rfl⟩
    | true =>
      rw [if_pos rfl]
      have hshift : n >>> IDR_BITS = above IDR_BITS (l + 1) x := by
        rw [← hn, shiftRight_eq_div_pow, above, above, Nat.div_div_eq_div_mul, ← pow_succ_mul]
      have hslot : (n >>> IDR_BITS) &&& IDR_MASK = m := by
        rw [hshift, hroute.1, IDR_MASK, IDR_SIZE, and_two_pow_sub_one_eq_mod]
        rfl
      rw [hslot, hshift]
      have hset : LayerOk used (l + 1) ((q.put m (.node p)).setBit m) := by
        have hhole : HoleOk used l (q.setBit m) m :=
          ⟨hq.lt, hq.layer, hq.count, fun i hi h => by
            rw [show (q.setBit m).bitmap i = q.bitmap i from update_of_ne h ..]
            exact hq.child i hi h⟩
        exact hhole.layerOk hp ((update_self ..).trans hfull.symm)
      have hnot : q.isFull = false := not_isFull hq.lt hlink.1
      have hsame : slotAt (l + 1) (.node ((q.put m (.node p)).setBit m)) =
          slotAt (l + 1) (.node (q.put m (.node p))) := rfl
      obtain ⟨hok, hslots, hsize⟩ := ih hset hpa' (hnot ▸ hlink.2) hroute.2 rfl
      refine ⟨hok, ?_, ?_⟩
      · rw [hslots, plug, slotAt_plug_congr hsame hpa'.length]
      have hplug := size_plug hpa' ((q.put m (.node p)).setBit m) (q.put m (.node p))
      have heq : size (l + 1) (.node ((q.put m (.node p)).setBit m)) =
          size (l + 1) (.node (q.put m (.node p))) := rfl
      rw [hsize, plug]
      omega

end SilanKernel.IdTree
