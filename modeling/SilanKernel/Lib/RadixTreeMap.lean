import SilanKernel.Data.Run
import SilanKernel.Lib.RadixTreeSound

/-!
# SilanKernel.Lib.RadixTreeMap

The radix tree **is a map** from indices to items with tags.

`Root.find` and `Root.tagOf` read the map off a root. Each function of the source has a
specification in terms of them alone: what it returns and which entry it changes. Runs of
calls are then compared with runs on the map.
-/

namespace SilanKernel.Lib

open Function Nat Root

variable (k : Nat)

/-- The item at `x` in a tree. -/
def Root.find (r : Root) (x : Nat) : Ptr :=
  if x < 2 ^ (r.height * k) then get k r.height r.rnode x else .null

/-- Whether the item at `x` carries a tag. -/
def Root.tagOf (r : Root) (t : Tag) (x : Nat) : Bool :=
  if x < 2 ^ (r.height * k) then bitAt k t r.height (r.tags t) r.rnode x else false

/-- The invariant of a tree between two calls. -/
structure RootOk (r : Root) : Prop where
  wf : WF k r.height r.rnode
  tags : ∀ t, TagOk k r.height r.rnode t (r.tags t)
  bounded : ∀ x, r.find k x ≠ .null → x < 2 ^ 32
  /-- The table of `radix_tree_maxindex` reaches as far. -/
  height : r.height ≤ maxPath k

variable {k} {r : Root} {m : Mem} {index item : BitVec 32} {t : Tag} {n : Node Ptr}
  {h x : Nat} {p : Ptr}

/-! ### Heights -/

theorem find_of_lt (hx : x < 2 ^ (r.height * k)) :
    r.find k x = get k r.height r.rnode x := if_pos hx

theorem find_of_le (hx : 2 ^ (r.height * k) ≤ x) : r.find k x = .null :=
  if_neg (not_lt.mpr hx)

/-- `radix_tree_maxindex` bounds the indices of a tree. -/
theorem maxindex_lt_iff (index : BitVec 32) :
    maxindex k h < index.toNat ↔ 2 ^ (h * k) ≤ index.toNat := by
  unfold maxindex
  dsimp only
  by_cases hw : 32 < h * k
  · rw [if_pos hw]
    have : 2 ^ 32 < 2 ^ (h * k) := Nat.pow_lt_pow_right (by decide) hw
    omega
  rw [if_neg hw]
  by_cases h0 : 32 ≤ 32 - h * k
  · have : h * k = 0 := by omega
    rw [if_pos h0, this, pow_zero]
    exact Iff.rfl
  rw [if_neg h0]
  have hpow : 2 ^ 32 = 2 ^ (h * k) * 2 ^ (32 - h * k) := by
    rw [← pow_add]
    congr 1
    omega
  have hpos := Nat.two_pow_pos (32 - h * k)
  have hpos' := Nat.two_pow_pos (h * k)
  have hdiv : (2 ^ 32 - 1) / 2 ^ (32 - h * k) = 2 ^ (h * k) - 1 := by
    refine Nat.div_eq_of_lt_le ?_ ?_
    · rw [hpow, Nat.sub_mul]
      omega
    · rw [Nat.sub_add_cancel hpos', ← hpow]
      omega
  rw [hdiv]
  omega

theorem lt_of_not_maxindex (h' : ¬maxindex k h < index.toNat) : index.toNat < 2 ^ (h * k) :=
  Nat.lt_of_not_le fun hle => h' ((maxindex_lt_iff index).mpr hle)

theorem le_maxPath_mul (hk : 0 < k) : 32 ≤ maxPath k * k := by
  have := div_add_mod (32 + k - 1) k
  have hmod := mod_lt (32 + k - 1) hk
  unfold maxPath
  rw [mul_comm]
  omega

theorem not_maxindex_maxPath (hk : 0 < k) (index : BitVec 32) :
    ¬maxindex k (maxPath k) < index.toNat := by
  rw [maxindex_lt_iff]
  have hle : 2 ^ 32 ≤ 2 ^ (maxPath k * k) := Nat.pow_le_pow_right Nat.two_pos (le_maxPath_mul hk)
  omega

/-- The height found is high enough, and none that was tried before was. -/
theorem extendHeight_spec (hk : 0 < k) (index : BitVec 32) (fuel height : Nat)
    (hle : height ≤ maxPath k) (hfuel : maxPath k ≤ height + fuel) :
    height ≤ extendHeight k index fuel height ∧ extendHeight k index fuel height ≤ maxPath k ∧
      index.toNat < 2 ^ (extendHeight k index fuel height * k) := by
  induction fuel generalizing height with
  | zero =>
    have heq : height = maxPath k := le_antisymm hle hfuel
    refine ⟨le_refl _, hle, ?_⟩
    show index.toNat < 2 ^ (height * k)
    rw [heq]
    exact lt_of_not_maxindex (not_maxindex_maxPath hk index)
  | succ fuel ih =>
    unfold extendHeight
    by_cases hlt : maxindex k height < index.toNat
    · rw [if_pos hlt]
      have hne : height ≠ maxPath k := fun heq => not_maxindex_maxPath hk index (heq ▸ hlt)
      obtain ⟨h1, h2, h3⟩ := ih (height + 1) (by omega) (by omega)
      exact ⟨le_of_succ_le h1, h2, h3⟩
    · rw [if_neg hlt]
      exact ⟨le_refl _, hle, lt_of_not_maxindex hlt⟩

theorem RootOk.tags_of_null (hr : RootOk k r) (hnull : r.rnode = .null) (t : Tag) :
    r.tags t = false := by
  have := hr.tags t
  rw [hnull] at this
  exact TagOk.null.mp this

/-! ### Adding and removing a level -/

theorem find_null (hnull : r.rnode = .null) (x : Nat) : r.find k x = .null := by
  unfold Root.find
  rw [hnull, get_null, ite_self]

theorem tagOf_null (hnull : r.rnode = .null) (htag : r.tags t = false) (x : Nat) :
    r.tagOf k t x = false := by
  have hbit : bitAt k t r.height false .null x = false := by
    cases r.height <;> rfl
  unfold Root.tagOf
  rw [hnull, htag, hbit, ite_self]

/-- A node with only its first slot in use adds a level and nothing else. -/
theorem find_level {tags tags' : Tag → Bool} (hslots : ∀ i, i ≠ 0 → n.slots i = .null) (x : Nat) :
    Root.find k { height := h + 1, rnode := .node n, tags := tags } x =
      Root.find k { height := h, rnode := n.slots 0, tags := tags' } x := by
  refine if_level (fun hd => ?_) fun hd => ?_
  · show get k h (n.slots (digit k h x)) x = _
    rw [hd]
  · show get k h (n.slots (digit k h x)) x = _
    rw [hslots _ hd, get_null]

theorem tagOf_level {tags : Tag → Bool} (hslots : ∀ i, i ≠ 0 → n.slots i = .null)
    (htags : ∀ t i, i ≠ 0 → n.tags t i = false) (t : Tag) (x : Nat) :
    Root.tagOf k { height := h + 1, rnode := .node n, tags := tags } t x =
      Root.tagOf k { height := h, rnode := n.slots 0, tags := fun t => n.tags t 0 } t x := by
  refine if_level (fun hd => ?_) fun hd => ?_
  · show bitAt k t h (n.tags t (digit k h x)) (n.slots (digit k h x)) x = _
    rw [hd]
  · show bitAt k t h (n.tags t (digit k h x)) (n.slots (digit k h x)) x = _
    rw [hslots _ hd, htags t _ hd]
    cases h <;> rfl

/-- Two roots that hold the same map. -/
structure SameMap (k : Nat) (r r' : Root) : Prop where
  find : ∀ x, r'.find k x = r.find k x
  tagOf : ∀ t x, r'.tagOf k t x = r.tagOf k t x

theorem SameMap.refl (r : Root) : SameMap k r r := ⟨fun _ => rfl, fun _ _ => rfl⟩

theorem SameMap.trans (h1 : SameMap k r1 r2) (h2 : SameMap k r2 r3) : SameMap k r1 r3 :=
  ⟨fun x => (h2.find x).trans (h1.find x), fun t x => (h2.tagOf t x).trans (h1.tagOf t x)⟩

/-- A level that `radix_tree_extend` adds: a zeroed node with the old root in its first slot,
and the root's tags for the bits of that slot. -/
def addLevel (r : Root) (node : Node Ptr) : Root :=
  { r with
    rnode := .node (Node.put { node with height := r.height + 1 } 0 r.rnode r.tags 1)
    height := r.height + 1 }

theorem extendLoop_succ {levels : Nat} (hm : MemOk m) : extendLoop (levels + 1) r m =
    match nodeAlloc m with
    | (none, m') => (r, m', false)
    | (some node, m') => extendLoop levels (addLevel r node) m' := by
  conv_lhs => unfold extendLoop
  rcases ha : nodeAlloc m with ⟨_ | node, m1⟩
  · rfl
  have hz := (nodeAlloc_spec hm ha).2 node rfl
  have htags : (fun t i => if i = 0 ∧ r.tags t = true then true else node.tags t i) =
      fun t => update (node.tags t) 0 (r.tags t) := by
    funext t i
    by_cases hi : i = 0
    · rw [hi, update_self, hz.tags]
      cases r.tags t <;> rfl
    · rw [update_of_ne hi, if_neg fun h => hi h.1]
  dsimp only [setSlot]
  rw [htags]
  rfl

theorem addLevel_ok {node : Node Ptr} (hr : RootOk k r) (hz : Zeroed node)
    (hnull : r.rnode.isNull = false) (hle : r.height + 1 ≤ maxPath k) :
    RootOk k (addLevel r node) ∧ SameMap k r (addLevel r node) := by
  have hok : NodeOk k r.height (WF k r.height)
      (Node.put { node with height := r.height + 1 } 0 r.rnode r.tags 1) := by
    refine hz.nodeOk.put (Nat.two_pow_pos k) hr.wf hr.tags ?_
    show 1 + (node.slots 0).weight = node.count + r.rnode.weight
    rw [hz.slots 0, hz.count]
    unfold Ptr.weight
    rw [hnull]
    rfl
  have hsame : SameMap k r (addLevel r node) := by
    have hslots : ∀ i, i ≠ 0 →
        (Node.put { node with height := r.height + 1 } 0 r.rnode r.tags 1).slots i = .null :=
      fun i hi => (put_slots_ne hi).trans (hz.slots i)
    have htags : ∀ t i, i ≠ 0 →
        (Node.put { node with height := r.height + 1 } 0 r.rnode r.tags 1).tags t i = false :=
      fun t i hi => (put_tags_ne hi).trans (hz.tags t i)
    unfold addLevel
    refine ⟨fun x => ?_, fun t x => ?_⟩
    · rw [@find_level k _ _ r.tags r.tags hslots, put_slots_self]
    · rw [tagOf_level hslots htags, put_slots_self]
      simp only [put_tags_self]
  refine ⟨⟨.inr ⟨_, rfl, hok⟩, fun t => ?_, fun x hx => ?_, hle⟩, hsame⟩
  · refine Bool.eq_iff_iff.mpr ⟨fun h => ?_, fun h => ?_⟩
    · exact anyTag_put_of_true (Nat.two_pow_pos k) h
    obtain ⟨i, -, hi⟩ := anyTagSet_iff.mp h
    by_cases h0 : i = 0
    · rwa [h0, put_tags_self] at hi
    · rw [put_tags_ne h0] at hi
      exact absurd (hi.symm.trans (hz.tags t i)) (by decide)
  · rw [hsame.find] at hx
    exact hr.bounded x hx

theorem extendLoop_spec (levels : Nat) (r : Root) (m : Mem) (hr : RootOk k r) (hm : MemOk m)
    (hnull : r.rnode.isNull = false) (hle : r.height + levels ≤ maxPath k) :
    ∃ r' m' ok, extendLoop levels r m = (r', m', ok) ∧ RootOk k r' ∧ MemOk m' ∧ SameMap k r r' ∧
      (ok = true → r'.height = r.height + levels) := by
  induction levels generalizing r m with
  | zero => exact ⟨r, m, true, rfl, hr, hm, .refl r, fun _ => rfl⟩
  | succ levels ih =>
    rw [extendLoop_succ hm]
    rcases ha : nodeAlloc m with ⟨_ | node, m1⟩
    · exact ⟨r, m1, false, rfl, hr, (nodeAlloc_spec hm ha).1, .refl r, by simp⟩
    obtain ⟨hm1, hz⟩ := nodeAlloc_spec hm ha
    obtain ⟨hr1, hsame⟩ := addLevel_ok hr (hz node rfl) hnull (by omega)
    obtain ⟨r', m', ok, hloop, hr', hm', hsame', hheight⟩ :=
      ih (addLevel r node) m1 hr1 hm1 rfl (by dsimp only [addLevel]; omega)
    refine ⟨r', m', ok, hloop, hr', hm', hsame.trans hsame', fun h => ?_⟩
    rw [hheight h]
    dsimp only [addLevel]
    omega

/-- After `radix_tree_extend` the tree is high enough, or memory has run out. -/
theorem radixTreeExtend_spec (hk : 0 < k) (hr : RootOk k r) (hm : MemOk m)
    (hlt : maxindex k r.height < index.toNat) :
    ∃ r' m' ok, radixTreeExtend k r m index = (r', m', ok) ∧ RootOk k r' ∧ MemOk m' ∧
      SameMap k r r' ∧ (ok = true → index.toNat < 2 ^ (r'.height * k)) := by
  have hne : r.height ≠ maxPath k := fun heq => not_maxindex_maxPath hk index (heq ▸ hlt)
  have hheight := hr.height
  obtain ⟨hle, hmax, hfit⟩ := extendHeight_spec hk index (maxPath k) (r.height + 1)
    (by omega) (by omega)
  unfold radixTreeExtend
  dsimp only
  generalize extendHeight k index (maxPath k) (r.height + 1) = height at hle hmax hfit ⊢
  cases hnull : r.rnode.isNull with
  | true =>
    have hrnode := hr.wf.isNull_iff.mp hnull
    have htags := hr.tags_of_null hrnode
    have hfind := @find_null k { r with height := height } hrnode
    refine ⟨_, m, true, rfl, ⟨?_, ?_, ?_, hmax⟩, hm, ⟨?_, ?_⟩, fun _ => hfit⟩
    · dsimp only
      rw [hrnode]
      exact WF.null
    · intro t
      dsimp only
      rw [hrnode, htags t]
      exact TagOk.null.mpr rfl
    · exact fun x hx => absurd (hfind x) hx
    · intro x
      rw [hfind x, find_null hrnode]
    · intro t x
      rw [tagOf_null hrnode (htags t)]
      exact tagOf_null (r := { r with height := height }) hrnode (htags t) x
  | false =>
    obtain ⟨r', m', ok, hloop, hr', hm', hsame, hh⟩ :=
      extendLoop_spec (height - r.height) r m hr hm hnull (by omega)
    refine ⟨r', m', ok, hloop, hr', hm', hsame, fun hok => ?_⟩
    rw [hh hok, Nat.add_sub_cancel' (by omega)]
    exact hfit

/-! ### The functions of the source -/

/-- What an insertion returns and does to the map. -/
inductive InsertResult (k : Nat) (r r' : Root) (index item : BitVec 32) : Int → Prop
  | done : r.find k index.toNat = .null →
      (∀ x, r'.find k x = if x = index.toNat then .item item else r.find k x) →
      InsertResult k r r' index item 0
  | nomem : r.find k index.toNat = .null → (∀ x, r'.find k x = r.find k x) →
      InsertResult k r r' index item (-ENOMEM)
  | exist : r.find k index.toNat ≠ .null → (∀ x, r'.find k x = r.find k x) →
      InsertResult k r r' index item (-EEXIST)

theorem low_eq_iff (hx : x < 2 ^ (h * k)) (hy : y < 2 ^ (h * k)) :
    low k h x = low k h y ↔ x = y := by
  rw [low_of_lt hx, low_of_lt hy]

/-- The map after one entry has changed. -/
theorem if_index {α : Type} {a b c v : α} (hfit : y < 2 ^ (h * k))
    (hnew : low k h x = low k h y → a = v) (hold : low k h x ≠ low k h y → a = b) :
    (if x < 2 ^ (h * k) then a else c) = if x = y then v else if x < 2 ^ (h * k) then b else c := by
  by_cases hx : x < 2 ^ (h * k)
  · rw [if_pos hx, if_pos hx]
    by_cases heq : x = y
    · rw [if_pos heq, hnew ((low_eq_iff hx hfit).mpr heq)]
    · rw [if_neg heq, hold fun h => heq ((low_eq_iff hx hfit).mp h)]
  · rw [if_neg hx, if_neg hx, if_neg (by omega)]

/-- The walk of an insertion, in terms of the map. -/
theorem insertLoop_root (hitem : item ≠ 0) (heven : item.getLsbD 0 = false) (hr : RootOk k r)
    (hm : MemOk m) (hfit : index.toNat < 2 ^ (r.height * k)) :
    ∃ p m' ret, insertLoop k index item r.height r.rnode m = some (p, m', ret) ∧
      RootOk k { r with rnode := p } ∧ MemOk m' ∧
      (∀ t x, Root.tagOf k { r with rnode := p } t x = r.tagOf k t x) ∧
      InsertResult k r { r with rnode := p } index item ret := by
  obtain ⟨p, m', ret, hloop, hm', hkept, hins⟩ :=
    @insertLoop_spec k index item hitem heven r.height r.rnode m hr.wf hm
  have hold : ret ≠ 0 → ∀ x, Root.find k { r with rnode := p } x = r.find k x := by
    intro hret x
    unfold Root.find
    dsimp only
    rw [hins.old x (.inl hret)]
  have hres : InsertResult k r { r with rnode := p } index item ret := by
    rcases hins.ret with ⟨rfl | rfl, hnull⟩ | ⟨rfl, hnonnull⟩
    · refine .done ((find_of_lt hfit).trans hnull) fun x => ?_
      exact if_index hfit (hins.new rfl x) fun h => hins.old x (.inr h)
    · exact .nomem ((find_of_lt hfit).trans hnull) (hold (by decide))
    · exact .exist (by rwa [find_of_lt hfit]) (hold (by decide))
  refine ⟨p, m', ret, hloop, ⟨hkept.wf, fun t => hkept.tagOk t _ (hr.tags t), ?_, hr.height⟩, hm',
    ?_, hres⟩
  · intro x hx
    cases hres with
    | done _ hnew =>
      rw [hnew] at hx
      by_cases heq : x = index.toNat
      · rw [heq]
        exact index.isLt
      · rw [if_neg heq] at hx
        exact hr.bounded x hx
    | nomem _ hsame => exact hr.bounded x (hsame x ▸ hx)
    | exist _ hsame => exact hr.bounded x (hsame x ▸ hx)
  · intro t x
    unfold Root.tagOf
    dsimp only
    rw [hkept.bits]

theorem InsertResult.of_same {ret : Int} (hsame : SameMap k r r1)
    (hres : InsertResult k r1 r' index item ret) : InsertResult k r r' index item ret := by
  cases hres with
  | done hnull hnew =>
    exact .done (hsame.find _ ▸ hnull) fun x => by rw [hnew x, hsame.find x]
  | nomem hnull hold =>
    exact .nomem (hsame.find _ ▸ hnull) fun x => (hold x).trans (hsame.find x)
  | exist hnonnull hold =>
    exact .exist (hsame.find _ ▸ hnonnull) fun x => (hold x).trans (hsame.find x)

/-- The part of `radix_tree_insert` once the tree is high enough. -/
theorem insert_tail (hitem : item ≠ 0) (heven : item.getLsbD 0 = false) (hr : RootOk k r)
    (hm : MemOk m) (hfit : index.toNat < 2 ^ (r.height * k)) :
    ∃ r' m' ret, (match insertLoop k index item r.height r.rnode m with
        | none => none
        | some (rnode, m, ret) =>
          if r.height = 0 ∧ ret = 0 ∧ (r.tags 0 = true ∨ r.tags 1 = true) then none
          else some ({ r with rnode := rnode }, m, ret)) = some (r', m', ret) ∧
      RootOk k r' ∧ MemOk m' ∧ (∀ t x, r'.tagOf k t x = r.tagOf k t x) ∧
      InsertResult k r r' index item ret := by
  obtain ⟨p, m', ret, hloop, hr', hm', htags, hres⟩ := insertLoop_root hitem heven hr hm hfit
  -- The tags of a tree without items are clear.
  have hbug : ¬(r.height = 0 ∧ ret = 0 ∧ (r.tags 0 = true ∨ r.tags 1 = true)) := by
    rintro ⟨hheight, rfl, htag⟩
    have hnull : r.rnode = .null := by
      have hfind : r.find k index.toNat = .null := by
        generalize hret : (0 : Int) = ret at hres
        cases hres with
        | done hnull _ => exact hnull
        | nomem hnull _ => exact hnull
        | exist _ _ => exact absurd hret (by decide)
      rw [find_of_lt hfit, hheight] at hfind
      exact hfind
    rw [hr.tags_of_null hnull, hr.tags_of_null hnull] at htag
    exact absurd htag (by decide)
  rw [hloop]
  exact ⟨_, m', ret, if_neg hbug, hr', hm', htags, hres⟩

theorem radixTreeInsert_spec (hk : 0 < k) (hitem : item ≠ 0) (heven : item.getLsbD 0 = false)
    (hr : RootOk k r) (hm : MemOk m) :
    ∃ r' m' ret, radixTreeInsert k r m index item = some (r', m', ret) ∧ RootOk k r' ∧ MemOk m' ∧
      (∀ t x, r'.tagOf k t x = r.tagOf k t x) ∧ InsertResult k r r' index item ret := by
  unfold radixTreeInsert
  rw [if_neg (show ¬(Ptr.item item).isIndirect = true by rw [Ptr.isIndirect, heven]; decide)]
  dsimp only
  by_cases hlt : maxindex k r.height < index.toNat
  · rw [if_pos hlt]
    obtain ⟨r1, m1, ok, hext, hr1, hm1, hsame, hfit⟩ := radixTreeExtend_spec hk hr hm hlt
    rw [hext]
    cases ok with
    | false =>
      refine ⟨r1, m1, -ENOMEM, rfl, hr1, hm1, hsame.tagOf, .nomem (find_of_le ?_) hsame.find⟩
      exact (maxindex_lt_iff index).mp hlt
    | true =>
      obtain ⟨r', m', ret, htail, hr', hm', htags, hres⟩ :=
        insert_tail hitem heven hr1 hm1 (hfit rfl)
      exact ⟨r', m', ret, htail, hr', hm', fun t x => (htags t x).trans (hsame.tagOf t x),
        hres.of_same hsame⟩
  · rw [if_neg hlt]
    exact insert_tail hitem heven hr hm (lt_of_not_maxindex hlt)

theorem lookupLoop_eq (h : Nat) (p : Ptr) (hp : WF k h p) (hnull : p.isNull = false) :
    lookupLoop k index h p = some (get k h p index.toNat) := by
  induction h generalizing p with
  | zero => rfl
  | succ h ih =>
    rcases hp with rfl | ⟨n, rfl, hn⟩
    · exact absurd hnull (by decide)
    unfold lookupLoop
    dsimp only
    cases hc : (n.slots (offset k h index)).isNull with
    | true =>
      have hc' := (hn.slots _).isNull_iff.mp hc
      show some Ptr.null = some (get k h (n.slots (offset k h index)) index.toNat)
      rw [hc', get_null]
    | false => exact ih _ (hn.slots _) hc

/-- What the code compares with `radix_tree_maxindex`. -/
theorem if_maxindex {α : Type} (index : BitVec 32) (a b : α) :
    (if index.toNat < 2 ^ (h * k) then a else b) = if maxindex k h < index.toNat then b else a := by
  by_cases hlt : maxindex k h < index.toNat
  · rw [if_pos hlt, if_neg (not_lt.mpr ((maxindex_lt_iff index).mp hlt))]
  · rw [if_neg hlt, if_pos (lt_of_not_maxindex hlt)]

theorem find_index (index : BitVec 32) : r.find k index.toNat =
    if maxindex k r.height < index.toNat then .null else get k r.height r.rnode index.toNat :=
  if_maxindex index _ _

/-- The height of a tree with a node at its root. -/
theorem RootOk.of_node (hr : RootOk k r) (hn : r.rnode = .node n) :
    ∃ h, r.height = h + 1 ∧ NodeOk k h (WF k h) n := by
  have hwf := hr.wf
  rw [hn] at hwf
  cases hheight : r.height with
  | zero =>
    rw [hheight] at hwf
    obtain ⟨⟨⟩⟩ | ⟨v, ⟨⟩, -⟩ := hwf
  | succ h =>
    rw [hheight] at hwf
    obtain ⟨⟨⟩⟩ | ⟨n, ⟨⟩, hok⟩ := hwf
    exact ⟨h, rfl, hok⟩

/-- An item at the root is the tree of height 0. -/
theorem RootOk.of_item (hr : RootOk k r) (hv : r.rnode = .item v) :
    r.height = 0 ∧ v.getLsbD 0 = false := by
  have hwf := hr.wf
  rw [hv] at hwf
  cases hheight : r.height with
  | zero =>
    rw [hheight] at hwf
    obtain ⟨⟨⟩⟩ | ⟨v, ⟨⟩, -, heven⟩ := hwf
    exact ⟨rfl, heven⟩
  | succ h =>
    rw [hheight] at hwf
    obtain ⟨⟨⟩⟩ | ⟨n, ⟨⟩, -⟩ := hwf

theorem radixTreeLookup_spec (hr : RootOk k r) :
    radixTreeLookup k r index = some (r.find k index.toNat) := by
  rw [find_index]
  unfold radixTreeLookup
  cases hrnode : r.rnode with
  | null =>
    rw [get_null, ite_self]
  | item v =>
    obtain ⟨hheight, heven⟩ := hr.of_item hrnode
    have hmax : maxindex k 0 = 0 := by simp [maxindex]
    dsimp only
    rw [hheight, hmax, if_neg (by rw [Ptr.isIndirect, heven]; decide)]
    split
    · rfl
    · rfl
  | node n =>
    obtain ⟨h, hheight, hok⟩ := hr.of_node hrnode
    dsimp only
    rw [hok.height, hheight, if_neg (succ_ne_zero h)]
    split
    · rfl
    · exact lookupLoop_eq (h + 1) _ (.inr ⟨n, rfl, hok⟩) rfl

theorem Retag.root {tag : Tag} {v bit' : Bool} (hr : RootOk k r)
    (hfit : index.toNat < 2 ^ (r.height * k))
    (hp : Retag k r.height index tag v (r.tags tag) bit' r.rnode p) :
    RootOk k { r with rnode := p, tags := update r.tags tag bit' } ∧
      (∀ x, Root.find k { r with rnode := p, tags := update r.tags tag bit' } x =
        r.find k x) ∧
      ∀ t x, Root.tagOf k { r with rnode := p, tags := update r.tags tag bit' } t x =
        if t = tag ∧ x = index.toNat then v else r.tagOf k t x := by
  have hfind : ∀ x, Root.find k { r with rnode := p, tags := update r.tags tag bit' } x =
      r.find k x := by
    intro x
    unfold Root.find
    dsimp only
    rw [hp.get]
  refine ⟨⟨hp.wf, fun t => ?_, fun x hx => hr.bounded x (hfind x ▸ hx), hr.height⟩, hfind, ?_⟩
  · dsimp only
    by_cases ht : t = tag
    · rw [ht, update_self]
      exact hp.tagOk
    · rw [update_of_ne ht]
      exact (hp.others t ht).1 _ (hr.tags t)
  · intro t x
    unfold Root.tagOf
    dsimp only
    by_cases ht : t = tag
    · rw [ht, update_self, if_index hfit (fun h => (hp.bits x).trans (if_pos h)) fun h =>
        (hp.bits x).trans (if_neg h)]
      simp only [true_and]
    · rw [update_of_ne ht, (hp.others t ht).2, if_neg (c := t = tag ∧ _) fun h => ht h.1]

theorem lt_of_find (hfind : r.find k x ≠ .null) : x < 2 ^ (r.height * k) := by
  by_contra hx
  exact hfind (find_of_le (Nat.le_of_not_lt hx))

theorem isNull_find (hr : RootOk k r) (x : Nat) : (r.find k x).isNull = true ↔
    r.find k x = .null := by
  unfold Root.find
  split
  · exact (get_wf _ _ x hr.wf).isNull_iff
  · simp [Ptr.isNull]

theorem radixTreeTagSet_spec (tag : Tag) (hr : RootOk k r) (hfind : r.find k index.toNat ≠ .null) :
    ∃ r', radixTreeTagSet k r index tag = some (r', r.find k index.toNat) ∧ RootOk k r' ∧
      (∀ x, r'.find k x = r.find k x) ∧
      ∀ t x, r'.tagOf k t x = if t = tag ∧ x = index.toNat then true else r.tagOf k t x := by
  have hfit := lt_of_find hfind
  have hnull : (r.find k index.toNat).isNull = false := by
    rw [← Bool.not_eq_true, isNull_find hr]
    exact hfind
  rw [find_of_lt hfit] at hnull ⊢
  obtain ⟨p, hloop, hp⟩ := tagSetLoop_spec tag r.height r.rnode (r.tags tag) hr.wf hnull
  obtain ⟨hr', hfind', htags⟩ := hp.root hr hfit
  refine ⟨_, ?_, hr', hfind', htags⟩
  unfold radixTreeTagSet
  rw [if_neg fun h => not_lt.mpr ((maxindex_lt_iff index).mp h) hfit, hloop]
  dsimp only
  rw [hnull]
  rfl

theorem radixTreeTagClear_spec (tag : Tag) (hr : RootOk k r) :
    ∃ r', radixTreeTagClear k r index tag = some (r', r.find k index.toNat) ∧ RootOk k r' ∧
      r'.height = r.height ∧ (∀ x, r'.find k x = r.find k x) ∧
      ∀ t x, r'.tagOf k t x = if t = tag ∧ x = index.toNat then false else r.tagOf k t x := by
  unfold radixTreeTagClear
  by_cases hlt : maxindex k r.height < index.toNat
  · rw [if_pos hlt]
    have hle := (maxindex_lt_iff index).mp hlt
    refine ⟨r, by rw [find_of_le hle], hr, rfl, fun _ => rfl, fun t x => ?_⟩
    split
    · rename_i h
      rw [h.2, Root.tagOf, if_neg (not_lt.mpr hle)]
    · rfl
  · rw [if_neg hlt]
    have hfit := lt_of_not_maxindex hlt
    obtain ⟨p, go, hloop, hp⟩ := tagClearLoop_spec tag r.height r.rnode (r.tags tag) hr.wf
      (hr.tags tag)
    obtain ⟨hr', hfind', htags⟩ := hp.root hr hfit
    refine ⟨_, ?_, hr', rfl, hfind', htags⟩
    rw [hloop, find_of_lt hfit]
    cases go with
    | true => rfl
    | false =>
      dsimp only
      rw [if_neg Bool.false_ne_true, if_neg Bool.false_ne_true, update_eq_self]

/-- A tag bit is set for a pointer exactly when an item below it carries the tag. -/
theorem bit_iff_exists {bit : Bool} (hp : WF k h p) (hbit : TagOk k h p t bit) :
    bit = true ↔ ∃ x, bitAt k t h bit p x = true := by
  induction h generalizing p bit with
  | zero => exact ⟨fun h => ⟨0, h⟩, fun ⟨_, h⟩ => h⟩
  | succ h ih =>
    rcases hp with rfl | ⟨n, rfl, hn⟩
    · rw [TagOk.null.mp hbit]
      exact ⟨fun h => absurd h Bool.false_ne_true, fun ⟨_, h⟩ => absurd h Bool.false_ne_true⟩
    rw [show bit = anyTagSet k n t from hbit, anyTagSet_iff]
    constructor
    · rintro ⟨i, hi, htag⟩
      obtain ⟨x, hx⟩ := (ih (hn.slots i) (hn.tags t i)).mp htag
      obtain ⟨y, hy, hlow⟩ := exists_above_low k h i x
      have hd : digit k h y = i := by
        show above k h y % 2 ^ k = i
        rw [hy, mod_eq_of_lt hi]
      refine ⟨y, ?_⟩
      show bitAt k t h (n.tags t (digit k h y)) (n.slots (digit k h y)) y = true
      rw [hd, bitAt_congr hlow, hx]
    · rintro ⟨x, hx⟩
      refine ⟨digit k h x, digit_lt k h x, ?_⟩
      exact (ih (hn.slots _) (hn.tags t _)).mpr ⟨x, hx⟩

/-- The root's bit of a tag is set exactly when some item in the tree carries the tag. -/
theorem RootOk.tags_iff (hr : RootOk k r) (t : Tag) :
    r.tags t = true ↔ ∃ x, r.tagOf k t x = true := by
  rw [bit_iff_exists hr.wf (hr.tags t)]
  constructor
  · rintro ⟨x, hx⟩
    refine ⟨low k r.height x, ?_⟩
    have hlt := low_lt k r.height x
    unfold Root.tagOf
    rw [if_pos hlt, bitAt_congr (low_of_lt hlt), hx]
  · rintro ⟨x, hx⟩
    unfold Root.tagOf at hx
    split at hx
    · exact ⟨x, hx⟩
    · exact absurd hx Bool.false_ne_true

theorem tagGetLoop_eq {bit : Bool} (h : Nat) (p : Ptr) (hp : WF k (h + 1) p) :
    tagGetLoop k index t (h + 1) p = some (bitAt k t (h + 1) bit p index.toNat) := by
  induction h generalizing p bit with
  | zero =>
    rcases hp with rfl | ⟨n, rfl, -⟩
    · rfl
    · rfl
  | succ h ih =>
    rcases hp with rfl | ⟨n, rfl, hn⟩
    · rfl
    · exact ih _ (hn.slots _)

theorem radixTreeTagGet_spec (tag : Tag) (hr : RootOk k r) :
    radixTreeTagGet k r index tag = some (r.tagOf k tag index.toNat) := by
  have htagOf : r.tagOf k tag index.toNat = if maxindex k r.height < index.toNat then false
      else bitAt k tag r.height (r.tags tag) r.rnode index.toNat := if_maxindex index _ _
  unfold radixTreeTagGet
  cases htag : r.tags tag with
  | false =>
    have hfalse : r.tagOf k tag index.toNat = false := by
      refine Bool.eq_false_iff.mpr fun h => ?_
      have := (hr.tags_iff tag).mpr ⟨_, h⟩
      rw [htag] at this
      exact absurd this Bool.false_ne_true
    rw [hfalse]
    rfl
  | true =>
    rw [htagOf]
    rw [if_neg (by decide)]
    cases hrnode : r.rnode with
    | null => exact absurd (htag.symm.trans (hr.tags_of_null hrnode tag)) (by decide)
    | item v =>
      obtain ⟨hheight, heven⟩ := hr.of_item hrnode
      have hmax : maxindex k 0 = 0 := by simp [maxindex]
      dsimp only
      rw [hheight, hmax, if_neg (by rw [Ptr.isIndirect, heven]; decide)]
      by_cases h0 : 0 < index.toNat
      · rw [if_pos h0]
        simp [Nat.ne_of_gt h0]
      · rw [if_neg h0]
        simp [Nat.eq_zero_of_not_pos h0, bitAt, htag]
    | node n =>
      obtain ⟨h, hheight, hok⟩ := hr.of_node hrnode
      dsimp only
      rw [hok.height, hheight]
      split
      · rfl
      · exact tagGetLoop_eq h _ (.inr ⟨n, rfl, hok⟩)

theorem clearTags_spec (ts : List Tag) (r : Root) (hr : RootOk k r) (hpos : 0 < r.height)
    (hfit : index.toNat < 2 ^ (r.height * k)) :
    ∃ r', clearTags k index ts r = some r' ∧ RootOk k r' ∧ r'.height = r.height ∧
      (∀ x, r'.find k x = r.find k x) ∧
      ∀ t x, r'.tagOf k t x = if t ∈ ts ∧ x = index.toNat then false else r.tagOf k t x := by
  induction ts generalizing r with
  | nil => exact ⟨r, rfl, hr, rfl, fun _ => rfl, fun t x => by simp⟩
  | cons tag ts ih =>
    obtain ⟨h, hh⟩ : ∃ h, r.height = h + 1 := ⟨r.height - 1, by omega⟩
    have hleaf : leafTag k index tag r.height r.rnode = r.tagOf k tag index.toNat := by
      have hwf := hr.wf
      rw [hh] at hwf
      rw [Root.tagOf, if_pos hfit, hh]
      exact leafTag_eq h _ _ hwf
    unfold clearTags
    rw [hleaf]
    cases htag : r.tagOf k tag index.toNat with
    | true =>
      obtain ⟨r1, hclear, hr1, hheight, hfind, htags⟩ :=
        @radixTreeTagClear_spec k r index tag hr
      obtain ⟨r', hrest, hr', hheight', hfind', htags'⟩ :=
        ih r1 hr1 (hheight ▸ hpos) (hheight ▸ hfit)
      refine ⟨r', ?_, hr', hheight'.trans hheight, fun x => (hfind' x).trans (hfind x), ?_⟩
      · rw [if_pos rfl, hclear]
        exact hrest
      · intro t x
        rw [htags', htags]
        grind
    | false =>
      obtain ⟨r', hrest, hr', hheight', hfind', htags'⟩ := ih r hr hpos hfit
      refine ⟨r', ?_, hr', hheight', hfind', ?_⟩
      · rw [if_neg Bool.false_ne_true]
        exact hrest
      · intro t x
        rw [htags']
        grind

/-- `radix_tree_shrink` takes away levels that hold only their first slot. -/
theorem shrinkLoop_spec (h : Nat) (r : Root) (m : Mem) (hheight : r.height = h) (hr : RootOk k r)
    (hm : MemOk m) (hnull : r.rnode.isNull = false) :
    ∃ r' m', shrinkLoop h r m = some (r', m') ∧ RootOk k r' ∧ MemOk m' ∧ SameMap k r r' := by
  induction h generalizing r m with
  | zero => exact ⟨r, m, rfl, hr, hm, .refl r⟩
  | succ h ih =>
    obtain ⟨height, rnode, tags⟩ := r
    obtain rfl : height = h + 1 := hheight
    rcases hr.wf with hwf | ⟨n, hwf, hn⟩
    · obtain rfl : rnode = .null := hwf
      exact absurd (show true = false from hnull) (by decide)
    obtain rfl : rnode = .node n := hwf
    unfold shrinkLoop
    dsimp only
    by_cases hcount : n.count ≠ 1
    · rw [if_pos hcount]
      exact ⟨_, m, rfl, hr, hm, .refl _⟩
    rw [if_neg hcount]
    cases h0 : (n.slots 0).isNull with
    | true => exact ⟨_, m, rfl, hr, hm, .refl _⟩
    | false =>
      rw [if_neg Bool.false_ne_true]
      have hslots : ∀ i, i ≠ 0 → n.slots i = .null :=
        fun i hi => hn.slots_null_of_one (not_not.mp hcount) h0 hi
      have htags : ∀ t i, i ≠ 0 → n.tags t i = false :=
        fun t i hi => hn.tags_false (hslots i hi) t
      -- The bits of the first slot are what the root's tags were.
      have htag0 : ∀ t, tags t = n.tags t 0 := by
        intro t
        refine Bool.eq_iff_iff.mpr ?_
        rw [show tags t = anyTagSet k n t from hr.tags t, anyTagSet_iff]
        constructor
        · rintro ⟨i, -, hi⟩
          by_cases hi0 : i = 0
          · rwa [hi0] at hi
          · rw [htags t i hi0] at hi
            exact absurd hi Bool.false_ne_true
        · exact fun hi => ⟨0, Nat.two_pow_pos k, hi⟩
      have hsame : SameMap k { height := h + 1, rnode := .node n, tags := tags }
          { height := h, rnode := n.slots 0, tags := tags } := by
        refine ⟨fun x => (find_level hslots x).symm, fun t x => ?_⟩
        rw [tagOf_level hslots htags]
        simp only [← htag0]
      have hr1 : RootOk k { height := h, rnode := n.slots 0, tags := tags } := by
        refine ⟨hn.slots 0, fun t => ?_, fun x hx => ?_, le_of_succ_le hr.height⟩
        · show TagOk k h (n.slots 0) t (tags t)
          rw [htag0]
          exact hn.tags t 0
        · rw [hsame.find] at hx
          exact hr.bounded x hx
      have hm1 : MemOk (nodeFree m (if h = 0 then setSlot n 0 (n.slots 0).setIndirect else n)) := by
        split
        · exact hm.free (fun i hi => (update_of_ne hi ..).trans (hslots i hi)) htags
        · exact hm.free hslots htags
      obtain ⟨r', m', hloop, hr', hm', hsame'⟩ := ih _ _ rfl hr1 hm1 h0
      exact ⟨r', m', hloop, hr', hm', hsame.trans hsame'⟩

theorem find_init (x : Nat) : init.find k x = .null := find_null rfl x

theorem tagOf_init (t : Tag) (x : Nat) : init.tagOf k t x = false := tagOf_null rfl rfl x

theorem RootOk.init : RootOk k init :=
  ⟨WF.null, fun _ => TagOk.null.mpr rfl, fun x hx => absurd (find_init x) hx, zero_le _⟩

/-- What a deletion does to the map: the entry goes, with its tags. -/
structure Deleted (k : Nat) (r r' : Root) (index : BitVec 32) : Prop where
  find : ∀ x, r'.find k x = if x = index.toNat then .null else r.find k x
  tagOf : ∀ t x, r'.tagOf k t x = if x = index.toNat then false else r.tagOf k t x

/-- Only items in the tree are tagged. -/
theorem RootOk.find_of_tagOf (hr : RootOk k r) (h : r.tagOf k t x = true) : r.find k x ≠ .null := by
  unfold Root.tagOf at h
  unfold Root.find
  split at h
  · rename_i hx
    rw [if_pos hx]
    have := get_of_bitAt hr.wf (hr.tags t) h
    intro hnull
    rw [hnull] at this
    exact absurd this (by decide)
  · exact absurd h Bool.false_ne_true

theorem Deleted.of_null (hr : RootOk k r) (h : r.find k index.toNat = .null) :
    Deleted k r r index := by
  refine ⟨fun x => ?_, fun t x => ?_⟩
  · split
    · rename_i hx
      rw [hx, h]
    · rfl
  · split
    · rename_i hx
      rw [hx]
      exact Bool.eq_false_iff.mpr fun htag => hr.find_of_tagOf htag h
    · rfl

theorem Removed.root (hr : RootOk k r) (hb : r.tags = b) (hfit : index.toNat < 2 ^ (r.height * k))
    (hp : Removed k r.height index b r.rnode p) :
    RootOk k { r with rnode := p } ∧ (∀ x, Root.find k { r with rnode := p } x =
        if x = index.toNat then .null else r.find k x) ∧
      ∀ t x, Root.tagOf k { r with rnode := p } t x = r.tagOf k t x := by
  subst hb
  have hfind : ∀ x, Root.find k { r with rnode := p } x =
      if x = index.toNat then .null else r.find k x :=
    fun x => if_index hfit (hp.gone x) (hp.old x)
  refine ⟨⟨hp.wf, hp.tagOk, fun x hx => ?_, hr.height⟩, hfind, fun t x => ?_⟩
  · rw [hfind] at hx
    split at hx
    · exact absurd rfl hx
    · exact hr.bounded x hx
  · unfold Root.tagOf
    dsimp only
    rw [hp.bits]

theorem radixTreeDelete_spec (hr : RootOk k r) (hm : MemOk m) :
    ∃ r' m', radixTreeDelete k r m index = some (r', m', r.find k index.toNat) ∧ RootOk k r' ∧
      MemOk m' ∧ Deleted k r r' index := by
  unfold radixTreeDelete
  by_cases hlt : maxindex k r.height < index.toNat
  · have hnull : r.find k index.toNat = .null := find_of_le ((maxindex_lt_iff index).mp hlt)
    rw [if_pos hlt, hnull]
    exact ⟨r, m, rfl, hr, hm, .of_null hr hnull⟩
  rw [if_neg hlt]
  have hfit := lt_of_not_maxindex hlt
  by_cases h0 : r.height = 0
  · -- The only index of a tree of height 0 is 0.
    rw [if_pos h0, find_of_lt hfit]
    obtain ⟨height, rnode, tags⟩ := r
    obtain rfl : height = 0 := h0
    have hone : ∀ x, x ≠ index.toNat → 2 ^ (0 * k) ≤ x := by
      dsimp only at hfit
      rw [Nat.zero_mul, Nat.pow_zero] at hfit ⊢
      omega
    refine ⟨init, m, rfl, RootOk.init, hm, fun x => ?_, fun t x => ?_⟩
    · rw [find_init]
      split
      · rfl
      · rename_i hx
        exact (find_of_le (hone x hx)).symm
    · rw [tagOf_init]
      split
      · rfl
      · rename_i hx
        exact (if_neg (Nat.not_lt.mpr (hone x hx))).symm
  rw [if_neg h0, descend_eq _ _ hr.wf, find_of_lt hfit]
  dsimp only
  cases hnull : (get k r.height r.rnode index.toNat).isNull with
  | true =>
    have hnull' := (get_wf _ _ index.toNat hr.wf).isNull_iff.mp hnull
    exact ⟨r, m, rfl, hr, hm, .of_null hr ((find_of_lt hfit).trans hnull')⟩
  | false =>
    obtain ⟨r1, hclear, hr1, hheight, hfind, htags⟩ :=
      clearTags_spec [0, 1, 2] r hr (Nat.pos_of_ne_zero h0) hfit
    have hfit1 : index.toNat < 2 ^ (r1.height * k) := hheight ▸ hfit
    have htags1 : ∀ t x, r1.tagOf k t x = if x = index.toNat then false else r.tagOf k t x := by
      intro t x
      have hmem : t ∈ ([0, 1, 2] : List Tag) := by
        revert t
        decide
      rw [htags]
      simp [hmem]
    have hget : (get k r1.height r1.rnode index.toNat).isNull = false := by
      rw [← find_of_lt hfit1, hfind, find_of_lt hfit, hnull]
    have hbits : ∀ t, bitAt k t r1.height (r1.tags t) r1.rnode index.toNat = false := by
      intro t
      have := htags1 t index.toNat
      rwa [if_pos rfl, Root.tagOf, if_pos hfit1] at this
    obtain ⟨res, m1, hloop, hm1, hres⟩ :=
      removeLoop_spec r1.height r1.rnode r1.tags m hr1.wf hr1.tags hget hbits hm
    rw [if_neg Bool.false_ne_true, hclear]
    dsimp only
    rw [hloop]
    have hafter : ∀ {r2 : Root}, (∀ x, r2.find k x =
        if x = index.toNat then .null else r1.find k x) →
        (∀ t x, r2.tagOf k t x = r1.tagOf k t x) → Deleted k r r2 index := by
      intro r2 hfind2 htags2
      refine ⟨fun x => ?_, fun t x => ?_⟩
      · rw [hfind2, hfind]
      · rw [htags2, htags1]
    cases res with
    | stopped p =>
      obtain ⟨hr2, hfind2, htags2⟩ := Removed.root hr1 rfl hfit1 hres
      exact ⟨_, m1, rfl, hr2, hm1, hafter hfind2 htags2⟩
    | keeps n =>
      obtain ⟨hr2, hfind2, htags2⟩ := Removed.root hr1 rfl hfit1 hres.2
      obtain ⟨r3, m3, hshrink, hr3, hm3, hsame⟩ :=
        shrinkLoop_spec r1.height { r1 with rnode := .node n } m1 rfl hr2 hm1 rfl
      dsimp only
      rw [hshrink]
      refine ⟨r3, m3, rfl, hr3, hm3, hafter (fun x => ?_) fun t x => ?_⟩
      · rw [hsame.find, hfind2]
      · rw [hsame.tagOf, htags2]
    | emptied toFree =>
      refine ⟨init, _, rfl, RootOk.init, hm1.freePending hres.slots hres.tags,
        hafter (fun x => ?_) fun t x => ?_⟩
      · rw [find_init]
        split
        · rfl
        rename_i hne
        unfold Root.find
        split
        · rename_i hx
          rw [hres.old x fun h => hne ((low_eq_iff hx hfit1).mp h)]
        · rfl
      · rw [tagOf_init]
        refine (Bool.eq_false_iff.mpr fun h => ?_).symm
        have := (hr1.tags_iff t).mpr ⟨x, h⟩
        rw [hres.bit t] at this
        exact absurd this Bool.false_ne_true

end SilanKernel.Lib
