import SilanKernel.Data.FirstIn
import SilanKernel.Data.Mask
import SilanKernel.Lib.RadixTreeRun

/-!
# SilanKernel.Lib.RadixTreeGang

`radix_tree_gang_lookup` and `radix_tree_gang_lookup_tag` of `lib/radix-tree.c`: **the first items
from an index on**, or the first that carry a tag.

A call of `__lookup` goes down to one leaf and takes the items it finds there. On the way it skips
empty slots by raising the index, and gives up where a node ends; the index at which it stops is
where the next call starts. A call from `x` on that stops at `y` has found exactly the items
between them (`Found`), so that the loop over the calls only has to add up.
-/

namespace SilanKernel.Lib

open List BitVec Nat

variable (k : Nat)

/-- What `__lookup` returns: the items it has found, and `*next_index`. -/
abbrev Haul := List Ptr × BitVec 32

/-- `indirect_to_ptr` -/
def Ptr.indirectToPtr : Ptr → Ptr
  | .item v => .item (v &&& ~~~1)
  | p => p

def Node.inUse (n : Node Ptr) (i : Nat) : Bool := !(n.slots i).isNull

/-- The search for a slot with `hit` in one node, from slot `i` on; so many slots are left. Without
such a slot, the walk ends at the index returned. -/
def skipLoop (shift : Nat) (hit : Nat → Bool) : Nat → Nat → BitVec 32 → Option Nat × BitVec 32
  | 0, _, index => (none, index)
  | left + 1, i, index =>
    if hit i then (some i, index)
    else
      let index := (index &&& ~~~((1#32 <<< shift) - 1#32)) + (1#32 <<< shift)
      -- 32-bit wraparound
      if index = 0 then (none, index) else skipLoop shift hit left (i + 1) index

/-- The items of a leaf, from slot `j` on. -/
def grabLoop (n : Node Ptr) (hit : Nat → Bool) (maxItems : Nat) : Nat → Nat → BitVec 32 →
    List Ptr → Haul
  | 0, _, index, found => (found, index)
  | left + 1, j, index, found =>
    let index := index + 1
    if hit j then
      let found := found ++ [n.slots j]
      if found.length = maxItems then (found, index) else grabLoop n hit maxItems left
        (j + 1) index found
    else grabLoop n hit maxItems left (j + 1) index found

/-- The way from a node `h + 1` levels high down to a leaf. -/
def walkDown (hit : Node Ptr → Nat → Bool) (leaf : Node Ptr → BitVec 32 → Haul) : Nat → Ptr →
    BitVec 32 → Option Haul
  | _, .null, index => some ([], index)
  | _, .item _, _ => none
  | 0, .node n, index => some (leaf n index)
  | h + 1, .node n, index =>
    let i := offset k (h + 1) index
    match skipLoop ((h + 1) * k) (hit n) (2 ^ k - i) i index with
    | (none, index) => some ([], index)
    | (some i, index) => walkDown hit leaf h (n.slots i) index

/-- `__lookup` -/
def lookup (slot : Node Ptr) (index : BitVec 32) (maxItems : Nat) : Option Haul :=
  let leaf (n : Node Ptr) (index : BitVec 32) : Haul :=
    let i := offset k 0 index
    grabLoop n n.inUse maxItems (2 ^ k - i) i index []
  match slot.height with
  | 0 => some ([], index)
  | h + 1 => walkDown k Node.inUse leaf h (.node slot) index

/-- `__lookup_tag`, which searches a leaf for the tag first, as the nodes above it. -/
def lookupTag (tag : Tag) (slot : Node Ptr) (index : BitVec 32) (maxItems : Nat) : Option Haul :=
  let leaf (n : Node Ptr) (index : BitVec 32) : Haul :=
    let i := offset k 0 index
    match skipLoop 0 (n.tags tag) (2 ^ k - i) i index with
    | (none, index) => ([], index)
    | (some _, index) =>
      let j := offset k 0 index
      grabLoop n (fun j => n.tags tag j && n.inUse j) maxItems (2 ^ k - j) j index []
  match slot.height with
  | 0 => some ([], index)
  | h + 1 => walkDown k (fun n => n.tags tag) leaf h (.node slot) index

/-- The loop of both gang lookups. -/
def gangLoop (lookup : BitVec 32 → Nat → Option Haul) (maxIndex maxItems : Nat) :
    Nat → BitVec 32 → List Ptr → Option (List Ptr)
  | 0, _, _ => none
  | fuel + 1, curIndex, results =>
    if results.length < maxItems then
      if maxIndex < curIndex.toNat then some results
      else do
        let (found, nextIndex) ← lookup curIndex (maxItems - results.length)
        let results := results ++ (found.filter fun slot => !slot.isNull).map Ptr.indirectToPtr
        if nextIndex = 0 then some results
        else gangLoop lookup maxIndex maxItems fuel nextIndex results
    else some results

/-- What both gang lookups do with a root. Every turn of the loop raises the index. -/
def gangLookup (lookup : Node Ptr → BitVec 32 → Nat → Option Haul) (root : Root)
    (firstIndex maxItems : BitVec 32) :
    Option (List Ptr) :=
  if root.rnode.isNull then some []
  else
    match root.rnode with
    | .node n => gangLoop (lookup n) (maxindex k n.height) maxItems.toNat (2 ^ 32 + 1) firstIndex []
    | node =>
      if node.isIndirect then none
      else if 0 < firstIndex.toNat then some []
      else some [node]

def radixTreeGangLookup (root : Root) (firstIndex maxItems : BitVec 32) : Option (List Ptr) :=
  gangLookup k (lookup k) root firstIndex maxItems

def radixTreeGangLookupTag (root : Root) (firstIndex maxItems : BitVec 32) (tag : Tag) :
    Option (List Ptr) :=
  if !root.tags tag then some [] else gangLookup k (lookupTag k tag) root firstIndex maxItems

variable {k} {r : Root} {P : Nat → Bool} {h a i j x y m shift left : Nat} {n : Node Ptr} {p : Ptr}
  {bits : Tag → Bool} {index first max : BitVec 32} {tag : Tag} {hit : Nat → Bool}
  {found : List Ptr} {res : Haul} {leaf : Node Ptr → BitVec 32 → Haul}

/-! ### Indices -/

/-- An index that is raised wraps only at the end. -/
theorem ofNat_cases (hpos : 0 < y) (hy : y ≤ 2 ^ 32) :
    BitVec.ofNat 32 y = 0 ∧ y = 2 ^ 32 ∨ BitVec.ofNat 32 y ≠ 0 ∧ (BitVec.ofNat 32 y).toNat = y := by
  by_cases hlt : y < 2 ^ 32
  · have hnat := toNat_ofNat_of_lt hlt
    refine .inr ⟨fun hc => ?_, hnat⟩
    rw [hc] at hnat
    exact absurd hnat (Nat.ne_of_lt hpos)
  · obtain rfl : y = 2 ^ 32 := by omega
    exact .inl ⟨rfl, rfl⟩

theorem next_le (hx : x < 2 ^ 32) (hs : shift ≤ 32) : (x / 2 ^ shift + 1) * 2 ^ shift ≤ 2 ^ 32 := by
  have hpow : 2 ^ 32 = 2 ^ (32 - shift) * 2 ^ shift := by rw [← Nat.pow_add, Nat.sub_add_cancel hs]
  rw [hpow] at hx ⊢
  exact Nat.mul_le_mul_right _ (Nat.div_lt_of_lt_mul (by rwa [Nat.mul_comm]))

/-- The index of the next slot. -/
theorem next_index (hs : shift < 32) : (index &&& ~~~((1#32 <<< shift) - 1#32)) + (1#32 <<< shift) =
    BitVec.ofNat 32 ((index.toNat / 2 ^ shift + 1) * 2 ^ shift) := by
  have hpos := Nat.two_pow_pos shift
  have hlt : 2 ^ shift < 2 ^ 32 := Nat.pow_lt_pow_right (by decide) hs
  have hone : (1#32 <<< shift).toNat = 2 ^ shift := by
    rw [toNat_shiftLeft, Nat.shiftLeft_eq, toNat_one (by decide), Nat.one_mul, mod_eq_of_lt hlt]
  have hmask : ((1#32 <<< shift) - 1#32).toNat = 2 ^ shift - 1 := by
    rw [toNat_sub, hone, toNat_one (by decide)]
    omega
  apply eq_of_toNat_eq
  rw [toNat_add, Mask.toNat_and_not_mask hmask, hone, toNat_ofNat, Nat.add_mul, Nat.one_mul]

/-! ### One call of `__lookup` -/

/-- A call from `x` on has found the items up to the index where it stopped, `m` at most. -/
def Found (k : Nat) (r : Root) (P : Nat → Bool) (m x : Nat) (res : Haul) : Prop :=
  ∃ y, x < y ∧ y ≤ 2 ^ 32 ∧ res.2 = BitVec.ofNat 32 y ∧ res.1 = (hits P x y).map (r.find k) ∧
    res.1.length ≤ m

theorem Found.none (hxy : x < y) (hy : y ≤ 2 ^ 32) (hno : ∀ z, x ≤ z → z < y → P z = false) :
    Found k r P m x ([], BitVec.ofNat 32 y) :=
  ⟨y, hxy, hy, rfl, by rw [hits_eq_nil hno]; rfl, zero_le _⟩

/-- A call may start later if it passes nothing. -/
theorem Found.skip (h : Found k r P m y res) (hxy : x ≤ y)
    (hno : ∀ z, x ≤ z → z < y → P z = false) :
    Found k r P m x res := by
  obtain ⟨z, hyz, hz, hnext, hfound, hlen⟩ := h
  refine ⟨z, lt_of_le_of_lt hxy hyz, hz, hnext, ?_, hlen⟩
  rw [hits_append hxy (le_of_lt hyz), hits_eq_nil hno, nil_append, hfound]

/-- What the search in a node gives: a slot with `hit`, or the end of the node or of the indices. -/
def Skipped (P : Nat → Bool) (hit : Nat → Bool) (k h x : Nat)
    (res : Option Nat × BitVec 32) : Prop :=
  match res.1 with
  | some j => hit j = true ∧ x ≤ res.2.toNat ∧ above k (h + 1) res.2.toNat = above k (h + 1) x ∧
      digit k h res.2.toNat = j ∧ ∀ z, x ≤ z → z < res.2.toNat → P z = false
  | none => ∃ y, x < y ∧ y ≤ 2 ^ 32 ∧ res.2 = BitVec.ofNat 32 y ∧ ∀ z, x ≤ z → z < y → P z = false

theorem skipLoop_spec (hs : h * k < 32)
    (hP : ∀ y, above k (h + 1) y = above k (h + 1) x → hit (digit k h y) = false → P y = false)
    (hleft : i + left = 2 ^ k) (hx : x ≤ index.toNat) (hpos : left = 0 → x < index.toNat)
    (habove : above k h index.toNat = above k (h + 1) x * 2 ^ k + i)
    (hno : ∀ z, x ≤ z → z < index.toNat → P z = false) :
    Skipped P hit k h x (skipLoop (h * k) hit left i index) := by
  have hlt : index.toNat < 2 ^ 32 := index.isLt
  induction left generalizing i index with
  | zero => exact ⟨_, hpos rfl, le_of_lt hlt, (ofNat_toNat 32 index).symm ▸ rfl, hno⟩
  | succ left ih =>
    have hi : i < 2 ^ k := by omega
    unfold skipLoop
    by_cases hhit : hit i = true
    · obtain ⟨habove', hdigit⟩ := above_succ_of_above hi habove
      rw [if_pos hhit]
      exact ⟨hhit, hx, habove', hdigit, hno⟩
    rw [if_neg hhit]
    rw [next_index hs]
    have hle := next_le hlt (le_of_lt hs)
    have hgt : index.toNat < (index.toNat / 2 ^ (h * k) + 1) * 2 ^ (h * k) := by
      rw [mul_comm]
      exact lt_mul_div_succ _ (Nat.two_pow_pos _)
    generalize hv : (index.toNat / 2 ^ (h * k) + 1) * 2 ^ (h * k) = v at hle hgt ⊢
    -- the indices below slot `i`
    have hno' : ∀ z, x ≤ z → z < v → P z = false := by
      intro z hxz hzv
      by_cases hz : z < index.toNat
      · exact hno z hxz hz
      have hsame : above k h z = above k h index.toNat := by
        refine Nat.le_antisymm (le_of_lt_succ ?_) (Nat.div_le_div_right (Nat.le_of_not_lt hz))
        exact Nat.div_lt_of_lt_mul (by rw [Nat.mul_comm]; exact hv ▸ hzv)
      obtain ⟨hz', hd⟩ := above_succ_of_above hi (hsame.trans habove)
      exact hP z hz' (by rw [hd]; simpa using hhit)
    rcases ofNat_cases (by omega) hle with ⟨hwrap, -⟩ | ⟨hwrap, hnat⟩
    · rw [if_pos hwrap]
      exact ⟨v, by omega, hle, rfl, hno'⟩
    rw [if_neg hwrap]
    refine ih (by omega) (by omega) (fun _ => by omega) ?_ (by rwa [hnat]) (by omega)
    rw [hnat, above, ← hv, Nat.mul_div_cancel _ (Nat.two_pow_pos _)]
    show above k h index.toNat + 1 = _
    omega

/-- The search from the slot of the index on. -/
theorem skip_spec (hs : h * k < 32)
    (hP : ∀ y, above k (h + 1) y = above k (h + 1) index.toNat → hit (digit k h y) = false →
      P y = false) :
    Skipped P hit k h index.toNat
      (skipLoop (h * k) hit (2 ^ k - offset k h index) (offset k h index) index) := by
  have hdigit : offset k h index < 2 ^ k := offset_lt k h index
  exact skipLoop_spec hs hP (by omega) (le_refl _) (by omega) (above_eq ..)
    (fun z h1 h2 => by omega)

/-- The items of a leaf, one slot after the other. -/
theorem grabLoop_spec (hP : ∀ i < 2 ^ k, P (a + i) = hit i ∧ r.find k (a + i) = n.slots i)
    (hend : a + 2 ^ k ≤ 2 ^ 32) (hleft : j + left = 2 ^ k) (hx : x ≤ a + j)
    (hpos : left = 0 → x < a + j) (hfound : found = (hits P x (a + j)).map (r.find k))
    (hm : found.length < m) :
    Found k r P m x (grabLoop n hit m left j (BitVec.ofNat 32 (a + j)) found) := by
  induction left generalizing j found with
  | zero => exact ⟨a + j, hpos rfl, by omega, rfl, hfound, le_of_lt hm⟩
  | succ left ih =>
    obtain ⟨hPj, hfj⟩ := hP j (by omega)
    have hnext : BitVec.ofNat 32 (a + j) + 1 = BitVec.ofNat 32 (a + (j + 1)) :=
      (ofNat_add (a + j) 1).symm
    have hsplit := hits_succ (P := P) hx
    rw [hPj] at hsplit
    unfold grabLoop
    rw [hnext]
    by_cases hhit : hit j = true
    · have hfound' : found ++ [n.slots j] = (hits P x (a + (j + 1))).map (r.find k) := by
        rw [← add_assoc, hsplit, if_pos hhit, map_append, hfound, map_singleton, hfj]
      have hlen : (found ++ [n.slots j]).length = found.length + 1 := by simp
      rw [if_pos hhit]
      by_cases hfull : (found ++ [n.slots j]).length = m
      · rw [if_pos hfull]
        exact ⟨a + (j + 1), by omega, by omega, rfl, hfound', le_of_eq hfull⟩
      · rw [if_neg hfull]
        exact ih (by omega) (by omega) (fun _ => by omega) hfound' (by omega)
    · rw [if_neg hhit]
      rw [if_neg hhit, append_nil] at hsplit
      exact ih (by omega) (by omega) (fun _ => by omega) (by rw [← add_assoc, hsplit, hfound]) hm

/-! ### The way down -/

/-- A pointer `h` levels high, with its bits, leads to the items whose index starts with `a`. -/
def At (k : Nat) (r : Root) (h : Nat) (bits : Tag → Bool) (p : Ptr) (a : Nat) : Prop :=
  ∀ y, above k h y = a → r.find k y = get k h p y ∧ ∀ t, r.tagOf k t y = bitAt k t h (bits t) p y

theorem At.slot (hat : At k r (h + 1) bits (.node n) a) (hi : i < 2 ^ k) :
    At k r h (fun t => n.tags t i) (n.slots i) (a * 2 ^ k + i) := by
  intro y hy
  obtain ⟨hy', rfl⟩ := above_succ_of_above hi hy
  exact hat y hy'

/-- `hit` tells the slots of a node below which there are items with `P`. -/
structure Guides (k : Nat) (r : Root) (P : Nat → Bool) (hit : Node Ptr → Nat → Bool) : Prop where
  miss : ∀ {h n i a}, NodeOk k h (WF k h) n → At k r h (fun t => n.tags t i) (n.slots i) a →
    hit n i = false → ∀ y, above k h y = a → P y = false
  slot : ∀ {h n i}, NodeOk k h (WF k h) n → hit n i = true → (n.slots i).isNull = false

theorem Guides.miss_digit {hit : Node Ptr → Nat → Bool} (hg : Guides k r P hit)
    (hn : NodeOk k h (WF k h) n) (hat : At k r (h + 1) bits (.node n) a)
    (hy : above k (h + 1) y = a) (hmiss : hit n (digit k h y) = false) :
    P y = false :=
  hg.miss hn (hat.slot (digit_lt ..)) hmiss y (by rw [above_eq, hy])

theorem walkDown_spec {hit : Node Ptr → Nat → Bool} (hg : Guides k r P hit)
    (hleaf : ∀ n index bits, NodeOk k 0 (WF k 0) n →
      At k r 1 bits (.node n) (above k 1 index.toNat) →
      Found k r P m index.toNat (leaf n index))
    (hn : NodeOk k h (WF k h) n) (hs : h * k < 32)
    (hat : At k r (h + 1) bits (.node n) (above k (h + 1) index.toNat)) :
    Ends (walkDown k hit leaf h (.node n) index) (Found k r P m index.toNat) := by
  induction h generalizing n index bits with
  | zero => exact .ret (hleaf n index bits hn hat)
  | succ h ih =>
    have hskip : Skipped P (hit n) k (h + 1) index.toNat _ := skip_spec hs fun y hy =>
      hg.miss_digit hn hat hy
    unfold walkDown
    dsimp only
    generalize skipLoop ((h + 1) * k) (hit n) _ _ index = res at hskip
    obtain ⟨_ | j, index'⟩ := res
    · obtain ⟨y, hxy, hy, rfl, hno⟩ := hskip
      exact .ret (.none hxy hy hno)
    obtain ⟨hhit, hle, habove, hdigit, hno⟩ := hskip
    have hnonnull := hg.slot hn hhit
    have hslot := hat.slot (hdigit ▸ digit_lt k (h + 1) index'.toNat)
    rw [← habove, ← hdigit, ← above_eq, hdigit] at hslot
    show Ends (walkDown k hit leaf h (n.slots j) index') _
    rcases hn.slots j with hc | ⟨c, hc, hok⟩
    · rw [hc] at hnonnull
      exact absurd hnonnull (by decide)
    · rw [hc] at hslot ⊢
      exact .mono (ih hok (by rw [Nat.succ_mul] at hs; omega) hslot) fun res hres =>
        hres.skip hle hno

/-- The items of a leaf from the index on, where `hit` tells which of them have `P`. -/
theorem grab_spec (hk : k ≤ 32) (hat : At k r 1 bits (.node n) (above k 1 index.toNat))
    (hP : ∀ i < 2 ^ k, ∀ y, r.find k y = n.slots i → (∀ t, r.tagOf k t y = n.tags t i) →
      P y = hit i) (hm : 0 < m) :
    Found k r P m index.toNat
      (grabLoop n hit m (2 ^ k - offset k 0 index) (offset k 0 index) index []) := by
  have hdigit : offset k 0 index < 2 ^ k := offset_lt k 0 index
  have hzero : ∀ y, above k 0 y = y :=
    fun y => by rw [above, Nat.zero_mul, Nat.pow_zero, Nat.div_one]
  have hindex : above k 1 index.toNat * 2 ^ k + offset k 0 index = index.toNat :=
    (above_eq k 0 index.toNat).symm.trans (hzero _)
  have hend : above k 1 index.toNat * 2 ^ k + 2 ^ k ≤ 2 ^ 32 := by
    rw [above, Nat.one_mul, ← Nat.succ_mul]
    exact next_le index.isLt hk
  have hslot : ∀ i < 2 ^ k, P (above k 1 index.toNat * 2 ^ k + i) = hit i ∧
      r.find k (above k 1 index.toNat * 2 ^ k + i) = n.slots i := by
    intro i hi
    obtain ⟨hf, ht⟩ := hat.slot hi _ (hzero _)
    exact ⟨hP i hi _ hf ht, hf⟩
  have hgrab := grabLoop_spec (x := index.toNat) (m := m) hslot hend
    (Nat.add_sub_cancel' (Nat.le_of_lt hdigit)) (by omega) (by omega) (by simp [hindex])
    (show ([] : List Ptr).length < m from hm)
  rwa [hindex, ofNat_toNat, setWidth_eq] at hgrab

/-! ### The loop over the calls -/

theorem gangLoop_spec {lookup : BitVec 32 → Nat → Option Haul} {maxIndex lo fuel : Nat}
    (hlookup : ∀ index m, 0 < m → index.toNat ≤ maxIndex →
      Ends (lookup index m) (Found k r P m index.toNat))
    (hitem : ∀ y, P y = true →
      (r.find k y).isNull = false ∧ (r.find k y).indirectToPtr = r.find k y)
    (hmax : ∀ y, maxIndex < y → P y = false) (hlo : lo ≤ index.toNat)
    (hfound : found = (hits P lo index.toNat).map (r.find k)) (hlen : found.length ≤ m)
    (hfuel : 2 ^ 32 < index.toNat + fuel) :
    gangLoop lookup maxIndex m fuel index found =
      some (((hits P lo (2 ^ 32)).take m).map (r.find k)) := by
  have hlt : index.toNat < 2 ^ 32 := index.isLt
  induction fuel generalizing index found with
  | zero => omega
  | succ fuel ih =>
    have hlen' : (hits P lo index.toNat).length = found.length := by rw [hfound, length_map]
    unfold gangLoop
    by_cases hroom : found.length < m
    · rw [if_pos hroom]
      by_cases hover : maxIndex < index.toNat
      · rw [if_pos hover, hits_take hlo (le_of_lt hlt) (by omega)
          (.inr fun y hy _ => hmax y (by omega)), hfound]
      rw [if_neg hover]
      obtain ⟨⟨more, next⟩, hrun, y, hxy, hy, rfl, hmore, hmlen⟩ :=
        hlookup index (m - found.length) (by omega) (by omega)
      dsimp only at hmore hmlen
      have hclean : (more.filter fun slot => !slot.isNull).map Ptr.indirectToPtr = more := by
        have hmem : ∀ p ∈ more, p.isNull = false ∧ p.indirectToPtr = p := by
          intro p hp
          rw [hmore] at hp
          obtain ⟨z, hz, rfl⟩ := mem_map.mp hp
          exact hitem z (mem_hits hz).2.2
        rw [filter_eq_self.mpr fun p hp => by rw [(hmem p hp).1]; rfl]
        exact (map_congr_left fun p hp => (hmem p hp).2).trans (map_id _)
      have hall : found ++ more = (hits P lo y).map (r.find k) := by
        rw [hits_append hlo (le_of_lt hxy), map_append, hfound, hmore]
      have hall' : (hits P lo y).length = found.length + more.length := by
        rw [← length_append, hall, length_map]
      rw [hrun]
      dsimp only [Option.bind_eq_bind, Option.bind_some]
      rw [hclean]
      rcases ofNat_cases (by omega) hy with ⟨hwrap, rfl⟩ | ⟨hwrap, hnat⟩
      · rw [if_pos hwrap, take_of_length_le (by omega), hall]
      · rw [if_neg hwrap]
        exact ih (by omega) (by rwa [hnat]) (by rw [length_append]; omega) (by omega) (by omega)
    · rw [if_neg hroom, hits_take hlo (le_of_lt hlt) (by omega) (.inl (by omega)), hfound]

theorem find_clean (hr : RootOk k r) (hx : r.find k x ≠ .null) :
    (r.find k x).isNull = false ∧ (r.find k x).indirectToPtr = r.find k x := by
  refine ⟨Bool.eq_false_iff.mpr fun h => hx ((isNull_find hr x).mp h), ?_⟩
  have hwf := get_wf r.height r.rnode x hr.wf
  rw [← find_of_lt (lt_of_find hx)] at hwf
  obtain ⟨v, hv, -, heven⟩ := hwf.resolve_left hx
  have hbit : v.toNat % 2 = 0 := by simpa [getLsbD] using heven
  have hand : v &&& ~~~1 = v := by
    apply eq_of_toNat_eq
    rw [Mask.toNat_and_not_mask (k := 1) rfl]
    omega
  rw [hv]
  exact congrArg Ptr.item hand

/-- Both gang lookups, when the calls they make find what they are to find. -/
theorem gangLookup_spec {lookup : Node Ptr → BitVec 32 → Nat → Option Haul} (hr : RootOk k r)
    (hP : ∀ x, P x = true → r.find k x ≠ .null) (hroot : ∀ v, r.rnode = .item v → P 0 = true)
    (hlookup : ∀ n, r.rnode = .node n → ∀ index m, 0 < m → index.toNat < 2 ^ (r.height * k) →
      Ends (lookup n index m) (Found k r P m index.toNat))
    (hmax : max = 0 → first = 0 → r.height = 0 → r.rnode.isNull = true) :
    gangLookup k lookup r first max = some (((hits P first.toNat (2 ^ 32)).take max.toNat).map
      (r.find k)) := by
  have hno : ∀ x, r.find k x = .null → P x = false := fun x hx => Bool.eq_false_iff.mpr
    fun h => hP x h hx
  unfold gangLookup
  by_cases hnull : r.rnode.isNull = true
  · rw [if_pos hnull, hits_eq_nil fun x _ _ => hno x ?_]
    · simp
    · rw [Root.find, hr.wf.isNull_iff.mp hnull, get_null, ite_self]
  rw [if_neg hnull]
  cases hrnode : r.rnode with
  | null => exact absurd (by rw [hrnode]; rfl) hnull
  | item v =>
    obtain ⟨hheight, heven⟩ := hr.of_item hrnode
    have hover : ∀ x, 1 ≤ x → P x = false :=
      fun x hx => hno x (find_of_le (by rw [hheight]; simpa using hx))
    dsimp only
    rw [if_neg (by rw [Ptr.isIndirect, heven]; decide)]
    by_cases h0 : 0 < first.toNat
    · rw [if_pos h0, hits_eq_nil fun x hx _ => hover x (by omega)]
      simp
    have hfirst : first.toNat = 0 := by omega
    have hpos : 1 ≤ max.toNat := by
      by_contra hc
      exact hnull (hmax (eq_of_toNat_eq (Nat.eq_zero_of_not_pos hc))
        (eq_of_toNat_eq hfirst) hheight)
    have hone : hits P 0 1 = [0] := by
      rw [hits_succ (le_refl 0), if_pos (hroot v hrnode), hits_self, nil_append]
    rw [if_neg h0, hfirst, hits_take (zero_le 1) (by decide) (by rwa [hone])
      (.inr fun x hx _ => hover x hx), hone, map_singleton, find_of_lt (Nat.two_pow_pos _),
      hheight, hrnode]
    rfl
  | node n =>
    obtain ⟨_, hh, hok⟩ := hr.of_node hrnode
    have hheight := hok.height.trans hh.symm
    refine gangLoop_spec (fun index m hm hle => hlookup n hrnode index m hm
      (Nat.lt_of_not_le fun h => ?_)) (fun y hy => find_clean hr (hP y hy)) (fun y hy => hno y ?_)
      (Nat.le_refl _) (by simp) (Nat.zero_le _) (by omega)
    · rw [hheight] at hle
      exact absurd ((maxindex_lt_iff index).mpr h) (Nat.not_lt.mpr hle)
    · by_contra hy'
      have hnat := toNat_ofNat_of_lt (hr.bounded y hy')
      rw [← hnat, hheight, maxindex_lt_iff, hnat] at hy
      exact hy' (find_of_le hy)

theorem shift_lt (hh : h < maxPath k) : h * k < 32 := by
  have hle : (h + 1) * k ≤ 32 + k - 1 := Nat.le_trans (Nat.mul_le_mul_right k hh)
    (div_mul_le_self ..)
  rw [Nat.succ_mul] at hle
  omega

/-- A call from an index that the tree has room for. -/
theorem walkDown_root {hit : Node Ptr → Nat → Bool} (hr : RootOk k r)
    (hn : r.rnode = .node n) (hg : Guides k r P hit)
    (hleaf : ∀ n index bits, NodeOk k 0 (WF k 0) n →
      At k r 1 bits (.node n) (above k 1 index.toNat) →
      Found k r P m index.toNat (leaf n index))
    (hfit : index.toNat < 2 ^ (r.height * k)) :
    Ends (match n.height with
      | 0 => some ([], index)
      | h + 1 => walkDown k hit leaf h (.node n) index) (Found k r P m index.toNat) := by
  obtain ⟨h, hh, hok⟩ := hr.of_node hn
  have hle := hr.height
  have hat : At k r r.height r.tags r.rnode (above k r.height index.toNat) := fun y hy => by
    have hy' := (div_eq_zero_iff_lt (Nat.two_pow_pos _)).mp (hy.trans (div_eq_of_lt hfit))
    exact ⟨find_of_lt hy', fun t => if_pos hy'⟩
  rw [hn, hh] at hat
  rw [hok.height]
  exact walkDown_spec hg hleaf hok (shift_lt (by omega)) hat

/-! ### Lookups of items and of tags -/

theorem guides_inUse : Guides k r (fun y => !(r.find k y).isNull) Node.inUse where
  miss {h n i a} hn hat hmiss y hy := by
    have hnull : n.slots i = .null := (hn.slots i).isNull_iff.mp (by simpa [Node.inUse] using hmiss)
    rw [(hat y hy).1, hnull, get_null]
    rfl
  slot hn hhit := by simpa [Node.inUse] using hhit

theorem guides_tags : Guides k r (r.tagOf k tag) (fun n => n.tags tag) where
  miss {h n i a} hn hat hmiss y hy := by
    rw [(hat y hy).2 tag]
    refine Bool.eq_false_iff.mpr fun hbit => ?_
    have htag := (bit_iff_exists (hn.slots i) (hn.tags tag i)).mpr ⟨y, hbit⟩
    exact absurd (htag.symm.trans hmiss) (by decide)
  slot {h n i} hn hhit := by
    refine Bool.eq_false_iff.mpr fun hnull => ?_
    have htag := hn.tags_false ((hn.slots i).isNull_iff.mp hnull) tag
    exact absurd (hhit.symm.trans htag) (by decide)

section

variable (hk : k ≤ 32) (hr : RootOk k r)

include hk hr

theorem lookup_spec (hn : r.rnode = .node n) (hm : 0 < m)
    (hfit : index.toNat < 2 ^ (r.height * k)) :
    Ends (lookup k n index m) (Found k r (fun y => !(r.find k y).isNull) m index.toNat) := by
  refine walkDown_root hr hn guides_inUse (fun n index bits hn hat => ?_) hfit
  exact grab_spec hk hat (fun i _ y hf _ => by rw [hf]; rfl) hm

theorem lookupTag_spec (hn : r.rnode = .node n) (hm : 0 < m)
    (hfit : index.toNat < 2 ^ (r.height * k)) :
    Ends (lookupTag k tag n index m) (Found k r (r.tagOf k tag) m index.toNat) := by
  refine walkDown_root hr hn guides_tags (fun n index bits hn hat => ?_) hfit
  have hskip : Skipped (r.tagOf k tag) (n.tags tag) k 0 index.toNat _ :=
    skip_spec (by omega) fun y hy => guides_tags.miss_digit hn hat hy
  rw [Nat.zero_mul] at hskip
  dsimp only
  generalize skipLoop 0 (n.tags tag) _ _ index = res at hskip
  obtain ⟨_ | j, index'⟩ := res
  · obtain ⟨y, hxy, hy, rfl, hno⟩ := hskip
    exact .none hxy hy hno
  obtain ⟨-, hle, habove, -, hno⟩ := hskip
  refine (grab_spec hk (habove ▸ hat) (fun i _ y _ ht => ?_) hm).skip hle hno
  rw [ht]
  cases htag : n.tags tag i with
  | false => rfl
  | true => simp [Node.inUse, (@guides_tags k r tag).slot hn htag]

theorem radixTreeGangLookup_spec
    (hmax : max = 0 → first = 0 → r.height = 0 → r.rnode.isNull = true) :
    radixTreeGangLookup k r first max =
      some (((hits (fun x => !(r.find k x).isNull) first.toNat (2 ^ 32)).take max.toNat).map
      (r.find k)) := by
  refine gangLookup_spec hr (fun x hx hnull => ?_) (fun v hv => ?_)
    (fun n hn index m hm => lookup_spec hk hr hn hm) hmax
  · simp [hnull, Ptr.isNull] at hx
  · have hnull : r.rnode.isNull = false :=
      Bool.eq_false_iff.mpr fun h => by cases hv.symm.trans (hr.wf.isNull_iff.mp h)
    rw [find_of_lt (Nat.two_pow_pos _), (hr.of_item hv).1, get, hnull]
    rfl

theorem radixTreeGangLookupTag_spec
    (hmax : max = 0 → first = 0 → r.height = 0 → r.rnode.isNull = true) :
    radixTreeGangLookupTag k r first max tag =
      some (((hits (r.tagOf k tag) first.toNat (2 ^ 32)).take max.toNat).map (r.find k)) := by
  unfold radixTreeGangLookupTag
  cases htag : r.tags tag with
  | false =>
    have hno : ∀ x, r.tagOf k tag x = false := fun x => Bool.eq_false_iff.mpr fun hx =>
      absurd (htag.symm.trans ((hr.tags_iff tag).mpr ⟨x, hx⟩)) (by decide)
    simp [hits_eq_nil fun x _ _ => hno x]
  | true =>
    refine gangLookup_spec hr (fun x hx => hr.find_of_tagOf hx) (fun v hv => ?_)
      (fun n hn index m hm => lookupTag_spec hk hr hn hm) hmax
    rw [Root.tagOf, if_pos (Nat.two_pow_pos _), (hr.of_item hv).1]
    exact htag

end

/-- The items at the first `max` indices with `P` from `first` on. -/
def firstItems (k : Nat) (r : Root) (first max : BitVec 32) (P : BitVec 32 → Bool) : List Ptr :=
  ((hits (fun x => P (BitVec.ofNat 32 x)) first.toNat (2 ^ 32)).take max.toNat).filterMap fun x =>
    radixTreeLookup k r (BitVec.ofNat 32 x)

theorem firstItems_eq (hr : RootOk k r) (hPQ : ∀ i, Q i = P i.toNat) :
    firstItems k r first max Q = ((hits P first.toNat (2 ^ 32)).take max.toNat).map (r.find k) := by
  rw [firstItems, hits_congr fun x hx => by rw [hPQ, toNat_ofNat_of_lt hx], ← filterMap_eq_map]
  refine filterMap_congr fun x hx => ?_
  rw [radixTreeLookup_spec hr, toNat_ofNat_of_lt (mem_hits (mem_of_mem_take hx)).2.1]
  rfl

/-- Whether there is an item at an index. -/
def Root.present (k : Nat) (r : Root) (i : BitVec 32) : Bool :=
  (radixTreeLookup k r i).any fun p => !p.isNull

/-- The gang lookups return what single lookups would find, **exactly if** it is not so that there
is no room for an item, the tree is an item alone and the search starts at it. -/
def GangExact (k : Nat) (s : TagState) : Prop :=
  ∀ (first max : BitVec 32) (tag : Tag),
    (radixTreeGangLookup k s.root first max =
    some (firstItems k s.root first max (s.root.present k)) ∧
      radixTreeGangLookupTag k s.root first max tag =
        some (firstItems k s.root first max fun i => s.root.present k i && s.tagged tag i)) ↔
    (max = 0 → first = 0 → s.root.height = 0 → s.root.rnode.isNull = true)

/-- A tree that is an item alone gives it away without a look at `max`. -/
theorem gangLookup_item (hr : RootOk k r) (hheight : r.height = 0)
    (hnull : ¬ r.rnode.isNull = true) :
    radixTreeGangLookup k r 0 0 = some [r.rnode] := by
  have hwf := hr.wf
  rw [hheight] at hwf
  obtain hv | ⟨v, hv, -, heven⟩ := hwf
  · exact absurd (by rw [hv]; rfl) hnull
  · rw [radixTreeGangLookup, gangLookup, if_neg hnull, hv]
    dsimp only
    rw [if_neg (by rw [Ptr.isIndirect, heven]; decide), if_neg (by decide)]

theorem TagState.Ok.gangExact (hk : k ≤ 32) (hs : s.Ok k) : GangExact k s := by
  intro first max tag
  have hr := hs.tree.root
  refine ⟨?_, fun hmax => ?_⟩
  · rintro ⟨h, -⟩ rfl rfl hheight
    by_contra hnull
    cases (gangLookup_item hr hheight hnull).symm.trans h
  have hpresent : ∀ i : BitVec 32, s.root.present k i =
      !(s.root.find k i.toNat).isNull := fun i => by
    rw [Root.present, radixTreeLookup_spec hr]
    rfl
  rw [radixTreeGangLookup_spec hk hr hmax, radixTreeGangLookupTag_spec hk hr hmax]
  refine ⟨congrArg some (firstItems_eq hr hpresent).symm,
    congrArg some (firstItems_eq hr fun i => ?_).symm⟩
  rw [hpresent, ← hs.tagged]
  cases htag : s.root.tagOf k tag i.toNat with
  | false => exact Bool.and_false _
  | true => rw [(find_clean hr (hr.find_of_tagOf htag)).1]; rfl

/-- **Gang lookups.** In every state of every run of insertions, deletions and changes of tags,
`radix_tree_gang_lookup` ends and returns the items at the first `max` present indices from
`first` on, and `radix_tree_gang_lookup_tag` those of them that carry the tag. -/
theorem radix_tree_gang_lookups (baseSmall : Bool) (calls : List TagCall)
    (hlegal : Run.Along (tagStep (mapShift baseSmall))
      (fun s call => call.Legal (mapShift baseSmall) s) TagState.init calls) :
    Run.Always (tagStep (mapShift baseSmall)) (GangExact (mapShift baseSmall))
      TagState.init calls :=
  (tagStep_always baseSmall hlegal).imp fun _ h => h.gangExact (by cases baseSmall <;> decide)

theorem radix_tree_gang_lookups_some :
    Run.Always (tagStep (mapShift false)) (GangExact (mapShift false)) TagState.init someTagCalls :=
  radix_tree_gang_lookups false someTagCalls someTagCalls_legal

/-- With no room for an item, an item at the root is returned all the same. -/
theorem gang_lookup_exceeds_max : ∃ s,
    Run.run (tagStep (mapShift false)) TagState.init [.insert 0 8 []] = some s ∧
      radixTreeGangLookup (mapShift false) s.root 0 0 = some [.item 8] ∧
      firstItems (mapShift false) s.root 0 0 (s.root.present (mapShift false)) = [] :=
  ⟨_, rfl, rfl, rfl⟩

end SilanKernel.Lib
