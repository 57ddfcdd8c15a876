import Mathlib.Tactic
import SilanKernel.Lib.RadixTree

/-!
# SilanKernel.Lib.RadixTreeSound

What a radix tree means, and that its operations keep it **well formed**.

`get` is the item a tree of a given height holds for an index, `bitAt` the tag bit of
that item. `WF` is the invariant: nodes know their height, count their slots in use, and
a tag bit for a slot says whether the node below has a bit of that tag set (`TagOk`). The
root is treated as one more slot, with the root's tags for its bits. Every operation
changes one slot of each node on a path, with its bits (`Node.put`); the lemmas about it
carry each recursion over one level.
-/

namespace SilanKernel.Lib

open Function Bool Finset Option Ptr

variable (k : Nat)

/-! ### Meaning -/

/-- The item at `x` below a pointer `h` levels high. -/
def get : Nat → Ptr → Nat → Ptr
  | 0, p, _ => p
  | h + 1, .node n, x => get h (n.slots (digit k h x)) x
  | _ + 1, _, _ => .null

/-- The tag bit of the item at `x`; `bit` is the bit of the pointer itself. -/
def bitAt (t : Tag) : Nat → Bool → Ptr → Nat → Bool
  | 0, bit, _, _ => bit
  | h + 1, _, .node n, x => bitAt t h (n.tags t (digit k h x)) (n.slots (digit k h x)) x
  | _ + 1, _, _, _ => false

/-- Whether the node a pointer leads to has a bit of the tag set. -/
def anyTag (p : Ptr) (t : Tag) : Bool :=
  match p with
  | .node n => anyTagSet k n t
  | _ => false

/-- The bit is right for a pointer `h` levels high: only items are tagged, and a node is
tagged if one of its slots is. -/
def TagOk (h : Nat) (p : Ptr) (t : Tag) (bit : Bool) : Prop :=
  match h with
  | 0 => bit = true → p.isNull = false
  | _ + 1 => bit = anyTag k p t

/-- The number of slots in use. -/
def used (n : Node Ptr) : Nat := ∑ i ∈ Finset.range (2 ^ k), if (n.slots i).isNull then 0 else 1

/-- A node `h + 1` levels high whose slots satisfy `W`. -/
structure NodeOk (h : Nat) (W : Ptr → Prop) (n : Node Ptr) : Prop where
  height : n.height = h + 1
  slots : ∀ i, W (n.slots i)
  outside : ∀ i, 2 ^ k ≤ i → n.slots i = .null
  count : n.count = used k n
  tags : ∀ t i, TagOk k h (n.slots i) t (n.tags t i)

/-- A pointer `h` levels high is NULL, or an item or a good node, as its height says. -/
def WF : Nat → Ptr → Prop
  | 0, p => p = .null ∨ ∃ v, p = .item v ∧ v ≠ 0 ∧ v.getLsbD 0 = false
  | h + 1, p => p = .null ∨ ∃ n, p = .node n ∧ NodeOk k h (WF h) n

variable {k} {h x y off : Nat} {p c : Ptr} {n : Node Ptr} {t : Tag} {W : Ptr → Prop} {bit : Bool}

theorem WF.null : WF k h .null := by
  cases h with
  | zero => exact .inl rfl
  | succ h => exact .inl rfl

theorem WF.isNull_iff (hp : WF k h p) : p.isNull = true ↔ p = .null := by
  cases h with
  | zero =>
    rcases hp with rfl | ⟨v, rfl, hv, -⟩
    · simp [Ptr.isNull]
    · simpa [Ptr.isNull] using hv
  | succ h =>
    rcases hp with rfl | ⟨n, rfl, -⟩
    · simp [Ptr.isNull]
    · simp [Ptr.isNull]

theorem get_null (h x : Nat) : get k h .null x = .null := by
  cases h <;> rfl

theorem WF.nonnull_of_get (hp : WF k h p) (hget : (get k h p x).isNull = false) :
    p.isNull = false := by
  refine eq_false_iff.mpr fun hnull => ?_
  rw [hp.isNull_iff.mp hnull, get_null] at hget
  exact absurd hget (by decide)

theorem get_wf (h : Nat) (p : Ptr) (x : Nat) (hp : WF k h p) : WF k 0 (get k h p x) := by
  induction h generalizing p with
  | zero => exact hp
  | succ h ih =>
    rcases hp with rfl | ⟨n, rfl, hn⟩
    · exact WF.null
    · exact ih _ (hn.slots _)

theorem bitAt_congr (hxy : low k h x = low k h y) : bitAt k t h bit p x = bitAt k t h bit p y := by
  induction h generalizing p bit with
  | zero => rfl
  | succ h ih =>
    obtain ⟨hd, hl⟩ := low_succ_eq_iff.mp hxy
    cases p with
    | null => rfl
    | item v => rfl
    | node n =>
      show bitAt k t h (n.tags t (digit k h x)) (n.slots (digit k h x)) x =
        bitAt k t h (n.tags t (digit k h y)) (n.slots (digit k h y)) y
      rw [hd, ih hl]

theorem anyTagSet_iff : anyTagSet k n t = true ↔ ∃ i < 2 ^ k, n.tags t i = true := by
  simp [anyTagSet]

theorem TagOk.null : TagOk k h .null t bit ↔ bit = false := by
  cases h with
  | zero => simp [TagOk, Ptr.isNull]
  | succ h => exact Iff.rfl

/-! ### One slot of a node -/

/-- A node with one slot changed, the bits of the slot and the count. -/
def Node.put (n : Node Ptr) (off : Nat) (c : Ptr) (bits : Tag → Bool)
    (count : Nat) : Node Ptr :=
  { height := n.height
    count := count
    slots := Function.update n.slots off c
    tags := fun t => Function.update (n.tags t) off (bits t) }

variable {bits : Tag → Bool} {count i : Nat} {m : Mem}

theorem put_slots_self : (n.put off c bits count).slots off = c := update_self ..

theorem put_slots_ne (hi : i ≠ off) : (n.put off c bits count).slots i = n.slots i :=
  update_of_ne hi ..

theorem put_tags_self : (n.put off c bits count).tags t off = bits t := update_self ..

theorem put_tags_ne (hi : i ≠ off) : (n.put off c bits count).tags t i = n.tags t i :=
  update_of_ne hi ..

/-- What a pointer adds to the count of its node. -/
def Ptr.weight (p : Ptr) : Nat := if p.isNull then 0 else 1

theorem used_eq_add (hoff : off < 2 ^ k) :
    used k n = (n.slots off).weight + ∑ i ∈ (range (2 ^ k)).erase off, (n.slots i).weight :=
  (add_sum_erase _ (fun i => (n.slots i).weight) (mem_range.mpr hoff)).symm

/-- A sum over the slots changes by what the slot adds to it. -/
theorem sum_put (f : Ptr → Nat) (hoff : off < 2 ^ k) :
    ∑ i ∈ range (2 ^ k), f ((n.put off c bits count).slots i) + f (n.slots off) =
      ∑ i ∈ range (2 ^ k), f (n.slots i) + f c := by
  have hrest : ∑ i ∈ (range (2 ^ k)).erase off, f ((n.put off c bits count).slots i) =
      ∑ i ∈ (range (2 ^ k)).erase off, f (n.slots i) := by
    refine sum_congr rfl fun i hi => ?_
    rw [put_slots_ne (ne_of_mem_erase hi)]
  have hmem := mem_range.mpr hoff
  rw [← add_sum_erase _ _ hmem, ← add_sum_erase _ (fun i => f (n.slots i)) hmem, hrest,
    put_slots_self]
  omega

theorem used_put (hoff : off < 2 ^ k) :
    used k (n.put off c bits count) + (n.slots off).weight = used k n + c.weight :=
  sum_put weight hoff

theorem NodeOk.put (hn : NodeOk k h W n) (hoff : off < 2 ^ k) (hc : W c)
    (htag : ∀ t, TagOk k h c t (bits t))
    (hcount : count + (n.slots off).weight = n.count + c.weight) :
    NodeOk k h W (n.put off c bits count) := by
  refine ⟨hn.height, ?_, ?_, ?_, ?_⟩
  · intro i
    by_cases hi : i = off
    · rwa [hi, put_slots_self]
    · rw [put_slots_ne hi]
      exact hn.slots i
  · intro i hi
    rw [put_slots_ne (by omega)]
    exact hn.outside i hi
  · have := @used_put k off c n bits count hoff
    have := hn.count
    show count = _
    omega
  · intro t i
    by_cases hi : i = off
    · rw [hi, put_slots_self, put_tags_self]
      exact htag t
    · rw [put_slots_ne hi, put_tags_ne hi]
      exact hn.tags t i

theorem get_put : get k (h + 1) (.node (n.put off c bits count)) x =
    if digit k h x = off then get k h c x else get k (h + 1) (.node n) x := by
  show get k h ((n.put off c bits count).slots (digit k h x)) x = _
  by_cases hd : digit k h x = off
  · rw [if_pos hd, hd, put_slots_self]
  · rw [if_neg hd, put_slots_ne hd]
    rfl

theorem bitAt_put : bitAt k t (h + 1) b (.node (n.put off c bits count)) x =
    if digit k h x = off then bitAt k t h (bits t) c x else bitAt k t (h + 1) b' (.node n) x := by
  show bitAt k t h ((n.put off c bits count).tags t (digit k h x))
    ((n.put off c bits count).slots (digit k h x)) x = _
  by_cases hd : digit k h x = off
  · rw [if_pos hd, hd, put_slots_self, put_tags_self]
  · rw [if_neg hd, put_slots_ne hd, put_tags_ne hd]
    rfl

/-- What does not change below the slot does not change below the node. -/
theorem get_put_eq (hc : digit k h x = off → get k h c x = get k h (n.slots off) x) :
    get k (h + 1) (.node (n.put off c bits count)) x = get k (h + 1) (.node n) x := by
  rw [get_put]
  by_cases hd : digit k h x = off
  · rw [if_pos hd, hc hd, ← hd]
    rfl
  · rw [if_neg hd]

theorem bitAt_put_eq
    (hc : digit k h x = off → bitAt k t h (bits t) c x = bitAt k t h (n.tags t off)
      (n.slots off) x) :
    bitAt k t (h + 1) b (.node (n.put off c bits count)) x = bitAt k t (h + 1) b (.node n) x := by
  rw [@bitAt_put k h x off c n t bits count b b]
  by_cases hd : digit k h x = off
  · rw [if_pos hd, hc hd, ← hd]
    rfl
  · rw [if_neg hd]

/-- With the bits of the slot as they were no bit of the node changes. -/
theorem anyTag_put_of_eq (hbit : bits t = n.tags t off) :
    anyTag k (.node (n.put off c bits count)) t = anyTag k (.node n) t := by
  show anyTagSet k (n.put off c bits count) t = anyTagSet k n t
  unfold anyTagSet
  congr 1
  show update (n.tags t) off (bits t) = n.tags t
  rw [hbit, update_eq_self]

theorem anyTag_put_of_true (hoff : off < 2 ^ k) (hbit : bits t = true) :
    anyTag k (.node (n.put off c bits count)) t = true := by
  exact anyTagSet_iff.mpr ⟨off, hoff, put_tags_self.trans hbit⟩

theorem WF.eq_null_of_weight (hp : WF k h p) (hw : p.weight = 0) : p = .null := by
  refine hp.isNull_iff.mp ?_
  by_contra hnull
  rw [weight, if_neg hnull] at hw
  exact absurd hw Nat.one_ne_zero

/-- Nothing is in use below a node that counts no slot. -/
theorem NodeOk.slots_null (hn : NodeOk k h (WF k h) n) (hcount : n.count = 0) (i : Nat) :
    n.slots i = .null := by
  by_cases hi : i < 2 ^ k
  · have hsum : used k n = 0 := hn.count.symm.trans hcount
    rw [used_eq_add hi] at hsum
    exact (hn.slots i).eq_null_of_weight (by omega)
  · exact hn.outside i (Nat.le_of_not_lt hi)

theorem NodeOk.tags_false (hn : NodeOk k h (WF k h) n) (hi : n.slots i = .null) (t : Tag) :
    n.tags t i = false := by
  have := hn.tags t i
  rw [hi] at this
  exact TagOk.null.mp this

/-- With one slot in use, and that the first, the others are not. -/
theorem NodeOk.slots_null_of_one (hn : NodeOk k h (WF k h) n) (hcount : n.count = 1)
    (h0 : (n.slots 0).isNull = false) (hi : i ≠ 0) : n.slots i = .null := by
  by_cases hlt : i < 2 ^ k
  · have hsum : used k n = 1 := hn.count.symm.trans hcount
    rw [used_eq_add (Nat.two_pow_pos k)] at hsum
    have hw0 : (n.slots 0).weight = 1 := by rw [weight, h0]; rfl
    have hrest : ∑ i ∈ (range (2 ^ k)).erase 0, (n.slots i).weight = 0 := by omega
    have hmem : i ∈ (range (2 ^ k)).erase 0 := mem_erase.mpr ⟨hi, mem_range.mpr hlt⟩
    exact (hn.slots i).eq_null_of_weight (sum_eq_zero_iff.mp hrest i hmem)
  · exact hn.outside i (Nat.le_of_not_lt hlt)

/-! ### Node allocation -/

/-- What the constructor leaves, whatever the height. -/
structure Zeroed (n : Node Ptr) : Prop where
  count : n.count = 0
  slots : ∀ i, n.slots i = .null
  tags : ∀ t i, n.tags t i = false

/-- All free objects are zeroed. -/
def MemOk (m : Mem) : Prop := ∀ n ∈ m.slab, Zeroed n

theorem Zeroed.nodeOk (hz : Zeroed n) : NodeOk k h (WF k h) { n with height := h + 1 } := by
  refine ⟨rfl, ?_, fun i _ => hz.slots i, ?_, ?_⟩
  · intro i
    show WF k h (n.slots i)
    rw [hz.slots i]
    exact WF.null
  · show n.count = ∑ i ∈ range (2 ^ k), if (n.slots i).isNull then 0 else 1
    rw [hz.count]
    refine (sum_eq_zero fun i _ => ?_).symm
    rw [hz.slots i]
    rfl
  · intro t i
    show TagOk k h (n.slots i) t (n.tags t i)
    rw [hz.slots i, hz.tags t i]
    exact TagOk.null.mpr rfl

theorem Zeroed.get (hz : Zeroed n) (height x : Nat) :
    get k (h + 1) (.node { n with height := height }) x = .null := by
  show Lib.get k h (n.slots (digit k h x)) x = .null
  rw [hz.slots, get_null]

theorem nodeAlloc_spec (hm : MemOk m) (h : nodeAlloc m = (res, m'))
    : MemOk m' ∧ ∀ n, res = some n → Zeroed n := by
  unfold nodeAlloc at h
  split at h
  · cases h
    exact ⟨hm, nofun⟩
  · cases h
    exact ⟨hm, nofun⟩
  · cases h
    refine ⟨hm, fun n hn => ?_⟩
    obtain rfl := some.inj hn
    exact ⟨rfl, fun _ => rfl, fun _ _ => rfl⟩
  · split at h
    · cases h
      exact ⟨hm, nofun⟩
    rename_i n hget
    cases h
    refine ⟨fun n' hn' => hm n' (List.mem_of_mem_eraseIdx hn'), fun n' hn' => ?_⟩
    obtain rfl := some.inj hn'
    exact hm n (List.mem_of_getElem? hget)

/-- A node whose slots, the first apart, are not in use is zeroed when it is freed. -/
theorem MemOk.free (hm : MemOk m) (hslots : ∀ i, i ≠ 0 → n.slots i = .null)
    (htags : ∀ t i, i ≠ 0 → n.tags t i = false) : MemOk (nodeFree m n) := by
  rintro n' hn'
  rcases List.mem_cons.mp hn' with rfl | hn'
  · refine ⟨rfl, fun i => ?_, fun t i => ?_⟩
    · show update n.slots 0 .null i = .null
      by_cases hi : i = 0
      · rw [hi, update_self]
      · rw [update_of_ne hi, hslots i hi]
    · show (if i = 0 then false else n.tags t i) = false
      by_cases hi : i = 0
      · rw [if_pos hi]
      · rw [if_neg hi, htags t i hi]
  · exact hm n' hn'

/-! ### Insertion -/

/-- A pointer is replaced and the tag bits below it are not touched. -/
structure Kept (k h : Nat) (p p' : Ptr) : Prop where
  wf : WF k h p'
  tagOk : ∀ t bit, TagOk k h p t bit → TagOk k h p' t bit
  bits : ∀ t bit x, bitAt k t h bit p' x = bitAt k t h bit p x
  nonnull : p.isNull = false → p'.isNull = false

theorem Kept.trans (h1 : Kept k h p1 p2) (h2 : Kept k h p2 p3) : Kept k h p1 p3 :=
  ⟨h2.wf, fun t bit hb => h2.tagOk t bit (h1.tagOk t bit hb),
    fun t bit x => (h2.bits t bit x).trans (h1.bits t bit x), fun hp => h2.nonnull (h1.nonnull hp)⟩

theorem Zeroed.kept (hz : Zeroed n) : Kept k (h + 1) .null (.node { n with height := h + 1 }) := by
  refine ⟨.inr ⟨_, rfl, hz.nodeOk⟩, ?_, ?_, fun _ => rfl⟩
  · intro t bit hbit
    rw [TagOk.null.mp hbit]
    refine (eq_false_iff.mpr fun hany => ?_).symm
    obtain ⟨i, -, hi⟩ := anyTagSet_iff.mp hany
    rw [hz.tags t i] at hi
    exact absurd hi false_ne_true
  · intro t bit x
    show bitAt k t h (n.tags t (digit k h x)) (n.slots (digit k h x)) x = false
    rw [hz.slots, hz.tags]
    cases h <;> rfl

/-- What an insertion does to the items, and the value it returns. -/
structure Inserted (k h : Nat) (index item : BitVec 32) (p p' : Ptr) (ret : Int) : Prop where
  new : ret = 0 → ∀ x, low k h x = low k h index.toNat → get k h p' x = .item item
  old : ∀ x, ret ≠ 0 ∨ low k h x ≠ low k h index.toNat → get k h p' x = get k h p x
  ret : (ret = 0 ∨ ret = -ENOMEM) ∧ get k h p index.toNat = .null ∨
    ret = -EEXIST ∧ get k h p index.toNat ≠ .null

theorem offset_lt (k h : Nat) (index : BitVec 32) : offset k h index < 2 ^ k := digit_lt ..

variable {index item : BitVec 32} {c : Ptr}

theorem low_succ_ne (h' : low k (h + 1) x ≠ low k (h + 1) y) (hd : digit k h x = digit k h y) :
    low k h x ≠ low k h y := fun hl => h' (low_succ_eq_iff.mpr ⟨hd, hl⟩)

/-- One level of an insertion. -/
theorem inserted_put (hins : Inserted k h index item (n.slots (offset k h index)) c ret) :
    Inserted k (h + 1) index item (.node n)
      (.node (n.put (offset k h index) c bits count)) ret := by
  refine ⟨?_, ?_, hins.ret⟩
  · intro hret x hx
    obtain ⟨hd, hl⟩ := low_succ_eq_iff.mp hx
    rw [get_put, if_pos (show digit k h x = offset k h index from hd)]
    exact hins.new hret x hl
  · exact fun x hx => get_put_eq fun hd => hins.old x (hx.imp_right fun h' => low_succ_ne h' hd)

theorem kept_put (hn : NodeOk k h (WF k h) n) (hoff : off < 2 ^ k)
    (hkept : Kept k h (n.slots off) c)
    (hcount : count + (n.slots off).weight = n.count + c.weight) :
    Kept k (h + 1) (.node n) (.node (n.put off c (fun t => n.tags t off) count)) := by
  refine ⟨.inr ⟨_, rfl, hn.put hoff hkept.wf (fun t => hkept.tagOk t _ (hn.tags t off)) hcount⟩,
    ?_, ?_, fun _ => rfl⟩
  · intro t bit hbit
    exact hbit.trans (anyTag_put_of_eq rfl).symm
  · exact fun t bit x => bitAt_put_eq fun _ => hkept.bits ..

theorem put_self (n : Node Ptr) (off : Nat) (c : Ptr) (count : Nat) :
    { setSlot n off c with count := count } = n.put off c (fun t => n.tags t off) count := by
  simp [setSlot, Node.put]

/-- What the walk of an insertion comes to. -/
def InsertOk (k : Nat) (index item : BitVec 32) (h : Nat) (p : Ptr) (m : Mem) : Prop :=
  ∃ p' m' ret, insertLoop k index item h p m = some (p', m', ret) ∧ MemOk m' ∧ Kept k h p p' ∧
    Inserted k h index item p p' ret

theorem insertLoop_node (hitem : item ≠ 0) (hn : NodeOk k h (WF k h) n)
    (ih : InsertOk k index item h (n.slots (offset k h index)) m) :
    InsertOk k index item (h + 1) (.node n) m := by
  obtain ⟨c, m', ret, hloop, hm', hkept, hins⟩ := ih
  have hbottom : (h == 0 || !c.isNull) = !c.isNull := by
    cases h with
    | zero =>
      unfold insertLoop at hloop
      split at hloop
      · cases hloop
        simpa [Ptr.isNull] using hitem
      · cases hloop
        simp_all
    | succ h => simp
  have hcount : (if (n.slots (offset k h index)).isNull && (h == 0 || !c.isNull) then n.count + 1
      else n.count) + (n.slots (offset k h index)).weight = n.count + c.weight := by
    have := hkept.nonnull
    rw [hbottom]
    unfold weight
    cases h1 : (n.slots (offset k h index)).isNull <;> cases h2 : c.isNull <;> simp_all
  -- A slot that was NULL carries no tag.
  have hbug : ¬(h = 0 ∧ ret = 0 ∧ (n.tags 0 (offset k h index) = true ∨
      n.tags 1 (offset k h index) = true)) := by
    rintro ⟨rfl, rfl, htag⟩
    have hnull : n.slots (offset k 0 index) = .null := by
      rcases hins.ret with ⟨-, hnull⟩ | ⟨hret, -⟩
      · exact hnull
      · exact absurd hret (by decide)
    rcases htag with htag | htag
    · rw [hn.tags_false hnull] at htag
      exact absurd htag false_ne_true
    · rw [hn.tags_false hnull] at htag
      exact absurd htag false_ne_true
  refine ⟨_, m', ret, ?_, hm', kept_put hn (offset_lt k h index) hkept hcount, inserted_put hins⟩
  rw [← put_self]
  unfold insertLoop
  dsimp only
  rw [hloop]
  exact if_neg hbug

theorem insertLoop_null : insertLoop k index item (h + 1) .null m = match nodeAlloc m with
    | (none, m') => some (.null, m', -ENOMEM)
    | (some n, m') => insertLoop k index item (h + 1) (.node { n with height := h + 1 }) m' := by
  conv_lhs => unfold insertLoop
  rcases nodeAlloc m with ⟨_ | n, m'⟩
  · rfl
  · conv_rhs => unfold insertLoop

theorem insertLoop_spec (hitem : item ≠ 0) (heven : item.getLsbD 0 = false) (h : Nat) (p : Ptr)
    (m : Mem) (hp : WF k h p) (hm : MemOk m) : InsertOk k index item h p m := by
  induction h generalizing p m with
  | zero =>
    unfold InsertOk insertLoop
    cases hnull : p.isNull with
    | true =>
      obtain rfl := hp.isNull_iff.mp hnull
      have hitem' : (Ptr.item item).isNull = false := by
        simpa [Ptr.isNull] using hitem
      refine ⟨_, _, _, rfl, hm, ⟨.inr ⟨item, rfl, hitem, heven⟩, ?_, ?_, fun _ => hitem'⟩, ?_⟩
      · exact fun _ _ _ _ => hitem'
      · exact fun _ _ _ => rfl
      · refine ⟨fun _ _ _ => rfl, fun x hx => ?_, .inl ⟨.inl rfl, rfl⟩⟩
        exact absurd hx (by simp)
    | false =>
      refine ⟨_, _, _, rfl, hm, ⟨hp, fun _ _ h => h, fun _ _ _ => rfl, fun h => h⟩, ?_⟩
      refine ⟨fun hret => absurd hret (by decide), fun _ _ => rfl, .inr ⟨rfl, ?_⟩⟩
      intro hp'
      rw [show p = .null from hp'] at hnull
      exact absurd hnull (by decide)
  | succ h ih =>
    rcases hp with rfl | ⟨n, rfl, hn⟩
    · rcases ha : nodeAlloc m with ⟨_ | n, m1⟩
      · refine ⟨.null, m1, -ENOMEM, ?_, (nodeAlloc_spec hm ha).1, ?_, ?_⟩
        · rw [insertLoop_null, ha]
        · exact ⟨WF.null, fun _ _ h => h, fun _ _ _ => rfl, fun h => h⟩
        · refine ⟨fun hret => absurd hret (by decide), fun _ _ => rfl, .inl ⟨.inr rfl, rfl⟩⟩
      obtain ⟨hm1, hz⟩ := nodeAlloc_spec hm ha
      have hz := hz n rfl
      have hn : NodeOk k h (WF k h) { n with height := h + 1 } := hz.nodeOk
      obtain ⟨p', m', ret, hloop, hm', hkept, hins⟩ :=
        insertLoop_node hitem hn (ih _ m1 (hn.slots _) hm1)
      have hget := @hz.get k h n
      refine ⟨p', m', ret, ?_, hm', hz.kept.trans hkept, hins.new, ?_, ?_⟩
      · rw [insertLoop_null, ha]
        exact hloop
      · intro x hx
        rw [hins.old x hx, hget]
        rfl
      · have hret := hins.ret
        rw [hget] at hret
        exact hret
    · exact insertLoop_node hitem hn (ih _ m (hn.slots _) hm)

/-! ### Tags -/

/-- The tag of one item below a pointer becomes `v`, and the bit of the pointer `bit'`. -/
structure Retag (k h : Nat) (index : BitVec 32) (tag : Tag) (v bit bit' : Bool) (p p' : Ptr) :
    Prop where
  wf : WF k h p'
  isNull : p'.isNull = p.isNull
  get : ∀ x, get k h p' x = get k h p x
  tagOk : TagOk k h p' tag bit'
  bits : ∀ x, bitAt k tag h bit' p' x =
    if low k h x = low k h index.toNat then v else bitAt k tag h bit p x
  others : ∀ t, t ≠ tag → (∀ b, TagOk k h p t b → TagOk k h p' t b) ∧
    ∀ b x, bitAt k t h b p' x = bitAt k t h b p x

variable {tag : Tag} {v b' : Bool} {toFree : Option (Node Ptr)} {b : Tag → Bool}

/-- The bits of a slot after its bit for `tag` has become `b`. -/
def withBit (n : Node Ptr) (off : Nat) (tag : Tag) (b : Bool) (t : Tag) : Bool :=
  if t = tag then b else n.tags t off

/-- One level of a walk that changes the tag of an item. -/
theorem retag_put (hoff : offset k h index = off) (hn : NodeOk k h (WF k h) n)
    (hc : Retag k h index tag v (n.tags tag off) b' (n.slots off) c)
    (hbit : bit' = anyTag k (.node (n.put off c (withBit n off tag b') n.count)) tag) :
    Retag k (h + 1) index tag v bit bit' (.node n)
      (.node (n.put off c (withBit n off tag b') n.count)) := by
  refine ⟨.inr ⟨_, rfl, hn.put (hoff ▸ offset_lt k h index) hc.wf ?_ ?_⟩, rfl, ?_, hbit, ?_, ?_⟩
  · intro t
    unfold withBit
    by_cases ht : t = tag
    · rw [if_pos ht, ht]
      exact hc.tagOk
    · rw [if_neg ht]
      exact (hc.others t ht).1 _ (hn.tags t _)
  · unfold weight
    rw [hc.isNull]
  · exact fun x => get_put_eq fun _ => hc.get x
  · intro x
    rw [@bitAt_put k h x _ c n tag _ _ bit' bit, withBit, if_pos rfl]
    by_cases hd : digit k h x = off
    · rw [if_pos hd, hc.bits]
      have hlow : low k (h + 1) x = low k (h + 1) index.toNat ↔ low k h x = low k h index.toNat :=
        ⟨fun h' => (low_succ_eq_iff.mp h').2, fun h' => low_succ_eq_iff.mpr
          ⟨hd.trans hoff.symm, h'⟩⟩
      simp only [hlow, ← hd]
      rfl
    · rw [if_neg hd, if_neg fun h' => hd ((low_succ_eq_iff.mp h').1.trans hoff)]
  · intro t ht
    have hwith : withBit n off tag b' t = n.tags t off := if_neg ht
    refine ⟨fun b hb => hb.trans (anyTag_put_of_eq hwith).symm, fun b x => bitAt_put_eq fun _ => ?_⟩
    rw [hwith, (hc.others t ht).2]

theorem setSlot_eq_put (n : Node Ptr) (off : Nat) (tag : Tag) (c : Ptr) :
    setSlot n off c = n.put off c (withBit n off tag (n.tags tag off)) n.count := by
  have : ∀ t, withBit n off tag (n.tags tag off) t = n.tags t off := by
    intro t
    unfold withBit
    split
    · rename_i ht
      rw [ht]
    · rfl
  simp [setSlot, Node.put, this]

theorem update_tags_eq_put (n : Node Ptr) (off : Nat) (tag : Tag) (c : Ptr) (b : Bool) :
    { setSlot n off c with
      tags := update n.tags tag (update (n.tags tag) off b) } =
      n.put off c (withBit n off tag b) n.count := by
  have : (update n.tags tag (update (n.tags tag) off b)) =
      fun t => update (n.tags t) off (withBit n off tag b t) := by
    funext t
    unfold withBit
    by_cases ht : t = tag
    · rw [ht, update_self, if_pos rfl]
    · rw [update_of_ne ht, if_neg ht, update_eq_self]
  rw [this]
  rfl

/-- `radix_tree_tag_set` tags the item at a present index. -/
theorem tagSetLoop_spec (tag : Tag) (h : Nat) (p : Ptr) (bit : Bool) (hp : WF k h p)
    (hget : (get k h p index.toNat).isNull = false) :
    ∃ p', tagSetLoop k index tag h p = some (p', get k h p index.toNat) ∧
      Retag k h index tag true bit true p p' := by
  induction h generalizing p bit with
  | zero =>
    refine ⟨p, rfl, hp, rfl, fun _ => rfl, fun _ => hget, fun x => ?_,
      fun t _ => ⟨fun _ hb => hb, fun _ _ => rfl⟩⟩
    rw [low_zero, low_zero, if_pos rfl]
    rfl
  | succ h ih =>
    rcases hp with rfl | ⟨n, rfl, hn⟩
    · exact absurd hget (by rw [get_null]; decide)
    let off := offset k h index
    obtain ⟨c, hloop, hc⟩ := ih (n.slots off) (n.tags tag off)
      (hn.slots _) hget
    have hnull := (hn.slots off).nonnull_of_get hget
    refine ⟨_, ?_, retag_put rfl hn hc (anyTag_put_of_true (offset_lt k h index) (if_pos rfl)).symm⟩
    unfold tagSetLoop
    cases htag : n.tags tag off with
    | true =>
      have hput := setSlot_eq_put n off tag c
      rw [htag] at hput
      rw [if_pos rfl, if_neg (by rw [hnull]; decide), hloop, ← hput]
      rfl
    | false =>
      rw [if_neg Bool.false_ne_true, ← update_tags_eq_put]
      show (if (n.slots off).isNull then _ else _) = _
      rw [if_neg (by rw [hnull]; decide)]
      rw [show (tagSet n tag off).slots = n.slots from rfl, hloop]
      rfl

/-- `radix_tree_tag_clear` takes the tag off the item, where there is one. -/
theorem tagClearLoop_spec (tag : Tag) (h : Nat) (p : Ptr) (bit : Bool) (hp : WF k h p)
    (hbit : TagOk k h p tag bit) :
    ∃ p' go, tagClearLoop k index tag h p = some (p', go, get k h p index.toNat) ∧
      Retag k h index tag false bit (if go then false else bit) p p' := by
  induction h generalizing p bit with
  | zero =>
    refine ⟨p, !p.isNull, rfl, hp, rfl, fun _ => rfl, ?_, fun x => ?_,
      fun t _ => ⟨fun _ hb => hb, fun _ _ => rfl⟩⟩
    · cases hnull : p.isNull with
      | true => exact hbit
      | false => exact fun h => absurd h false_ne_true
    rw [low_zero, low_zero, if_pos rfl]
    show (if !p.isNull then false else bit) = false
    cases hnull : p.isNull with
    | true =>
      have : bit ≠ true := fun hb => by
        have := hbit hb
        rw [hnull] at this
        exact absurd this (by decide)
      simpa using this
    | false => rfl
  | succ h ih =>
    rcases hp with rfl | ⟨n, rfl, hn⟩
    · have hbit' : bit = false := TagOk.null.mp hbit
      refine ⟨.null, false, rfl, WF.null, rfl, fun _ => rfl, hbit, fun x => ?_,
        fun t _ => ⟨fun _ hb => hb, fun _ _ => rfl⟩⟩
      simp [bitAt]
    obtain ⟨c, go, hloop, hc⟩ := ih (n.slots (offset k h index))
      (n.tags tag (offset k h index)) (hn.slots _) (hn.tags tag _)
    have hlt := offset_lt k h index
    have hbit' : bit = anyTag k (.node n) tag := hbit
    unfold tagClearLoop
    rw [hloop]
    change ∃ p' go, _ = some (p', go, get k h (n.slots (offset k h index)) index.toNat) ∧ _
    generalize hoff : offset k h index = off at hc hlt ⊢
    by_cases hstop : go = true ∧ n.tags tag off = true
    · -- The bit of the slot is cleared; the walk goes on if it was the last one.
      obtain ⟨rfl, htag⟩ := hstop
      rw [if_pos rfl] at hc
      have hput : tagClear (setSlot n off c) tag off = _ := update_tags_eq_put n off tag c false
      have hany : anyTag k (.node n) tag = true := anyTagSet_iff.mpr ⟨_, hlt, htag⟩
      refine ⟨_, !anyTagSet k (n.put off c (withBit n off tag false) n.count) tag, ?_,
        retag_put hoff hn hc ?_⟩
      · rw [← hput]
        show (if !true then _ else if !n.tags tag off then _ else _) = _
        rw [htag]
        rfl
      · rw [hbit', hany]
        show _ = anyTagSet k _ tag
        cases anyTagSet k _ tag <;> rfl
    · -- The walk ends here, with the bit of the slot as it was.
      have hsame : (if go then false else n.tags tag off) = n.tags tag off := by
        cases go with
        | false => rfl
        | true =>
          have : n.tags tag off ≠ true := fun h' => hstop ⟨rfl, h'⟩
          simpa using this
      rw [hsame] at hc
      refine ⟨_, false, ?_, retag_put hoff hn hc ?_⟩
      · rw [← setSlot_eq_put]
        show (if !go then _ else if !n.tags tag off then _ else _) = _
        cases go with
        | false => rfl
        | true =>
          have : n.tags tag off = false := by
            simpa using fun h' => hstop ⟨rfl, h'⟩
          rw [this]
          rfl
      · rw [hbit', anyTag_put_of_eq (if_pos rfl)]
        rfl

/-- Only items are tagged. -/
theorem get_of_bitAt (hp : WF k h p) (hbit : TagOk k h p t bit)
    (hx : bitAt k t h bit p x = true) : (get k h p x).isNull = false := by
  induction h generalizing p bit with
  | zero => exact hbit hx
  | succ h ih =>
    rcases hp with rfl | ⟨n, rfl, hn⟩
    · exact absurd hx false_ne_true
    · exact ih (hn.slots _) (hn.tags t _) hx

/-! ### Deletion -/

theorem descend_eq (h : Nat) (p : Ptr) (hp : WF k h p) :
    descend k index h p = some (get k h p index.toNat) := by
  induction h generalizing p with
  | zero => rfl
  | succ h ih =>
    rcases hp with rfl | ⟨n, rfl, hn⟩
    · rfl
    · exact ih _ (hn.slots _)

theorem leafTag_eq (h : Nat) (p : Ptr) (bit : Bool) (hp : WF k (h + 1) p) :
    leafTag k index t (h + 1) p = bitAt k t (h + 1) bit p index.toNat := by
  induction h generalizing p bit with
  | zero =>
    rcases hp with rfl | ⟨n, rfl, -⟩
    · rfl
    · rfl
  | succ h ih =>
    rcases hp with rfl | ⟨n, rfl, hn⟩
    · rfl
    · exact ih _ (n.tags t (offset k (h + 1) index)) (hn.slots _)

/-- One item is taken out below a pointer, and something is left. -/
structure Removed (k h : Nat) (index : BitVec 32) (b : Tag → Bool) (p p' : Ptr) : Prop where
  wf : WF k h p'
  nonnull : p'.isNull = false
  tagOk : ∀ t, TagOk k h p' t (b t)
  bits : ∀ t x, bitAt k t h (b t) p' x = bitAt k t h (b t) p x
  gone : ∀ x, low k h x = low k h index.toNat → get k h p' x = .null
  old : ∀ x, low k h x ≠ low k h index.toNat → get k h p' x = get k h p x

/-- The item taken out was the last one below the pointer. -/
structure Emptied (k h : Nat) (index : BitVec 32) (b : Tag → Bool) (p : Ptr)
    (toFree : Option (Node Ptr)) : Prop where
  bit : ∀ t, b t = false
  old : ∀ x, low k h x ≠ low k h index.toNat → get k h p x = .null
  slots : ∀ n, toFree = some n → ∀ i, n.slots i = .null
  tags : ∀ n, toFree = some n → ∀ t i, n.tags t i = false

def RemovalOk (k h : Nat) (index : BitVec 32) (b : Tag → Bool) (p : Ptr) : Removal → Prop
  | .stopped p' => Removed k h index b p p'
  | .keeps n => 0 < h ∧ Removed k h index b p (.node n)
  | .emptied toFree => Emptied k h index b p toFree

/-- A level of a deletion at which the slot only changes. -/
theorem removed_put (hoff : offset k h index = off) (hn : NodeOk k h (WF k h) n)
    (hb : ∀ t, TagOk k (h + 1) (.node n) t (b t)) (hnull : (n.slots off).isNull = false)
    (hc : Removed k h index (fun t => n.tags t off) (n.slots off) c) :
    Removed k (h + 1) index b (.node n) (.node (setSlot n off c)) := by
  have hput := put_self n off c n.count
  change setSlot n off c = _ at hput
  rw [hput]
  refine ⟨.inr ⟨_, rfl, hn.put (hoff ▸ offset_lt k h index) hc.wf hc.tagOk ?_⟩, rfl, ?_, ?_, ?_, ?_⟩
  · unfold weight
    rw [hnull, hc.nonnull]
  · intro t
    exact (hb t).trans (anyTag_put_of_eq rfl).symm
  · exact fun t x => bitAt_put_eq fun _ => hc.bits t x
  · intro x hx
    obtain ⟨hd, hl⟩ := low_succ_eq_iff.mp hx
    rw [get_put, if_pos (hd.trans hoff), hc.gone x hl]
  · exact fun x hx => get_put_eq fun hd => hc.old x (low_succ_ne hx (hd.trans hoff.symm))

/-- A level of a deletion at which the slot is cleared. -/
theorem removed_clear (hoff : offset k h index = off) (hn : NodeOk k h (WF k h) n)
    (hb : ∀ t, TagOk k (h + 1) (.node n) t (b t))
    (hbits : ∀ t, bitAt k t (h + 1) (b t) (.node n) index.toNat = false)
    (hnull : (n.slots off).isNull = false)
    (hc : Emptied k h index (fun t => n.tags t off) (n.slots off) toFree) :
    NodeOk k h (WF k h) { setSlot n off .null with count := n.count - 1 } ∧
      Removed k (h + 1) index b (.node n)
      (.node { setSlot n off .null with count := n.count - 1 }) := by
  rw [put_self]
  have hlt : off < 2 ^ k := hoff ▸ offset_lt k h index
  have hcount : n.count - 1 + (n.slots off).weight = n.count + Ptr.null.weight := by
    have hused := @used_eq_add k _ n hlt
    have := hn.count
    unfold weight at hused ⊢
    rw [hnull] at hused ⊢
    simp only [Ptr.isNull] at hused ⊢
    simp at hused ⊢
    omega
  have hok := hn.put hlt WF.null (fun t => TagOk.null.mpr (hc.bit t)) hcount
  refine ⟨hok, .inr ⟨_, rfl, hok⟩, rfl, ?_, ?_, ?_, ?_⟩
  · intro t
    exact (hb t).trans (anyTag_put_of_eq rfl).symm
  · intro t x
    refine bitAt_put_eq fun hd => ?_
    -- No item below the slot is tagged: there is none, apart from the one deleted.
    have hfalse : bitAt k t h (n.tags t off) (n.slots off) x = false := by
      by_cases hl : low k h x = low k h index.toNat
      · rw [bitAt_congr hl, ← hoff]
        exact hbits t
      · refine eq_false_iff.mpr fun htrue => ?_
        have hnn := get_of_bitAt (hn.slots _) (hn.tags t _) htrue
        rw [hc.old x hl] at hnn
        exact absurd hnn (by decide)
    rw [hfalse, hc.bit t]
    cases h <;> rfl
  · intro x hx
    obtain ⟨hd, -⟩ := low_succ_eq_iff.mp hx
    rw [get_put, if_pos (hd.trans hoff), get_null]
  · exact fun x hx => get_put_eq fun hd => (get_null h x).trans
      (hc.old x (low_succ_ne hx (hd.trans hoff.symm))).symm

theorem MemOk.freePending (hm : MemOk m) (hslots : ∀ n, toFree = some n → ∀ i, n.slots i = .null)
    (htags : ∀ n, toFree = some n → ∀ t i, n.tags t i = false) : MemOk (freePending m toFree) := by
  cases toFree with
  | none => exact hm
  | some n => exact hm.free (fun i _ => hslots n rfl i) (fun t i _ => htags n rfl t i)

/-- The walk of a deletion takes the item out and frees the nodes that are left empty. -/
theorem removeLoop_spec (h : Nat) (p : Ptr) (b : Tag → Bool) (m : Mem) (hp : WF k h p)
    (hb : ∀ t, TagOk k h p t (b t)) (hget : (get k h p index.toNat).isNull = false)
    (hbits : ∀ t, bitAt k t h (b t) p index.toNat = false) (hm : MemOk m) :
    ∃ r m', removeLoop k index h p m = some (r, m') ∧ MemOk m' ∧ RemovalOk k h index b p r := by
  induction h generalizing p b with
  | zero =>
    refine ⟨_, _, rfl, hm, hbits, fun x hx => ?_, nofun, nofun⟩
    rw [low_zero, low_zero] at hx
    exact absurd rfl hx
  | succ h ih =>
    rcases hp with rfl | ⟨n, rfl, hn⟩
    · exact absurd hget (by rw [get_null]; decide)
    have hnull := (hn.slots (offset k h index)).nonnull_of_get hget
    obtain ⟨r, m1, hloop, hm1, hr⟩ := ih (n.slots (offset k h index))
      (fun t => n.tags t (offset k h index)) (hn.slots _) (fun t => hn.tags t _) hget hbits
    unfold removeLoop
    rw [hloop]
    cases r with
    | stopped c => exact ⟨_, _, rfl, hm1, removed_put rfl hn hb hnull hr⟩
    | keeps child => exact ⟨_, _, rfl, hm1, removed_put rfl hn hb hnull hr.2⟩
    | emptied toFree =>
      obtain ⟨hok, hrem⟩ := removed_clear rfl hn hb hbits hnull hr
      have hm2 : MemOk (freePending m1 toFree) := hm1.freePending hr.slots hr.tags
      dsimp only
      split
      · exact ⟨_, _, rfl, hm2, Nat.succ_pos h, hrem⟩
      rename_i hcount
      have hslots := hok.slots_null (not_not.mp hcount)
      refine ⟨_, _, rfl, hm2, ?_, ?_, ?_, ?_⟩
      · intro t
        refine eq_false_iff.mpr fun htrue => ?_
        have hany := hrem.tagOk t
        rw [htrue] at hany
        obtain ⟨i, -, hi⟩ := anyTagSet_iff.mp hany.symm
        rw [hok.tags_false (hslots i)] at hi
        exact absurd hi false_ne_true
      · intro x hx
        rw [← hrem.old x hx]
        show get k h (_ : Ptr) x = .null
        rw [hslots (digit k h x), get_null]
      · intro n' hn' i
        obtain rfl := some.inj hn'
        exact hslots i
      · intro n' hn' t i
        obtain rfl := some.inj hn'
        exact hok.tags_false (hslots i) t

end SilanKernel.Lib
