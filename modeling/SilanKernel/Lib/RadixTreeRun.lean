import SilanKernel.Lib.RadixTreeMap

/-!
# SilanKernel.Lib.RadixTreeRun

**Runs of calls** on one radix tree, from the empty tree on.

The first part compares insertions, deletions and lookups with a finite map. The second
follows the tags of the items through insertions, deletions and changes of tags, and shows
that the bits of every node sum them up exactly.
-/

namespace SilanKernel.Lib

open Function BitVec

/-- A tree, and the free objects of the slab cache its nodes come from. -/
structure TreeState where
  root : Root
  slab : List (Node Ptr)

def TreeState.init : TreeState := { root := Root.init, slab := [] }

structure TreeState.Ok (k : Nat) (s : TreeState) : Prop where
  root : RootOk k s.root
  slab : ∀ n ∈ s.slab, Zeroed n

theorem mapShift_pos (baseSmall : Bool) : 0 < mapShift baseSmall := by
  cases baseSmall <;> decide

theorem TreeState.init_ok (k : Nat) : TreeState.init.Ok k := ⟨RootOk.init, nofun⟩

/-- An item that may be inserted: not NULL, and told from a node by its low bit. -/
def ItemOk (item : BitVec 32) : Prop := item ≠ 0 ∧ item.getLsbD 0 = false

/-! ### The tree as a map -/

/-- A call; an insertion comes with what the allocations it makes will do. -/
inductive MapCall where
  | insert (index item : BitVec 32) (choices : List Choice)
  | delete (index : BitVec 32)
  | lookup (index : BitVec 32)

/-- What a call returns. -/
inductive Ret where
  | code (error : Int)
  | ptr (p : Ptr)

def mapStep (k : Nat) (s : TreeState) : MapCall → Option (TreeState × Ret)
  | .insert index item choices =>
    (radixTreeInsert k s.root { slab := s.slab, choices := choices } index item).map
      fun (root, m, ret) => ({ root := root, slab := m.slab }, .code ret)
  | .delete index =>
    (radixTreeDelete k s.root { slab := s.slab, choices := [] } index).map
      fun (root, m, slot) => ({ root := root, slab := m.slab }, .ptr slot)
  | .lookup index => (radixTreeLookup k s.root index).map fun p => (s, .ptr p)

/-- A finite map from indices to items. -/
abbrev ItemMap := BitVec 32 → Option (BitVec 32)

/-- The pointer that stands for an entry of the map. -/
def Ptr.ofEntry : Option (BitVec 32) → Ptr
  | none => .null
  | some v => .item v

/-- What the calls do to a map and return. -/
inductive MapSpec : ItemMap → MapCall → Ret → ItemMap → Prop
  | insert (f : ItemMap) (index item : BitVec 32) (choices : List Choice) : f index = none →
      MapSpec f (.insert index item choices) (.code 0) (Function.update f index (some item))
  | nomem (f : ItemMap) (index item : BitVec 32) (choices : List Choice) : f index = none →
      MapSpec f (.insert index item choices) (.code (-ENOMEM)) f
  | exist (f : ItemMap) (index item : BitVec 32) (choices : List Choice) : f index ≠ none →
      MapSpec f (.insert index item choices) (.code (-EEXIST)) f
  | delete (f : ItemMap) (index : BitVec 32) :
      MapSpec f (.delete index) (.ptr (.ofEntry (f index))) (Function.update f index none)
  | lookup (f : ItemMap) (index : BitVec 32) :
      MapSpec f (.lookup index) (.ptr (.ofEntry (f index))) f

/-- The items that a call passes. -/
def MapCall.ItemsOk : MapCall → Prop
  | .insert _ item _ => ItemOk item
  | _ => True

/-- A tree and the map it stands for. -/
structure Represents (k : Nat) (s : TreeState) (f : ItemMap) : Prop where
  ok : s.Ok k
  find : ∀ i : BitVec 32, s.root.find k i.toNat = .ofEntry (f i)

theorem Ptr.ofEntry_eq_null : Ptr.ofEntry e = .null ↔ e = none := by
  cases e with
  | none => exact ⟨fun _ => rfl, fun _ => rfl⟩
  | some v => exact ⟨nofun, nofun⟩

theorem mapStep_spec (hk : 0 < k) (s : TreeState) (f : ItemMap) (call : MapCall)
    (h : Represents k s f) (hitem : call.ItemsOk) :
    ∃ s' ret f', mapStep k s call = some (s', ret) ∧ MapSpec f call ret f' ∧
      Represents k s' f' := by
  cases call with
  | insert index item choices =>
    obtain ⟨r', m', ret, hins, hr', hm', -, hres⟩ :=
      @radixTreeInsert_spec k s.root { slab := s.slab, choices := choices } index item hk hitem.1
        hitem.2 h.ok.root h.ok.slab
    have hstep : mapStep k s (.insert index item choices) =
        some ({ root := r', slab := m'.slab }, .code ret) := by
      rw [mapStep, hins]
      rfl
    cases hres with
    | done hnull hnew =>
      rw [h.find] at hnull
      refine ⟨_, _, _, hstep, .insert f index item choices (Ptr.ofEntry_eq_null.mp hnull),
        ⟨hr', hm'⟩, fun i => ?_⟩
      show r'.find k i.toNat = _
      rw [hnew]
      by_cases hi : i = index
      · rw [hi, if_pos rfl, update_self]
        rfl
      · rw [if_neg fun h => hi (eq_of_toNat_eq h), update_of_ne hi, h.find]
    | nomem hnull hsame =>
      rw [h.find] at hnull
      exact ⟨_, _, _, hstep, .nomem f index item choices (Ptr.ofEntry_eq_null.mp hnull),
        ⟨hr', hm'⟩, fun i => (hsame _).trans (h.find i)⟩
    | exist hnonnull hsame =>
      rw [h.find] at hnonnull
      exact ⟨_, _, _, hstep,
        .exist f index item choices fun hn => hnonnull (Ptr.ofEntry_eq_null.mpr hn),
        ⟨hr', hm'⟩, fun i => (hsame _).trans (h.find i)⟩
  | delete index =>
    obtain ⟨r', m', hdel, hr', hm', hdeleted⟩ :=
      @radixTreeDelete_spec k s.root { slab := s.slab, choices := [] } index h.ok.root h.ok.slab
    refine ⟨{ root := r', slab := m'.slab }, _, _, ?_, .delete f index, ⟨hr', hm'⟩, fun i => ?_⟩
    · rw [mapStep, hdel, h.find]
      rfl
    show r'.find k i.toNat = _
    rw [hdeleted.find]
    by_cases hi : i = index
    · rw [hi, if_pos rfl, update_self]
      rfl
    · rw [if_neg fun h => hi (eq_of_toNat_eq h), update_of_ne hi, h.find]
  | lookup index =>
    refine ⟨s, _, f, ?_, .lookup f index, h⟩
    rw [mapStep, radixTreeLookup_spec h.ok.root, h.find]
    rfl

/-- **The radix tree is a finite map.** Whatever the allocations do, every sequence of
insertions, deletions and lookups goes through and returns what a map would; in the end each
index is looked up to its entry in the map. -/
theorem radix_tree_refines_map (baseSmall : Bool) (calls : List MapCall)
    (hitems : ∀ call ∈ calls, call.ItemsOk) :
    ∃ rets s f, Run.outputs (mapStep (mapShift baseSmall)) TreeState.init calls = some (rets, s) ∧
      Run.Allows MapSpec (fun _ => none) calls rets f ∧
      ∀ i, radixTreeLookup (mapShift baseSmall) s.root i = some (.ofEntry (f i)) := by
  have hinit : Represents (mapShift baseSmall) TreeState.init (fun _ => none) :=
    ⟨TreeState.init_ok _, fun i => find_init i.toNat⟩
  obtain ⟨rets, s, f, hrun, hall, hrep⟩ :=
    Run.simulate (mapStep_spec (mapShift_pos baseSmall)) hinit calls hitems
  exact ⟨rets, s, f, hrun, hall, fun i => by rw [radixTreeLookup_spec hrep.ok.root, hrep.find]⟩

/-- A run in which the tree grows, an allocation fails and the tree shrinks again. -/
def someCalls : List MapCall :=
  [.insert 0 8 [], .insert 70 16 [.fresh, .fail], .insert 70 16 [.fresh, .fresh], .lookup 0,
    .delete 70, .insert 1 24 [.reuse 0]]

theorem radix_tree_refines_map_some :
    ∃ rets s f, Run.outputs (mapStep (mapShift false)) TreeState.init someCalls = some (rets, s) ∧
      Run.Allows MapSpec (fun _ => none) someCalls rets f ∧
      ∀ i, radixTreeLookup (mapShift false) s.root i = some (.ofEntry (f i)) := by
  refine radix_tree_refines_map false someCalls fun call hcall => ?_
  change call ∈ [_, _, _, _, _, _] at hcall
  fin_cases hcall
  · exact ⟨by decide, by decide⟩
  · exact ⟨by decide, by decide⟩
  · exact ⟨by decide, by decide⟩
  · trivial
  · trivial
  · exact ⟨by decide, by decide⟩

/-- An item with its low bit set is not NULL, and stops the kernel. -/
theorem insert_odd_item_stops : (1 : BitVec 32) ≠ 0 ∧ ∀ baseSmall,
    Run.outputs (mapStep (mapShift baseSmall)) TreeState.init [.insert 0 1 []] = none :=
  ⟨by decide, fun _ => rfl⟩

/-! ### The tags of the items -/

/-- A call that may change tags. -/
inductive TagCall where
  | insert (index item : BitVec 32) (choices : List Choice)
  | delete (index : BitVec 32)
  | tagSet (index : BitVec 32) (tag : Tag)
  | tagClear (index : BitVec 32) (tag : Tag)

/-- A tree with the history of its tags: which items were tagged since their insertion and
not cleared. -/
structure TagState extends TreeState where
  tagged : Tag → BitVec 32 → Bool

def TagState.init : TagState := { TreeState.init with tagged := fun _ _ => false }

def setTagged (f : Tag → BitVec 32 → Bool) (index : BitVec 32) (tags : Tag → Prop)
    [DecidablePred tags] (v : Bool) : Tag → BitVec 32 → Bool :=
  fun t i => if tags t ∧ i = index then v else f t i

def tagStep (k : Nat) (s : TagState) : TagCall → Option TagState
  | .insert index item choices =>
    (radixTreeInsert k s.root { slab := s.slab, choices := choices } index item).map
      fun (root, m, ret) =>
        { root := root
          slab := m.slab
          tagged := if ret = 0 then setTagged s.tagged index (fun _ => True) false else s.tagged }
  | .delete index =>
    (radixTreeDelete k s.root { slab := s.slab, choices := [] } index).map fun (root, m, _) =>
      { root := root
        slab := m.slab
        tagged := setTagged s.tagged index (fun _ => True) false }
  | .tagSet index tag =>
    (radixTreeTagSet k s.root index tag).map fun (root, _) =>
      { s with root := root, tagged := setTagged s.tagged index (· = tag) true }
  | .tagClear index tag =>
    (radixTreeTagClear k s.root index tag).map fun (root, _) =>
      { s with root := root, tagged := setTagged s.tagged index (· = tag) false }

/-- What callers keep to: items as above, and tags are set and cleared on present indices. -/
def TagCall.Legal (k : Nat) (s : TagState) : TagCall → Prop
  | .insert _ item _ => ItemOk item
  | .delete _ => True
  | .tagSet index _ => ∃ v, radixTreeLookup k s.root index = some (.item v)
  | .tagClear index _ => ∃ v, radixTreeLookup k s.root index = some (.item v)

/-- Below a pointer `h` levels high, to the items whose index starts with `base`, every node's
bit for a slot is set exactly when an item below the slot is tagged. -/
def BitsExact (k : Nat) (t : Tag) (tagged : BitVec 32 → Bool) : Nat → Ptr → Nat → Prop
  | h + 1, .node n, base => ∀ i < 2 ^ k,
      (n.tags t i = true ↔ ∃ x : BitVec 32, above k h x.toNat = base * 2 ^ k + i ∧
      tagged x = true) ∧
        BitsExact k t tagged h (n.slots i) (base * 2 ^ k + i)
  | _, _, _ => True

/-- The tags of a tree are exact: for each item, at each node and at the root. -/
structure TagsExact (k : Nat) (s : TagState) : Prop where
  get : ∀ t i, radixTreeTagGet k s.root i t = some (s.tagged t i)
  nodes : ∀ t, BitsExact k t (s.tagged t) s.root.height s.root.rnode 0
  root : ∀ t, radixTreeTagged s.root t = true ↔ ∃ i, s.tagged t i = true

/-- The invariant of a run: the tree is well formed and its tags are those of the history. -/
structure TagState.Ok (k : Nat) (s : TagState) : Prop where
  tree : s.toTreeState.Ok k
  tagged : ∀ t (i : BitVec 32), s.root.tagOf k t i.toNat = s.tagged t i

theorem toNat_ofNat_of_lt (hx : x < 2 ^ 32) : (BitVec.ofNat 32 x).toNat = x := by
  rw [toNat_ofNat, Nat.mod_eq_of_lt hx]

theorem bitsExact_of_bitAt {k h base : Nat} {t : Tag} {tagged : BitVec 32 → Bool} {p : Ptr}
    {f : Nat → Bool} (bit : Bool) (hf : ∀ i : BitVec 32, f i.toNat = tagged i)
    (hbound : ∀ x, f x = true → x < 2 ^ 32) (hp : WF k h p)
    (hbits : ∀ x, above k h x = base → f x = bitAt k t h bit p x) :
    BitsExact k t tagged h p base := by
  induction h generalizing p bit base with
  | zero => trivial
  | succ h ih =>
    rcases hp with rfl | ⟨n, rfl, hn⟩
    · trivial
    intro i hi
    have hslot : ∀ x, above k h x = base * 2 ^ k + i →
        f x = bitAt k t h (n.tags t i) (n.slots i) x := by
      intro x hx
      obtain ⟨habove, hd⟩ := above_succ_of_above hi hx
      rw [hbits x habove]
      show bitAt k t h (n.tags t (digit k h x)) (n.slots (digit k h x)) x = _
      rw [hd]
    refine ⟨?_, ih (n.tags t i) (hn.slots i) hslot⟩
    rw [bit_iff_exists (hn.slots i) (hn.tags t i)]
    constructor
    · rintro ⟨x, hx⟩
      obtain ⟨y, hy, hlow⟩ := exists_above_low k h (base * 2 ^ k + i) x
      have hfy : f y = true := by rw [hslot y hy, bitAt_congr hlow, hx]
      have hy32 := toNat_ofNat_of_lt (hbound y hfy)
      refine ⟨BitVec.ofNat 32 y, by rw [hy32, hy], ?_⟩
      rw [← hf, hy32, hfy]
    · rintro ⟨x, hx, htag⟩
      exact ⟨x.toNat, by rw [← hslot _ hx, hf, htag]⟩

theorem TagState.Ok.exact {k : Nat} {s : TagState} (h : s.Ok k) : TagsExact k s := by
  have hr := h.tree.root
  have hbound : ∀ t x, s.root.tagOf k t x = true → x < 2 ^ 32 :=
    fun t x hx => hr.bounded x (hr.find_of_tagOf hx)
  refine ⟨?_, ?_, ?_⟩
  · intro t i
    rw [radixTreeTagGet_spec t hr, h.tagged]
  · intro t
    refine bitsExact_of_bitAt (s.root.tags t) (h.tagged t) (hbound t) hr.wf fun x hx => ?_
    exact if_pos ((Nat.div_eq_zero_iff_lt (Nat.two_pow_pos _)).mp hx)
  · intro t
    show s.root.tags t = true ↔ _
    rw [hr.tags_iff t]
    constructor
    · rintro ⟨x, hx⟩
      refine ⟨BitVec.ofNat 32 x, ?_⟩
      rw [← h.tagged, toNat_ofNat_of_lt (hbound t x hx), hx]
    · rintro ⟨i, hi⟩
      exact ⟨i.toNat, by rw [h.tagged, hi]⟩

theorem tagStep_ok (hk : 0 < k) (s : TagState) (call : TagCall) (h : s.Ok k)
    (hlegal : call.Legal k s) : ∃ s', tagStep k s call = some s' ∧ s'.Ok k := by
  cases call with
  | insert index item choices =>
    obtain ⟨r', m', ret, hins, hr', hm', htags, hres⟩ :=
      @radixTreeInsert_spec k s.root { slab := s.slab, choices := choices } index item hk hlegal.1
        hlegal.2 h.tree.root h.tree.slab
    have hstep : tagStep k s (.insert index item choices) =
        some { root := r'
               slab := m'.slab
               tagged := if ret = 0 then setTagged s.tagged index (fun _ => True) false
                 else s.tagged } := by
      rw [tagStep, hins]
      rfl
    refine ⟨_, hstep, ⟨hr', hm'⟩, fun t i => ?_⟩
    dsimp only
    rw [htags, h.tagged]
    -- An item that is new was not in the tree, and so carries no tag.
    cases hres with
    | done hnull _ =>
      rw [if_pos rfl, setTagged]
      split
      · rename_i hi
        rw [← h.tagged, hi.2]
        exact Bool.eq_false_iff.mpr fun htag => h.tree.root.find_of_tagOf htag hnull
      · rfl
    | nomem _ _ => rw [if_neg (by decide)]
    | exist _ _ => rw [if_neg (by decide)]
  | delete index =>
    obtain ⟨r', m', hdel, hr', hm', hdeleted⟩ :=
      @radixTreeDelete_spec k s.root { slab := s.slab, choices := [] } index h.tree.root h.tree.slab
    have hstep : tagStep k s (.delete index) =
        some { root := r'
               slab := m'.slab
               tagged := setTagged s.tagged index (fun _ => True) false } := by
      rw [tagStep, hdel]
      rfl
    refine ⟨_, hstep, ⟨hr', hm'⟩, fun t i => ?_⟩
    dsimp only
    rw [hdeleted.tagOf, h.tagged, setTagged]
    simp [toNat_inj]
  | tagSet index tag =>
    obtain ⟨v, hlookup⟩ := hlegal
    rw [radixTreeLookup_spec h.tree.root] at hlookup
    have hfind : s.root.find k index.toNat ≠ .null := by
      rw [Option.some.inj hlookup]
      exact nofun
    obtain ⟨r', hset, hr', -, htags⟩ := radixTreeTagSet_spec tag h.tree.root hfind
    have hstep : tagStep k s (.tagSet index tag) =
        some { s with root := r', tagged := setTagged s.tagged index (· = tag) true } := by
      rw [tagStep, hset]
      rfl
    refine ⟨_, hstep, ⟨hr', h.tree.slab⟩, fun t i => ?_⟩
    dsimp only
    rw [htags, h.tagged, setTagged]
    simp only [toNat_inj]
  | tagClear index tag =>
    obtain ⟨r', hclear, hr', -, -, htags⟩ := @radixTreeTagClear_spec k s.root index tag h.tree.root
    have hstep : tagStep k s (.tagClear index tag) =
        some { s with root := r', tagged := setTagged s.tagged index (· = tag) false } := by
      rw [tagStep, hclear]
      rfl
    refine ⟨_, hstep, ⟨hr', h.tree.slab⟩, fun t i => ?_⟩
    dsimp only
    rw [htags, h.tagged, setTagged]
    simp only [toNat_inj]

theorem tagStep_always (baseSmall : Bool) (hlegal : Run.Along (tagStep (mapShift baseSmall))
      (fun s call => call.Legal (mapShift baseSmall) s) TagState.init calls) :
    Run.Always (tagStep (mapShift baseSmall)) (TagState.Ok (mapShift baseSmall))
      TagState.init calls :=
  Run.always_of_along (tagStep_ok (mapShift_pos baseSmall))
    ⟨TreeState.init_ok _, fun t i => tagOf_init t i.toNat⟩ hlegal

/-- **Tag summaries are exact.** In every state of every run of insertions, deletions and
changes of tags, `radix_tree_tag_get` tells what was tagged, each node's bits sum up the items
below its slots, and the root's bits the whole tree. -/
theorem radix_tree_tags_exact (baseSmall : Bool) (calls : List TagCall)
    (hlegal : Run.Along (tagStep (mapShift baseSmall))
      (fun s call => call.Legal (mapShift baseSmall) s) TagState.init calls) :
    Run.Always (tagStep (mapShift baseSmall)) (TagsExact (mapShift baseSmall)) TagState.init
      calls :=
  (tagStep_always baseSmall hlegal).imp fun _ h => h.exact

/-- Two items are inserted, the second is tagged, a level is added above it, and it goes. -/
def someTagCalls : List TagCall :=
  [.insert 0 8 [], .insert 1 16 [.fresh], .tagSet 1 (Fin.last 2),
    .insert 64 24 [.fresh, .fresh], .delete 1]

theorem someTagCalls_legal : Run.Along (tagStep (mapShift false))
    (fun s call => call.Legal (mapShift false) s) TagState.init someTagCalls := by
  refine ⟨⟨by decide, by decide⟩, ?_⟩
  rintro _ ⟨⟩
  refine ⟨⟨by decide, by decide⟩, ?_⟩
  rintro _ ⟨⟩
  refine ⟨⟨16, rfl⟩, ?_⟩
  rintro _ ⟨⟩
  refine ⟨⟨by decide, by decide⟩, ?_⟩
  rintro _ ⟨⟩
  refine ⟨trivial, ?_⟩
  rintro _ ⟨⟩
  trivial

theorem radix_tree_tags_exact_some :
    Run.Always (tagStep (mapShift false)) (TagsExact (mapShift false)) TagState.init someTagCalls :=
  radix_tree_tags_exact false someTagCalls someTagCalls_legal

end SilanKernel.Lib
