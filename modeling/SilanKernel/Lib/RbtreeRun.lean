import SilanKernel.Lib.RbtreeLoops

/-!
# SilanKernel.Lib.RbtreeRun

**A red-black tree in use**: nodes are linked at free places, erased and replaced, in any order.

The user of `lib/rbtree.c` finds the place for a new node itself. All the library is told is the
parent and the link; so the sequence of the nodes in order, which the user relies on, is kept
here next to the heap, and each call changes it in the way its name says. In every state of a run
the heap holds a tree with that sequence of nodes, with its parent pointers and its colours right.
-/

namespace SilanKernel.Rbtree

open List

/-- The calls. The link of an insertion is a child of `parent`, or the root if that is null. -/
inductive RbCall where
  | insert (node parent : Ptr) (link : Dir)
  | erase (node : Ptr)
  | replace (victim new : Ptr)
  deriving DecidableEq, Repr

def rbCall (h : Heap) : RbCall → Option Heap
  | .insert node parent link => do
    let h ← rbLinkNode h node parent link
    heapInsertColor h node
  | .erase node => heapErase h node
  | .replace victim new => rbReplaceNode h victim new

/-- `x` next to `p`, on the side `d` of it. -/
def beside (p x : Ptr) (d : Dir) (z : Ptr) : List Ptr :=
  if z = p then
    match d with
    | .left => [x, z]
    | .right => [z, x]
  else [z]

/-- The nodes in order after a call. -/
def orderAfter (order : List Ptr) : RbCall → List Ptr
  | .insert node parent link =>
    if parent = 0 then [node] else order.flatMap (beside parent node link)
  | .erase node => order.erase node
  | .replace victim new => order.map fun z => if z = victim then new else z

/-- A node that is in no tree yet. -/
def Fresh (order : List Ptr) (x : Ptr) : Prop := x ≠ 0 ∧ Aligned x ∧ x ∉ order

/-- What the caller has to see to. -/
def RbCall.Legal (s : Heap × List Ptr) : RbCall → Prop
  | .insert node parent link =>
    Fresh s.2 node ∧ (parent = 0 ∧ s.1.root = 0 ∨ parent ∈ s.2 ∧ (s.1.mem parent).child link = 0)
  | .erase node => node ∈ s.2
  | .replace victim new => victim ∈ s.2 ∧ Fresh s.2 new

def rbStep (s : Heap × List Ptr) (call : RbCall) : Option (Heap × List Ptr) :=
  (rbCall s.1 call).map fun h => (h, orderAfter s.2 call)

/-- The heap holds a red-black tree with these nodes in order. -/
def RbOk (s : Heap × List Ptr) : Prop := ∃ t, t.toList = s.2 ∧ Holds s.1 [] t ∧ Valid t

variable {h : Heap} {order : List Ptr} {t : Tree Ptr} {x y p : Ptr} {d : Dir} {path : Path Ptr}

/-! ### The place of a member -/

/-- The cursor goes to a member of the tree. -/
theorem holds_at (hh : Holds h [] t) (hx : x ∈ t.toList) :
    ∃ path c l r, plug path (.node c l x r) = t ∧ Holds h path (.node c l x r) := by
  obtain ⟨⟨path, c, l, r⟩, hloc⟩ := locate_of_mem (p := []) hx
  have hplug : plug path (.node c l x r) = t := locate_plug hloc
  refine ⟨path, c, l, r, hplug, holds_plug.mpr ?_⟩
  rwa [hplug]

theorem Holds.nodup_toList (hh : Holds h [] t) : t.toList.Nodup := by
  have hnd := hh.nodup
  rwa [pathNodes, append_nil] at hnd

/-- What is before and after the node at the cursor. -/
theorem Holds.split (hh : Holds h path (.node c l x r)) :
    (plug path (.node c l x r)).toList = (before path ++ l.toList) ++ x ::
      (r.toList ++ after path) ∧ x ∉ before path ++ l.toList ∧ x ∉ r.toList ++ after path := by
  have hlist : (plug path (.node c l x r)).toList =
      (before path ++ l.toList) ++ x :: (r.toList ++ after path) := by
    rw [toList_plug, toList_node]
    simp
  have hnd := (holds_plug.mp hh).nodup_toList
  rw [hlist, nodup_middle, nodup_cons, mem_append, not_or] at hnd
  exact ⟨hlist, hnd.1⟩

/-! ### The order after a call -/

theorem flatMap_beside_of_notMem {l : List Ptr} (hp : p ∉ l) : l.flatMap (beside p x d) = l := by
  induction l with
  | nil => rfl
  | cons z l ih =>
    rw [mem_cons, not_or] at hp
    have hz : beside p x d z = [z] := if_neg (Ne.symm hp.1)
    rw [flatMap_cons, ih hp.2, hz, singleton_append]

theorem flatMap_beside {l1 l2 : List Ptr} (h1 : p ∉ l1) (h2 : p ∉ l2) :
    (l1 ++ p :: l2).flatMap (beside p x d) = l1 ++ beside p x d p ++ l2 := by
  rw [flatMap_append, flatMap_cons, flatMap_beside_of_notMem h1,
    flatMap_beside_of_notMem h2, append_assoc]

theorem map_replace (h1 : x ∉ l1) (h2 : x ∉ l2) :
    (l1 ++ x :: l2).map (fun z => if z = x then y else z) = l1 ++ y :: l2 := by
  have hsame : ∀ l : List Ptr, x ∉ l → l.map (fun z => if z = x then y else z) = l := fun l hl => by
    conv_rhs => rw [← map_id l]
    exact map_congr_left fun z hz => if_neg fun hc : z = x => hl (hc ▸ hz)
  rw [map_append, map_cons, if_pos rfl, hsame l1 h1, hsame l2 h2]

/-! ### One call -/

/-- A node linked at a place of the tree. -/
theorem insert_at (hh : Holds h path .leaf) (hv : Valid (plug path .leaf))
    (hx : Fresh (plug path .leaf).toList x) (hd : ∀ f ∈ path.head?, f.dir = d) :
    Ends (rbCall h (.insert x (up path 0) d)) fun h' =>
      RbOk (h', before path ++ x :: after path) := by
  obtain ⟨h0, hal, hmem⟩ := hx
  rw [perm_plug.mem_iff] at hmem
  obtain ⟨t, ht, hvt, hlist⟩ := rbInsert_spec (x := x) hv
  refine .bind (rbLinkNode_spec hh h0 hal hmem hd) fun h1 hh1 => ?_
  exact .mono (heapInsertColor_spec hh1 nofun ht) fun h2 hh2 => ⟨t, hlist, hh2, hvt⟩

theorem insert_ok (hok : RbOk (h, order)) (hlegal : (RbCall.insert x p d).Legal (h, order)) :
    Ends (rbCall h (.insert x p d)) fun h' => RbOk (h', orderAfter order (.insert x p d)) := by
  obtain ⟨t, rfl, hh, hv⟩ := hok
  obtain ⟨hx, ⟨rfl, hroot⟩ | ⟨hp, hfree⟩⟩ := hlegal
  · obtain rfl : t = .leaf := not_not.mp fun hne => hh.tree.rootPtr_ne hne
      (hh.root.symm.trans hroot)
    rw [orderAfter, if_pos rfl]
    exact insert_at hh hv hx nofun
  obtain ⟨path, c, l, r, rfl, hat⟩ := holds_at hh hp
  obtain ⟨hlist, hbefore, hafter⟩ := hat.split
  have horder : orderAfter (plug path (.node c l p r)).toList (.insert x p d) =
      (before path ++ l.toList) ++ beside p x d p ++ (r.toList ++ after path) := by
    rw [orderAfter, if_neg hat.tree.1, hlist, flatMap_beside hbefore hafter]
  rw [horder]
  have hjoin := hat
  rw [node_eq_join d] at hjoin
  obtain ⟨-, -, hmem, hnear, -⟩ := isTree_join.mp hjoin.tree
  have hleaf : (Tree.node c l p r).child d = .leaf := not_not.mp fun hne => by
    refine hnear.rootPtr_ne hne ?_
    rw [hmem, nodeAt_child] at hfree
    exact hfree
  rw [hleaf] at hjoin
  have hplug : plug path (.node c l p r) =
      plug (⟨d, c, p, (Tree.node c l p r).child d.flip⟩ :: path) .leaf := by
    rw [plug, Frame.fill, ← hleaf, ← node_eq_join]
  rw [hplug] at hv hx
  have hinsert := insert_at (d := d) (holds_near.mp hjoin) hv hx (by simp)
  cases d with
  | left =>
    obtain rfl : l = .leaf := hleaf
    simpa [before, after, beside, Tree.child, Dir.flip, up] using hinsert
  | right =>
    obtain rfl : r = .leaf := hleaf
    simpa [before, after, beside, Tree.child, Dir.flip, up] using hinsert

theorem erase_ok (hok : RbOk (h, order)) (hx : x ∈ order) :
    Ends (rbCall h (.erase x)) fun h' => RbOk (h', orderAfter order (.erase x)) := by
  obtain ⟨t, rfl, hh, hv⟩ := hok
  obtain ⟨path, c, l, r, rfl, hat⟩ := holds_at hh hx
  obtain ⟨hlist, hbefore, -⟩ := hat.split
  obtain ⟨t', ht', hv'⟩ := eraseAt_valid hv
  refine .mono (heapErase_spec hat ht') fun h' hh' => ⟨t', ?_, hh', hv'⟩
  rw [eraseAt_toList ht', orderAfter, hlist, erase_append_right _ hbefore, erase_cons_head]
  simp

theorem replace_ok (hok : RbOk (h, order)) (hx : x ∈ order) (hy : Fresh order y) :
    Ends (rbCall h (.replace x y)) fun h' => RbOk (h', orderAfter order (.replace x y)) := by
  obtain ⟨t, rfl, hh, hv⟩ := hok
  obtain ⟨path, c, l, r, rfl, hat⟩ := holds_at hh hx
  obtain ⟨hlist, hbefore, hafter⟩ := hat.split
  obtain ⟨hy0, hyal, hmem⟩ := hy
  rw [perm_plug.mem_iff] at hmem
  refine .mono (rbReplaceNode_spec hat hy0 hyal hmem) fun h' hh' =>
    ⟨_, ?_, holds_plug.mp hh', hv.set_entry⟩
  rw [orderAfter, hlist, map_replace hbefore hafter, toList_plug, toList_node]
  simp

/-! ### Runs -/

/-- **A legal call keeps the tree.** -/
theorem rbStep_ok (s : Heap × List Ptr) (call : RbCall) (hok : RbOk s) (hlegal : call.Legal s) :
    ∃ s', rbStep s call = some s' ∧ RbOk s' := by
  have hcall : Ends (rbCall s.1 call) fun h' => RbOk (h', orderAfter s.2 call) := by
    cases call with
    | insert node parent link => exact insert_ok hok hlegal
    | erase node => exact erase_ok hok hlegal
    | replace victim new => exact replace_ok hok hlegal.1 hlegal.2
  obtain ⟨h', hrun, hok'⟩ := hcall
  refine ⟨_, ?_, hok'⟩
  rw [rbStep, hrun]
  rfl

theorem rbOk_empty (mem : Ptr → RbNode) : RbOk (Heap.empty mem, []) :=
  ⟨.leaf, rfl, ⟨rfl, trivial, trivial, nodup_nil⟩, valid_leaf⟩

/-- **Along every sequence of insertions, removals and replacements** from an empty root, no
null pointer is followed, every call returns, and after each call the heap holds a red-black
tree with the nodes in the order the calls ask for. -/
theorem rbStep_always_rbOk (mem : Ptr → RbNode) (calls : List RbCall)
    (hlegal : Run.Along rbStep (fun s call => call.Legal s) (Heap.empty mem, []) calls) :
    Run.Always rbStep RbOk (Heap.empty mem, []) calls :=
  Run.always_of_along rbStep_ok (rbOk_empty mem) hlegal

/-- Three nodes linked in a row, so that the tree is rotated, then the middle one is replaced and
the first one erased. -/
def threeInARow : List RbCall :=
  [.insert 4 0 .left, .insert 8 4 .right, .insert 12 8 .right, .replace 8 16, .erase 4]

theorem rbStep_threeInARow :
    Run.Always rbStep RbOk (Heap.empty fun _ => ⟨0, 0, 0⟩, []) threeInARow := by
  refine rbStep_always_rbOk (fun _ => ⟨0, 0, 0⟩) threeInARow ?_
  refine ⟨⟨⟨by decide, by decide, by decide⟩, .inl ⟨rfl, rfl⟩⟩, ?_⟩
  rintro _ ⟨⟩
  refine ⟨⟨⟨by decide, by decide, by decide⟩, .inr ⟨by decide, by decide⟩⟩, ?_⟩
  rintro _ ⟨⟩
  refine ⟨⟨⟨by decide, by decide, by decide⟩, .inr ⟨by decide, by decide⟩⟩, ?_⟩
  rintro _ ⟨⟩
  refine ⟨⟨by decide, by decide, by decide, by decide⟩, ?_⟩
  rintro _ ⟨⟩
  refine ⟨(by decide : (4 : Ptr) ∈ [4, 16, 12]), ?_⟩
  rintro _ ⟨⟩
  trivial

/-- The nodes on the longest way down. -/
def Tree.height : Tree α → Nat
  | .leaf => 0
  | .node _ l _ r => max l.height r.height + 1

/-- At most every second node of a way down is red, and the black ones fill their levels. -/
theorem RB.height_le (h : RB t c n) : t.height ≤ 2 * n + (if c = .red then 1 else 0) ∧
    2 ^ n ≤ t.size + 1 := by
  induction h with
  | leaf => exact ⟨Nat.le_refl 0, Nat.le_refl 1⟩
  | red hl hr ihl ihr =>
    simp only [Tree.height, Tree.size, reduceCtorEq, if_false, if_true] at *
    omega
  | black hl hr ihl ihr =>
    simp only [Tree.height, Tree.size, reduceCtorEq, if_false, Nat.pow_succ]
    split at ihl <;> split at ihr <;> omega

/-- The tree in the heap has at most `2 * log₂ (n + 1)` levels, for `n` nodes. -/
def Shallow (s : Heap × List Ptr) : Prop :=
  ∃ t, t.toList = s.2 ∧ Holds s.1 [] t ∧ t.height ≤ 2 * (s.2.length + 1).log2

/-- **No way down is long**, in any state of a run. -/
theorem rbStep_always_shallow (mem : Ptr → RbNode) (calls : List RbCall)
    (hlegal : Run.Along rbStep (fun s call => call.Legal s) (Heap.empty mem, []) calls) :
    Run.Always rbStep Shallow (Heap.empty mem, []) calls := by
  refine (Run.always_of_along rbStep_ok (rbOk_empty mem) hlegal).imp fun s hok => ?_
  obtain ⟨t, ht, hh, n, hrb⟩ := hok
  obtain ⟨hheight, hsize⟩ := hrb.height_le
  have hlog := (Nat.le_log2 (Nat.succ_ne_zero t.size)).mpr hsize
  refine ⟨t, ht, hh, ?_⟩
  rw [← ht, length_toList]
  exact Nat.le_trans hheight (Nat.mul_le_mul_left 2 hlog)

theorem rbStep_always_shallow_one :
    Run.Always rbStep Shallow (Heap.empty fun _ => ⟨0, 0, 0⟩, []) [.insert 4 0 .left] :=
  rbStep_always_shallow _ _ ⟨⟨⟨by decide, by decide, by decide⟩, .inl ⟨rfl, rfl⟩⟩,
    fun _ _ => trivial⟩

end SilanKernel.Rbtree
