import SilanKernel.Lib.RbtreeRun

/-!
# SilanKernel.Lib.RbtreeWalk

Going through a red-black tree in order: `rb_next`, `rb_prev`, `rb_first` and `rb_last` of
`lib/rbtree.c`.

The two directions are mirror images, so the side is a parameter as in
`SilanKernel.Lib.RbtreeHeap`: `rbNeighbour .right` is `rb_next`. On a tree whose nodes are in
the order `l₁ ++ x :: l₂` the neighbours of `x` are the last of `l₁` and the first of `l₂`.
-/

namespace SilanKernel.Rbtree

open Heap List Option

/-- `while (n->rb_left) n = n->rb_left;` for the side `left` -/
def goEnd (d : Dir) : Nat → Heap → Ptr → Option Ptr
  | 0, _, _ => none
  | fuel + 1, h, node => do
    let n ← h.load node
    if n.child d = 0 then some node else goEnd d fuel h (n.child d)

/-- `while ((parent = rb_parent(node)) && node == parent->rb_right) node = parent;` for the
side `right`, and the parent it stops at. -/
def goUp (d : Dir) : Nat → Heap → Ptr → Option Ptr
  | 0, _, _ => none
  | fuel + 1, h, node => do
    let n ← h.load node
    if n.rbParent = 0 then some 0
    else
      let p ← h.load n.rbParent
      if node = p.child d then goUp d fuel h n.rbParent else some n.rbParent

/-- `rb_next` for the side `right`, `rb_prev` for the side `left` -/
def rbNeighbour (d : Dir) (h : Heap) (node : Ptr) : Option Ptr := do
  let n ← h.load node
  if n.rbParent = node then some 0
  else if n.child d ≠ 0 then goEnd d.flip loopBound h (n.child d)
  else goUp d loopBound h node

def rbNext (h : Heap) (node : Ptr) : Option Ptr := rbNeighbour .right h node

def rbPrev (h : Heap) (node : Ptr) : Option Ptr := rbNeighbour .left h node

/-- `rb_first` for the side `left`, `rb_last` for the side `right` -/
def rbEnd (d : Dir) (h : Heap) : Option Ptr :=
  if h.root = 0 then some 0 else goEnd d loopBound h h.root

def rbFirst (h : Heap) : Option Ptr := rbEnd .left h

def rbLast (h : Heap) : Option Ptr := rbEnd .right h

/-! ### The nodes on one side, the nearest first -/

/-- The nodes of a tree in the order in which one meets them going to the side `d`. -/
def heading (d : Dir) (t : Tree Ptr) : List Ptr :=
  match d with
  | .right => t.toList
  | .left => t.toList.reverse

/-- The nodes around a place that lie on its side `d`. -/
def ahead (d : Dir) (path : Path Ptr) : List Ptr :=
  match d with
  | .right => after path
  | .left => (before path).reverse

section

variable {h : Heap} {d : Dir} {c : Color} {a b t : Tree Ptr} {x p : Ptr} {path : Path Ptr}
  {f : Frame Ptr} {fuel : Nat}

theorem heading_join : heading d (join d.flip c a x b) = heading d a ++ x :: heading d b := by
  cases d with
  | right => rfl
  | left => simp [heading, join, Dir.flip]

theorem ahead_same (hd : f.dir = d) : ahead d (f :: path) = ahead d path := by
  subst hd
  cases hd : f.dir <;> simp [ahead, before, after, hd]

theorem ahead_flip (hd : f.dir = d.flip) :
    ahead d (f :: path) = f.entry :: (heading d f.other ++ ahead d path) := by
  cases d with
  | right => simp [ahead, after, heading, show f.dir = .left from hd]
  | left => simp [ahead, before, heading, show f.dir = .right from hd]

/-- The way down ends at the first node met going back. -/
theorem goEnd_spec (ht : h.IsTree p t) (hne : t ≠ .leaf) (hfuel : t.size ≤ fuel) :
    goEnd d.flip fuel h (rootPtr t) = (heading d t).head? := by
  induction fuel generalizing t p with
  | zero =>
    cases t with
    | leaf => exact absurd rfl hne
    | node => exact absurd hfuel (by simp [Tree.size])
  | succ fuel ih =>
    obtain ⟨c, a, x, b, rfl⟩ : ∃ c a x b, t = join d.flip c a x b := by
      obtain ⟨c, l, x, r, rfl⟩ := exists_node hne
      cases d with
      | right => exact ⟨c, l, x, r, rfl⟩
      | left => exact ⟨c, r, x, l, rfl⟩
    obtain ⟨h0, -, hmem, ha, -⟩ := isTree_join.mp ht
    have hsize : a.size < (join d.flip c a x b).size := by
      cases d <;> simp only [join, Dir.flip, Tree.size] <;> omega
    rw [rootPtr_join, goEnd, load_eq h0, heading_join]
    simp only [bind_eq_bind, bind_some, hmem, nodeAt_child]
    by_cases hleaf : a = .leaf
    · subst hleaf
      rw [if_pos (show rootPtr .leaf = 0 from rfl)]
      cases d <;> rfl
    rw [if_neg (ha.rootPtr_ne hleaf), ih ha hleaf (by omega)]
    have hhead : heading d a ≠ [] := by
      cases a with
      | leaf => exact absurd rfl hleaf
      | node => cases d <;> simp [heading, Tree.toList]
    rw [head?_append_of_ne_nil _ hhead]

/-- The way up ends at the first node around the place, or at the null pointer. -/
theorem goUp_spec (hh : Holds h path t) (hne : t ≠ .leaf) (hfuel : path.length < fuel) :
    goUp d fuel h (rootPtr t) = some ((ahead d path).head?.getD 0) := by
  induction fuel generalizing path t with
  | zero => exact absurd hfuel (Nat.not_lt_zero _)
  | succ fuel ih =>
    have hx0 := hh.tree.rootPtr_ne hne
    have hparent : (h.mem (rootPtr t)).rbParent = up path 0 := by
      obtain ⟨c, l, x, r, rfl⟩ := exists_node hne
      obtain ⟨-, -, hmem, -, -⟩ := hh.tree
      rw [rootPtr, hmem, nodeAt_rbParent hh.seg.aligned_up]
    rw [goUp, load_eq hx0]
    simp only [bind_eq_bind, bind_some, hparent]
    cases path with
    | nil =>
      rw [if_pos (show up [] 0 = 0 from rfl)]
      cases d <;> rfl
    | cons f path =>
      obtain ⟨hf0, -, hfmem, -, -⟩ := hh.seg
      have hsib := hh.ne_sibling (Or.inl hne)
      rw [show up (f :: path) 0 = f.entry from rfl, if_neg hf0, load_eq hf0, bind_some, hfmem]
      by_cases hd : f.dir = d
      · rw [← hd, nodeAt_child, if_pos rfl, hd, ahead_same hd]
        have hup := ih (holds_cons.mp hh) (by rw [Frame.fill]; exact join_ne_leaf)
          (by rw [length_cons] at hfuel; omega)
        rwa [Frame.fill, rootPtr_join] at hup
      · have hflip : f.dir = d.flip := by
          cases hd' : f.dir <;> cases d <;> simp_all [Dir.flip]
        rw [ahead_flip hflip, hflip, nodeAt_flip, nodeAt_child, if_neg hsib]
        rfl

theorem Holds.size_lt (hh : Holds h path t) : t.size < loopBound ∧ path.length < loopBound := by
  have hlen := Memory.length_le_of_nodup hh.nodup
  have hpath : path.length ≤ (pathNodes path).length := length_le_pathNodes
  rw [length_append, length_toList] at hlen
  rw [loopBound]
  omega

/-- **A neighbour** of a node of the tree. -/
theorem rbNeighbour_spec (hh : Holds h path (.node c l x r)) :
    rbNeighbour d h x = some
      ((heading d ((Tree.node c l x r).child d) ++ ahead d path).head?.getD 0) := by
  let t := Tree.node c l x r
  obtain ⟨h0, -, hmem, hl, hr⟩ := hh.tree
  have hchild : (h.mem x).child d = rootPtr (t.child d) := by
    rw [hmem]
    cases d <;> rfl
  have hparent : (h.mem x).rbParent = up path 0 := by
    rw [hmem, nodeAt_rbParent hh.seg.aligned_up]
  have hself : up path 0 ≠ x := by
    cases path with
    | nil => exact Ne.symm h0
    | cons f path =>
      intro hc
      refine (nodup_append.mp hh.nodup).2.2 x ?_ f.entry ?_ hc.symm
      · simp [Tree.toList]
      · simp [pathNodes]
  have hsub : h.IsTree x (t.child d) := by
    cases d with
    | left => exact hl
    | right => exact hr
  rw [rbNeighbour, load_eq h0]
  simp only [bind_eq_bind, bind_some, hparent, hchild]
  rw [if_neg hself]
  by_cases hleaf : t.child d = .leaf
  · rw [hleaf, if_neg (by simp [rootPtr])]
    have hup := goUp_spec (d := d) hh (by simp) hh.size_lt.2
    rw [rootPtr] at hup
    rw [hup]
    cases d <;> rfl
  have hsize : (t.child d).size ≤ loopBound := by
    have := hh.size_lt.1
    simp only [Tree.size] at this
    cases d <;> simp only [t, Tree.child] <;> omega
  rw [if_pos (hsub.rootPtr_ne hleaf), goEnd_spec hsub hleaf hsize]
  cases hlist : heading d (t.child d) with
  | nil =>
    exfalso
    cases hsubt : t.child d with
    | leaf => exact hleaf hsubt
    | node =>
      rw [hsubt] at hlist
      cases d <;> simp [heading, Tree.toList] at hlist
  | cons y ys => rfl

end

variable {h : Heap} {d : Dir} {t : Tree Ptr} {x y : Ptr} {order l1 l2 : List Ptr}

section

variable (hh : Holds h [] t)

include hh

theorem Holds.ne_zero (hx : x ∈ t.toList) : x ≠ 0 := by
  obtain ⟨path, c, l, r, -, hat⟩ := holds_at hh hx
  exact hat.tree.1

/-- The parts of the order around a node of the tree. -/
theorem Holds.around (hlist : t.toList = l1 ++ x :: l2) :
    ∃ path c l r, Holds h path (.node c l x r) ∧ l1 = before path ++ l.toList ∧
      l2 = r.toList ++ after path := by
  have hx : x ∈ t.toList := by
    rw [hlist]
    simp
  obtain ⟨path, c, l, r, rfl, hat⟩ := holds_at hh hx
  obtain ⟨hsplit, hbefore, hafter⟩ := hat.split
  obtain ⟨h1, -, h2⟩ := (append_cons_inj_of_notMem hbefore hafter).mp (hsplit.symm.trans hlist)
  exact ⟨path, c, l, r, hat, h1.symm, h2.symm⟩

/-- The neighbour of a node, by its place in the order. -/
theorem Holds.neighbour (hlist : heading d t = l1 ++ x :: l2) :
    rbNeighbour d h x = some (l2.head?.getD 0) := by
  cases d with
  | right =>
    obtain ⟨path, c, l, r, hat, -, rfl⟩ := hh.around hlist
    exact rbNeighbour_spec hat
  | left =>
    have hrev : t.toList = l2.reverse ++ x :: l1.reverse := by
      rw [← reverse_reverse t.toList, show t.toList.reverse = l1 ++ x :: l2 from hlist]
      simp
    obtain ⟨path, c, l, r, hat, hl2, -⟩ := hh.around hrev
    rw [rbNeighbour_spec hat, ← reverse_reverse l2, hl2]
    simp [heading, ahead, Tree.child]

theorem Holds.rbEnd_eq : rbEnd d.flip h = some ((heading d t).head?.getD 0) := by
  rw [rbEnd, show h.root = rootPtr t from hh.root]
  by_cases hne : t = .leaf
  · subst hne
    cases d <;> rfl
  · rw [if_neg (hh.tree.rootPtr_ne hne), goEnd_spec hh.tree hne (Nat.le_of_lt hh.size_lt.1)]
    cases t with
    | leaf => exact absurd rfl hne
    | node => cases d <;> simp [heading, Tree.toList]

/-! ### Going through the whole tree -/

/-- `for (n = first; n; n = next(n))`: the nodes visited. -/
def visit (next : Heap → Ptr → Option Ptr) (h : Heap) : Nat → Ptr → Option (List Ptr)
  | 0, _ => none
  | fuel + 1, n =>
    if n = 0 then some []
    else do
      let n' ← next h n
      let l ← visit next h fuel n'
      some (n :: l)

/-- The rest of a walk, by induction on what is left of the order. -/
theorem Holds.visit_rest (hlist : heading d t = l1 ++ l2) (hfuel : l2.length < fuel) :
    visit (rbNeighbour d) h fuel (l2.head?.getD 0) = some l2 := by
  induction l2 generalizing l1 fuel with
  | nil =>
    cases fuel with
    | zero => exact absurd hfuel (Nat.not_lt_zero _)
    | succ fuel => exact if_pos rfl
  | cons x l2 ih =>
    cases fuel with
    | zero => exact absurd hfuel (Nat.not_lt_zero _)
    | succ fuel =>
      have hx0 : x ≠ 0 := by
        intro hc
        have hmem : (0 : Ptr) ∈ heading d t := by simp [hlist, hc]
        refine hh.ne_zero ?_ rfl
        cases d <;> simpa [heading] using hmem
      have hlist' : heading d t = (l1 ++ [x]) ++ l2 := by simpa using hlist
      have hrest := ih hlist' (Nat.lt_of_succ_lt_succ hfuel)
      rw [head?_cons, getD_some, visit, if_neg hx0, hh.neighbour hlist]
      simp only [bind_eq_bind, bind_some, hrest]

theorem Holds.visit_all :
    (rbEnd d.flip h).bind (visit (rbNeighbour d) h loopBound) = some (heading d t) := by
  have hlen : (heading d t).length < loopBound := by
    have hsize := hh.size_lt.1
    rw [← length_toList] at hsize
    cases d <;> simpa [heading] using hsize
  rw [hh.rbEnd_eq, bind_some]
  exact hh.visit_rest (nil_append _).symm hlen

end

/-- **Walks through a tree.** From `rb_first` on, `rb_next` gives every node once and in order; from
`rb_last` on, `rb_prev` gives them the other way round; and `rb_prev` takes back `rb_next`. -/
theorem rb_walks (h : Heap) (t : Tree Ptr) (hh : Holds h [] t) :
    (rbFirst h).bind (visit rbNext h loopBound) = some t.toList ∧
    (rbLast h).bind (visit rbPrev h loopBound) = some t.toList.reverse ∧ t.toList.Nodup ∧
    ∀ n ∈ t.toList, ∀ m, rbNext h n = some m → m ≠ 0 → rbPrev h m = some n := by
  refine ⟨hh.visit_all (d := .right), hh.visit_all (d := .left), hh.nodup_toList,
    fun n hn m hnext hm => ?_⟩
  obtain ⟨l1, l2, hlist⟩ := append_of_mem hn
  have hnext' : rbNext h n = some (l2.head?.getD 0) := hh.neighbour (d := .right) hlist
  obtain rfl : m = l2.head?.getD 0 := some.inj (hnext.symm.trans hnext')
  cases l2 with
  | nil => exact absurd rfl hm
  | cons m l2 =>
    have hback : heading .left t = l2.reverse ++ m :: (n :: l1.reverse) := by simp [heading, hlist]
    exact hh.neighbour hback

/-- Two nodes: the root and its left child. -/
def twoNodes : Heap :=
  ⟨fun p => if p = 4 then nodeAt .left 8 .red 0 0 else nodeAt .left 0 .black 4 0, 8⟩

theorem rb_walks_twoNodes : (rbFirst twoNodes).bind (visit rbNext twoNodes loopBound) =
    some [4, 8] :=
  (rb_walks twoNodes (.node .black (.node .red .leaf 4 .leaf) 8 .leaf)
    ⟨rfl, trivial,
    ⟨by decide, by decide, rfl, ⟨by decide, by decide, rfl, trivial, trivial⟩, trivial⟩, by
    decide⟩).1

/-! ### Red-black trees -/

theorem RbOk.around (hok : RbOk (h, l1 ++ x :: l2)) :
    ∃ path c l r, Holds h path (.node c l x r) ∧ l1 = before path ++ l.toList ∧
      l2 = r.toList ++ after path := by
  obtain ⟨t, hlist, hh, -⟩ := hok
  exact hh.around hlist

theorem rbNext_spec (hok : RbOk (h, l1 ++ x :: l2)) : rbNext h x = some (l2.head?.getD 0) := by
  obtain ⟨t, hlist, hh, -⟩ := hok
  exact hh.neighbour (d := .right) hlist

theorem rbPrev_spec (hok : RbOk (h, l1 ++ x :: l2)) : rbPrev h x = some (l1.getLast?.getD 0) := by
  obtain ⟨t, hlist, hh, -⟩ := hok
  have hrev : heading .left t = l2.reverse ++ x :: l1.reverse := by
    simp [heading, show t.toList = _ from hlist]
  rw [rbPrev, hh.neighbour hrev, head?_reverse]

section

variable (hok : RbOk (h, order))

include hok

theorem rbLast_spec : rbLast h = some (order.getLast?.getD 0) := by
  obtain ⟨t, rfl, hh, -⟩ := hok
  rw [← head?_reverse]
  exact hh.rbEnd_eq (d := .left)

/-! ### The order, by what stands where -/

theorem RbOk.nodup : order.Nodup := by
  obtain ⟨t, rfl, hh, -⟩ := hok
  exact hh.nodup_toList

theorem RbOk.ne_zero (hx : x ∈ order) : x ≠ 0 := by
  obtain ⟨t, rfl, hh, -⟩ := hok
  exact hh.ne_zero hx

/-- A tree has fewer nodes than there are pointers. -/
theorem RbOk.length_lt : order.length < 2 ^ 32 := by
  have hnd : (0 :: order).Nodup := nodup_cons.mpr ⟨fun hc => hok.ne_zero hc rfl, hok.nodup⟩
  have hlen := Memory.length_le_of_nodup hnd
  rwa [length_cons] at hlen

theorem RbOk.aligned (hx : x ∈ order) : Aligned x := by
  obtain ⟨t, rfl, hh, -⟩ := hok
  obtain ⟨path, c, l, r, -, hat⟩ := holds_at hh hx
  exact hat.tree.2.1

end

theorem notMem_of_nodup (hnd : (l1 ++ x :: l2).Nodup) : x ∉ l1 ∧ x ∉ l2 := by
  rw [nodup_middle, nodup_cons, mem_append, not_or] at hnd
  exact hnd.1

theorem orderAfter_insert (hok : RbOk (h, l1 ++ y :: l2)) (x : Ptr) (d : Dir) :
    orderAfter (l1 ++ y :: l2) (.insert x y d) = l1 ++ beside y x d y ++ l2 := by
  obtain ⟨h1, h2⟩ := notMem_of_nodup hok.nodup
  rw [orderAfter, if_neg (hok.ne_zero (by simp)), flatMap_beside h1 h2]

/-- A node is taken out. -/
theorem heapErase_order (hok : RbOk (h, l1 ++ x :: l2)) : Ends (heapErase h x) fun h' =>
    RbOk (h', l1 ++ l2) := by
  have herase := erase_ok hok (x := x) (by simp)
  obtain ⟨h1, -⟩ := notMem_of_nodup hok.nodup
  rwa [orderAfter, erase_append_right _ h1, erase_cons_head] at herase

/-- A node takes the place of another. -/
theorem rbReplaceNode_order (hok : RbOk (h, l1 ++ x :: l2)) (hy : Fresh (l1 ++ x :: l2) y) :
    Ends (rbReplaceNode h x y) fun h' => RbOk (h', l1 ++ y :: l2) := by
  have hreplace := replace_ok hok (x := x) (by simp) hy
  obtain ⟨h1, h2⟩ := notMem_of_nodup hok.nodup
  rwa [orderAfter, map_replace h1 h2] at hreplace

end SilanKernel.Rbtree
