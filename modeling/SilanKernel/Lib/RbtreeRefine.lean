import SilanKernel.Data.Run
import SilanKernel.Lib.RbtreeHeap
import SilanKernel.Lib.RbtreeSound

/-!
# SilanKernel.Lib.RbtreeRefine

The heap code **refines** the algorithms on trees with a cursor.

`Holds h path t` says that the heap holds the tree `plug path t`, seen from the place at
`path`: child pointers, parent pointers, colours and the root. The heap is touched in a few
primitives only (a rotation, a change of colour, a link, an unlinking, the exchange of a node
for another); each gets one lemma in terms of `Holds`. From there on the loops are followed by
moving the cursor.
-/

namespace SilanKernel.Rbtree

open List

/-! ### Parent pointer and colour in one word -/

/-- The two low bits of a node's address are 0. -/
def Aligned (p : Ptr) : Prop := p &&& 3 = 0

instance (p : Ptr) : Decidable (Aligned p) := inferInstanceAs (Decidable (p &&& 3 = 0))

def colorBit : Color → BitVec 32
  | .red => RB_RED
  | .black => RB_BLACK

/-- `rb_parent_color` for this parent and colour. -/
def word (p : Ptr) (c : Color) : BitVec 32 := p ||| colorBit c

theorem getLsbD_three (i : Nat) : (3 : BitVec 32).getLsbD i = decide (i < 2) := by
  rw [show (3 : BitVec 32) = (BitVec.allOnes 2).setWidth 32 from rfl, BitVec.getLsbD_setWidth,
    BitVec.getLsbD_allOnes]
  simp only [Bool.and_eq_right_iff_imp, decide_eq_true_eq]
  omega

theorem Aligned.bit (h : Aligned p) (hi : i < 2) : p.getLsbD i = false := by
  have hbit : (p &&& 3).getLsbD i = (0 : BitVec 32).getLsbD i := by rw [show p &&& 3 = 0 from h]
  rw [BitVec.getLsbD_and, getLsbD_three] at hbit
  simpa [hi] using hbit

theorem getLsbD_one (i : Nat) : (1 : BitVec 32).getLsbD i = decide (i = 0) := by
  simp

theorem getLsbD_colorBit (c : Color) (i : Nat) :
    (colorBit c).getLsbD i = (decide (c = .black) && decide (i = 0)) := by
  cases c with
  | red => simp [colorBit, RB_RED]
  | black => simp [colorBit, RB_BLACK]

section

variable {p q : Ptr} {c c' : Color}

section

variable (hp : Aligned p)

include hp

theorem word_parent : word p c &&& ~~~3 = p := by
  refine BitVec.eq_of_getLsbD_eq fun i hi => ?_
  simp only [word, BitVec.getLsbD_and, BitVec.getLsbD_or, BitVec.getLsbD_not, getLsbD_three,
    getLsbD_colorBit, hi, decide_true, Bool.true_and]
  by_cases hlow : i < 2
  · simp [hlow, hp.bit hlow]
  · simp [hlow, show i ≠ 0 by omega]

theorem word_color : word p c &&& 1 = colorBit c := by
  refine BitVec.eq_of_getLsbD_eq fun i hi => ?_
  simp only [word, BitVec.getLsbD_and, BitVec.getLsbD_or, getLsbD_one, getLsbD_colorBit]
  by_cases hlow : i = 0
  · subst hlow
    rw [hp.bit (by decide)]
    simp
  · simp [hlow]

theorem word_setParent : word p c &&& 3 ||| q = word q c := by
  refine BitVec.eq_of_getLsbD_eq fun i hi => ?_
  simp only [word, BitVec.getLsbD_and, BitVec.getLsbD_or, getLsbD_three, getLsbD_colorBit]
  by_cases hlow : i < 2
  · simp [hlow, hp.bit hlow, Bool.or_comm]
  · simp [hlow, show i ≠ 0 by omega]

theorem word_setColor : word p c &&& ~~~1 ||| colorBit c' = word p c' := by
  refine BitVec.eq_of_getLsbD_eq fun i hi => ?_
  simp only [word, BitVec.getLsbD_and, BitVec.getLsbD_or, BitVec.getLsbD_not, getLsbD_one,
    getLsbD_colorBit, hi, decide_true, Bool.true_and]
  by_cases hlow : i = 0
  · subst hlow
    rw [hp.bit (by decide)]
    simp
  · simp [hlow]

theorem word_setRed : word p c &&& ~~~1 = word p .red := by
  have hred : word p c &&& ~~~1 ||| colorBit .red = word p .red := word_setColor hp
  simpa [colorBit, RB_RED] using hred

end

theorem word_setBlack : word p c ||| 1 = word p .black := by
  refine BitVec.eq_of_getLsbD_eq fun i hi => ?_
  simp only [word, BitVec.getLsbD_or, getLsbD_one, getLsbD_colorBit, decide_true, Bool.true_and]
  by_cases hlow : i = 0
  · simp [hlow]
  · simp [hlow]

end

/-- The node with this parent and colour, a child on the side `d` and one on the far side. -/
def nodeAt (d : Dir) (parent : Ptr) (c : Color) (near far : Ptr) : RbNode :=
  match d with
  | .left => { rbParentColor := word parent c, rbLeft := near, rbRight := far }
  | .right => { rbParentColor := word parent c, rbLeft := far, rbRight := near }

section

variable {d : Dir} {p q near far : Ptr} {c : Color}

theorem Dir.flip_flip (d : Dir) : d.flip.flip = d := by cases d <;> rfl

theorem nodeAt_flip : nodeAt d.flip p c near far = nodeAt d p c far near := by cases d <;> rfl

@[simp] theorem nodeAt_word : (nodeAt d p c near far).rbParentColor = word p c := by cases d <;> rfl

@[simp] theorem nodeAt_child : (nodeAt d p c near far).child d = near := by cases d <;> rfl

@[simp] theorem nodeAt_child_flip : (nodeAt d p c near far).child d.flip = far := by
  cases d <;> rfl

@[simp] theorem nodeAt_setChild : (nodeAt d p c near far).setChild d q = nodeAt d p c q far := by
  cases d <;> rfl

@[simp] theorem nodeAt_setChild_flip :
    (nodeAt d p c near far).setChild d.flip q = nodeAt d p c near q := by
  cases d <;> rfl

theorem nodeAt_rbParent (hp : Aligned p) : (nodeAt d p c near far).rbParent = p := by
  rw [RbNode.rbParent, nodeAt_word, word_parent hp]

theorem nodeAt_rbColor (hp : Aligned p) : (nodeAt d p c near far).rbColor = colorBit c := by
  rw [RbNode.rbColor, nodeAt_word, word_color hp]

theorem nodeAt_rbIsRed (hp : Aligned p) : (nodeAt d p c near far).rbIsRed = decide (c = .red) := by
  rw [RbNode.rbIsRed, nodeAt_rbColor hp]
  cases c <;> decide

/-- What holds of both children, in whichever order. -/
theorem nodeAt_children (P : Ptr → Prop) :
    P (nodeAt d p c near far).rbLeft ∧ P (nodeAt d p c near far).rbRight ↔ P near ∧ P far := by
  cases d with
  | left => exact Iff.rfl
  | right => exact and_comm

/-- A new word for the same children. -/
theorem nodeAt_withWord (hw : w = word p' c') : { nodeAt d p c near far with rbParentColor := w }
    = nodeAt d p' c' near far := by
  subst hw
  cases d <;> rfl

end

/-! ### Trees in the heap -/

def rootPtr : Tree Ptr → Ptr
  | .leaf => 0
  | .node _ _ x _ => x

/-- The pointer a node at the place has to its parent; `p` is that of the whole. -/
def up (path : Path Ptr) (p : Ptr) : Ptr :=
  match path with
  | [] => p
  | f :: _ => f.entry

/-- The pointer to the whole if the one at the place is `hole`. -/
def top : Path Ptr → Ptr → Ptr
  | [], hole => hole
  | f :: path, _ => top path f.entry

/-- The nodes around a place. -/
def pathNodes : Path Ptr → List Ptr
  | [] => []
  | f :: path => f.entry :: (f.other.toList ++ pathNodes path)

namespace Heap

/-- The heap has the tree `t` with `parent` as parent of its root. -/
def IsTree (h : Heap) : Ptr → Tree Ptr → Prop
  | _, .leaf => True
  | parent, .node c l x r =>
    x ≠ 0 ∧ Aligned x ∧ h.mem x = nodeAt .left parent c (rootPtr l) (rootPtr r) ∧
      h.IsTree x l ∧ h.IsTree x r

/-- The heap has the nodes around a place whose child is `hole`, and `p` above them. -/
def IsSeg (h : Heap) : Path Ptr → Ptr → Ptr → Prop
  | [], _, _ => True
  | f :: path, p, hole =>
    f.entry ≠ 0 ∧ Aligned f.entry ∧
      h.mem f.entry = nodeAt f.dir (up path p) f.color hole (rootPtr f.other) ∧
      h.IsTree f.entry f.other ∧ h.IsSeg path p f.entry

/-- Memory and root after an assignment to the node `p`. -/
def put (h : Heap) (p : Ptr) (n : RbNode) : Heap := { h with mem := Function.update h.mem p n }

end Heap

/-- **The heap holds the tree** with `t` at the place `path`. -/
structure Holds (h : Heap) (path : Path Ptr) (t : Tree Ptr) : Prop where
  root : h.root = top path (rootPtr t)
  seg : h.IsSeg path 0 (rootPtr t)
  tree : h.IsTree (up path 0) t
  nodup : (t.toList ++ pathNodes path).Nodup

section

variable {h h' : Heap} {d : Dir} {c : Color} {a b t : Tree Ptr} {x p hole : Ptr} {path : Path Ptr}
  {f : Frame Ptr}

@[simp] theorem rootPtr_join : rootPtr (join d c a x b) = x := by cases d <;> rfl

theorem rootPtr_plug : rootPtr (plug path t) = top path (rootPtr t) := by
  induction path generalizing t with
  | nil => rfl
  | cons f path ih =>
    rw [plug, ih, Frame.fill, rootPtr_join]
    rfl

theorem isTree_join : h.IsTree p (join d c a x b) ↔
    x ≠ 0 ∧ Aligned x ∧ h.mem x = nodeAt d p c (rootPtr a) (rootPtr b) ∧
      h.IsTree x a ∧ h.IsTree x b := by
  cases d with
  | left => exact Iff.rfl
  | right =>
    constructor
    · rintro ⟨h0, hal, hmem, hb, ha⟩
      exact ⟨h0, hal, hmem, ha, hb⟩
    · rintro ⟨h0, hal, hmem, ha, hb⟩
      exact ⟨h0, hal, hmem, hb, ha⟩

theorem join_flip : join d.flip c a x b = join d c b x a := by cases d <;> rfl

theorem perm_join : (join d c a x b).toList.Perm (x :: (a.toList ++ b.toList)) := by
  cases d with
  | left => exact perm_middle
  | right => exact perm_middle.trans (perm_append_comm.cons x)

theorem perm_fill : ((f.fill t).toList ++ pathNodes path).Perm
    (t.toList ++ pathNodes (f :: path)) := by
  have hjoin : ((f.fill t).toList ++ pathNodes path).Perm
      (f.entry :: (t.toList ++ f.other.toList) ++ pathNodes path) := perm_join.append_right _
  refine hjoin.trans ?_
  rw [cons_append, append_assoc]
  exact perm_middle.symm

/-- The cursor moves up. -/
theorem holds_cons : Holds h (f :: path) t ↔ Holds h path (f.fill t) := by
  have htree := isTree_join (h := h) (d := f.dir) (p := up path 0) (c := f.color) (a := t)
    (b := f.other) (x := f.entry)
  constructor
  · intro hh
    obtain ⟨h0, hal, hmem, hother, hseg⟩ := hh.seg
    refine ⟨?_, ?_, htree.mpr ⟨h0, hal, hmem, hh.tree, hother⟩, perm_fill.nodup_iff.mpr hh.nodup⟩
    · rw [Frame.fill, rootPtr_join]
      exact hh.root
    · rw [Frame.fill, rootPtr_join]
      exact hseg
  · intro hh
    obtain ⟨h0, hal, hmem, ht, hother⟩ := htree.mp hh.tree
    have hroot := hh.root
    have hseg := hh.seg
    rw [Frame.fill, rootPtr_join] at hroot hseg
    exact ⟨hroot, ⟨h0, hal, hmem, hother, hseg⟩, ht, perm_fill.nodup_iff.mp hh.nodup⟩

theorem holds_append (path' : Path Ptr) :
    Holds h (path' ++ path) t ↔ Holds h path (plug path' t) := by
  induction path' generalizing t with
  | nil => exact Iff.rfl
  | cons f path' ih => exact holds_cons.trans ih

/-- The cursor at the root. -/
theorem holds_plug : Holds h path t ↔ Holds h [] (plug path t) := by
  have happend : Holds h (path ++ []) t ↔ Holds h [] (plug path t) := holds_append path
  rwa [append_nil] at happend

/-- The cursor moves to the child on the side `d`, or to the one on the far side. -/
theorem holds_near : Holds h path (join d c a x b) ↔ Holds h (⟨d, c, x, b⟩ :: path) a :=
  (holds_cons (f := ⟨d, c, x, b⟩)).symm

theorem holds_far : Holds h path (join d c a x b) ↔ Holds h (⟨d.flip, c, x, a⟩ :: path) b := by
  rw [← join_flip]
  exact holds_near

theorem Heap.IsTree.frame (ht : h.IsTree p t) (hmem : ∀ z ∈ t.toList, h'.mem z = h.mem z) :
    h'.IsTree p t := by
  induction t generalizing p with
  | leaf => trivial
  | node c l x r ihl ihr =>
    obtain ⟨h0, hal, hx, hl, hr⟩ := ht
    have hsub : ∀ z, z ∈ l.toList ∨ z = x ∨ z ∈ r.toList → h'.mem z = h.mem z := fun z hz =>
      hmem z (by simpa using hz)
    exact ⟨h0, hal, (hsub x (by simp)).trans hx, ihl hl fun z hz => hsub z (by simp [hz]),
      ihr hr fun z hz => hsub z (by simp [hz])⟩

theorem Heap.IsSeg.frame (hs : h.IsSeg path p hole)
    (hmem : ∀ z ∈ pathNodes path, h'.mem z = h.mem z) :
    h'.IsSeg path p hole := by
  induction path generalizing hole with
  | nil => trivial
  | cons f path ih =>
    obtain ⟨h0, hal, hx, ho, hs⟩ := hs
    have hsub : ∀ z, z = f.entry ∨ z ∈ f.other.toList ∨ z ∈ pathNodes path → h'.mem z = h.mem z :=
      fun z hz => hmem z (by simpa [pathNodes] using hz)
    exact ⟨h0, hal, (hsub _ (by simp)).trans hx, ho.frame fun z hz => hsub z (by simp [hz]),
      ih hs fun z hz => hsub z (by simp [hz])⟩

theorem aligned_zero : Aligned 0 := rfl

theorem Heap.IsSeg.aligned_up (hs : h.IsSeg path 0 hole) : Aligned (up path 0) := by
  cases path with
  | nil => exact aligned_zero
  | cons f path => exact hs.2.1

theorem exists_node {t : Tree Ptr} (hne : t ≠ .leaf) : ∃ c l x r, t = .node c l x r := by
  cases t with
  | leaf => exact absurd rfl hne
  | node c l x r => exact ⟨c, l, x, r, rfl⟩

theorem Heap.IsTree.rootPtr_ne (ht : h.IsTree p t) (hne : t ≠ .leaf) : rootPtr t ≠ 0 := by
  obtain ⟨c, l, x, r, rfl⟩ := exists_node hne
  exact ht.1

theorem rootPtr_mem (hne : t ≠ .leaf) : rootPtr t ∈ t.toList := by
  obtain ⟨c, l, x, r, rfl⟩ := exists_node hne
  simp [rootPtr]

/-- A pointer outside a tree is not the one to its root. -/
theorem ne_rootPtr (hx : x ∉ t.toList) (h0 : x ≠ 0) : x ≠ rootPtr t := by
  cases t with
  | leaf => exact h0
  | node c l y r =>
    rintro rfl
    exact hx (by simp)

end

/-! ### The primitives -/

section

variable {h h' : Heap} {d d' : Dir} {c c' : Color} {a b e t l : Tree Ptr} {x y p q hole new : Ptr}
  {path : Path Ptr} {n : RbNode}

@[simp] theorem put_root : (h.put x n).root = h.root := rfl

@[simp] theorem put_self : (h.put x n).mem x = n := Function.update_self ..

theorem put_of_ne (hy : y ≠ x) : (h.put x n).mem y = h.mem y := Function.update_of_ne hy ..

theorem put_off {l : List Ptr} (hx : x ∉ l) (n : RbNode) : ∀ z ∈ l, (h.put x n).mem z = h.mem z :=
  fun _ hz => put_of_ne fun hc => hx (hc ▸ hz)

theorem load_eq (hx : x ≠ 0) : h.load x = some (h.mem x) := if_neg hx

theorem modify_eq (hx : x ≠ 0) (f : RbNode → RbNode) :
    h.modify x f = some (h.put x (f (h.mem x))) :=
  if_neg hx

section

variable (hx : x ≠ 0) (hmem : h.mem x = nodeAt d p c y q) {r : Tree Ptr}

include hx hmem

theorem setChild_eq : h.setChild x d new = some (h.put x (nodeAt d p c new q)) := by
  rw [Heap.setChild, modify_eq hx, hmem, nodeAt_setChild]

theorem setChild_flip_eq : h.setChild x d.flip new = some (h.put x (nodeAt d p c y new)) := by
  rw [Heap.setChild, modify_eq hx, hmem, nodeAt_setChild_flip]

theorem rbSetParent_eq (hp : Aligned p) :
    h.rbSetParent x new = some (h.put x (nodeAt d new c y q)) := by
  rw [Heap.rbSetParent, modify_eq hx, hmem, nodeAt_word, nodeAt_withWord (word_setParent hp)]

end

/-- What an operation that touches only some nodes leaves as it is. -/
def Frames (h h' : Heap) (nodes : List Ptr) : Prop := ∀ z, z ∉ nodes → h'.mem z = h.mem z

theorem rbSetParent_spec (ht : h.IsTree p t) (hne : t ≠ .leaf) (hp : Aligned p)
    (hnd : t.toList.Nodup) :
    Ends (h.rbSetParent (rootPtr t) q) fun h' =>
      h'.root = h.root ∧ h'.IsTree q t ∧ Frames h h' t.toList := by
  obtain ⟨c, l, x, r, rfl⟩ := exists_node hne
  obtain ⟨h0, hal, hmem, hl, hr⟩ := ht
  obtain ⟨hxl, hxr⟩ : x ∉ l.toList ∧ x ∉ r.toList := by
    have := (nodup_middle.mp hnd)
    rw [nodup_cons, mem_append, not_or] at this
    exact this.1
  refine ⟨_, rbSetParent_eq h0 hmem hp, rfl, ⟨h0, hal, put_self, ?_, ?_⟩, fun z hz => ?_⟩
  · exact hl.frame (put_off hxl _)
  · exact hr.frame (put_off hxr _)
  · refine put_of_ne fun hc => hz ?_
    rw [hc]
    exact rootPtr_mem hne

theorem setParentOf_spec (ht : h.IsTree p t) (hp : Aligned p) (hnd : t.toList.Nodup) :
    Ends (h.setParentOf (rootPtr t) q) fun h' =>
      h'.root = h.root ∧ h'.IsTree q t ∧ Frames h h' t.toList := by
  cases t with
  | leaf => exact ⟨h, rfl, rfl, trivial, fun _ _ => rfl⟩
  | node c l x r =>
    have hstep : h.setParentOf x q = h.rbSetParent x q := if_neg ht.1
    rw [show rootPtr (.node c l x r) = x from rfl, hstep]
    exact rbSetParent_spec ht nofun hp hnd

/-- Another pointer is put at the place. -/
theorem replaceChild_spec (hs : h.IsSeg path 0 hole) (hroot : h.root = top path hole)
    (hhole : hole ∉ pathNodes path) (h0 : hole ≠ 0) (hnd : (pathNodes path).Nodup) :
    Ends (h.replaceChild d (up path 0) hole new) fun h' =>
      h'.root = top path new ∧ h'.IsSeg path 0 new ∧ Frames h h' (pathNodes path) := by
  cases path with
  | nil => exact ⟨{ h with root := new }, if_pos rfl, rfl, trivial, fun _ _ => rfl⟩
  | cons f path =>
    obtain ⟨hf0, hal, hmem, hother, hs⟩ := hs
    rw [pathNodes, nodup_cons, mem_append, not_or] at hnd
    rw [pathNodes, mem_cons, mem_append, not_or, not_or] at hhole
    have hput : h.replaceChild d f.entry hole new =
        some (h.put f.entry (nodeAt f.dir (up path 0) f.color new (rootPtr f.other))) := by
      rw [Heap.replaceChild, if_neg hf0, load_eq hf0, Option.bind_some, hmem]
      rcases (by cases d <;> cases f.dir <;> simp [Dir.flip] : d = f.dir ∨ d = f.dir.flip) with
        hd | hd
      · rw [hd, nodeAt_child, if_pos rfl, setChild_eq hf0 hmem]
      · have hne : rootPtr f.other ≠ hole := (ne_rootPtr hhole.2.1 h0).symm
        rw [hd, nodeAt_child_flip, if_neg hne, Dir.flip_flip, setChild_eq hf0 hmem]
    refine ⟨_, hput, hroot, ⟨hf0, hal, put_self, ?_, ?_⟩, fun z hz => ?_⟩
    · exact hother.frame (put_off hnd.1.1 _)
    · exact hs.frame (put_off hnd.1.2 _)
    · exact put_of_ne fun hc => hz (by rw [hc]; exact mem_cons_self)

theorem Holds.notMem (hh : Holds h path (.node c l x r)) :
    x ∉ l.toList ∧ x ∉ r.toList ∧ x ∉ pathNodes path := by
  have hnd := hh.nodup
  rw [toList_node, append_assoc, cons_append, nodup_middle, nodup_cons,
    mem_append, mem_append, not_or, not_or] at hnd
  exact hnd.1

section

variable (hh : Holds h path t) (hne : t ≠ .leaf) {down : Path Ptr}

include hh hne

theorem recolor_spec {w : BitVec 32 → BitVec 32}
    (hw : ∀ p c, Aligned p → w (word p c) = word p c') :
    Ends (h.modify (rootPtr t) fun n => { n with rbParentColor := w n.rbParentColor }) fun h' =>
      Holds h' path (t.setColor c') := by
  obtain ⟨c, l, x, r, rfl⟩ := exists_node hne
  obtain ⟨h0, hal, hmem, hl, hr⟩ := hh.tree
  obtain ⟨hxl, hxr, hxp⟩ := hh.notMem
  have hnode : h.modify x (fun n => { n with rbParentColor := w n.rbParentColor }) =
      some (h.put x (nodeAt .left (up path 0) c' (rootPtr l) (rootPtr r))) := by
    rw [modify_eq h0, hmem, nodeAt_word, nodeAt_withWord (hw _ c hh.seg.aligned_up)]
  refine ⟨_, hnode, hh.root, hh.seg.frame (put_off hxp _), ⟨h0, hal, put_self, ?_, ?_⟩, hh.nodup⟩
  · exact hl.frame (put_off hxl _)
  · exact hr.frame (put_off hxr _)

theorem rbSetBlack_spec :
    Ends (h.rbSetBlack (rootPtr t)) fun h' => Holds h' path (t.setColor .black) :=
  recolor_spec hh hne (w := fun v => v ||| 1) fun _ _ _ => word_setBlack

theorem rbSetColor_spec (c' : Color) :
    Ends (h.rbSetColor (rootPtr t) (colorBit c')) fun h' => Holds h' path (t.setColor c') :=
  recolor_spec hh hne (w := fun v => v &&& ~~~1 ||| colorBit c') fun _ _ hp => word_setColor hp

end

theorem perm_rotated : (join d c' (join d c a x b) y e).toList.Perm
    (x :: y :: (a.toList ++ (b.toList ++ e.toList))) := by
  refine perm_join.trans ((List.Perm.cons y (perm_join.append_right _)).trans ?_)
  rw [cons_append, append_assoc]
  exact List.Perm.swap x y _

theorem perm_unrotated : (join d c a x (join d c' b y e)).toList.Perm
    (x :: y :: (a.toList ++ (b.toList ++ e.toList))) := by
  refine perm_join.trans (List.Perm.cons x ((perm_join.append_left _).trans ?_))
  exact perm_middle

/-- **A rotation.** The far child of `x` is rotated above it. -/
theorem rbRotate_spec (hh : Holds h path (join d c a x (join d c' b y e))) :
    Ends (rbRotate d h x) fun h' => Holds h' path (join d c' (join d c a x b) y e) := by
  obtain ⟨hx0, hxal, hxmem, ha, hy⟩ := isTree_join.mp hh.tree
  obtain ⟨hy0, hyal, hymem, hb, he⟩ := isTree_join.mp hy
  rw [rootPtr_join] at hxmem
  have hpal := hh.seg.aligned_up
  have hnd : (x :: y :: (a.toList ++ (b.toList ++ (e.toList ++ pathNodes path)))).Nodup := by
    have := (perm_unrotated.append_right (pathNodes path)).nodup_iff.mp hh.nodup
    simpa only [cons_append, append_assoc] using this
  have hnd' : ((join d c' (join d c a x b) y e).toList ++ pathNodes path).Nodup := by
    refine (perm_rotated.append_right (pathNodes path)).nodup_iff.mpr ?_
    simpa only [cons_append, append_assoc] using hnd
  simp only [nodup_cons, mem_cons, mem_append, not_or, nodup_append] at hnd
  obtain ⟨⟨hxy, hxa, hxb, hxe, hxp⟩, ⟨hya, hyb, hye, hyp⟩, -, ⟨hndb, ⟨-, hndp, hep⟩, hbep⟩,
      habep⟩ := hnd
  rw [rbRotate]
  refine .bind_eq (load_eq hx0) ?_
  rw [hxmem]
  simp only [nodeAt_child_flip, nodeAt_rbParent hpal]
  refine .bind_eq (load_eq hy0) ?_
  rw [hymem, nodeAt_child]
  refine .bind_eq (setChild_flip_eq hx0 hxmem) ?_
  refine .bind (setParentOf_spec (hb.frame (put_off hxb _)) hyal hndb) fun h₂ h2 => ?_
  obtain ⟨hroot2, hb2, hframe2⟩ := h2
  have hymem2 : h₂.mem y = nodeAt d x c' (rootPtr b) (rootPtr e) := by
    rw [hframe2 y hyb, put_of_ne (Ne.symm hxy), hymem]
  refine .bind_eq (setChild_eq hy0 hymem2) ?_
  refine .bind_eq (rbSetParent_eq hy0 put_self hxal) ?_
  generalize hh4 : ((h₂.put y (nodeAt d x c' x (rootPtr e))).put y
    (nodeAt d (up path 0) c' x (rootPtr e))) = h4
  have hy4 : h4.mem y = nodeAt d (up path 0) c' x (rootPtr e) := by rw [← hh4, put_self]
  have hother4 : ∀ z, z ≠ y → h4.mem z = h₂.mem z := fun z hz => by
    rw [← hh4, put_of_ne hz, put_of_ne hz]
  have hkeep4 : ∀ z, z ≠ x → z ≠ y → z ∉ b.toList → h4.mem z = h.mem z := fun z hzx hzy hzb => by
    rw [hother4 z hzy, hframe2 z hzb, put_of_ne hzx]
  have hroot4 : h4.root = top path x := by
    rw [← hh4, put_root, put_root, hroot2, put_root, hh.root, rootPtr_join]
  have hseg4 : h4.IsSeg path 0 x := by
    have hseg := hh.seg
    rw [rootPtr_join] at hseg
    refine hseg.frame fun z hz => hkeep4 z (ne_of_mem_of_not_mem hz hxp)
      (ne_of_mem_of_not_mem hz hyp) fun hc => ?_
    exact hbep z hc z (.inr hz) rfl
  refine .bind (replaceChild_spec hseg4 hroot4 hxp hx0 hndp) fun h₅ h5 => ?_
  obtain ⟨hroot5, hseg5, hframe5⟩ := h5
  have hxmem5 : h₅.mem x = nodeAt d (up path 0) c (rootPtr a) (rootPtr b) := by
    rw [hframe5 x hxp, hother4 x hxy, hframe2 x hxb, put_self]
  refine ⟨_, rbSetParent_eq hx0 hxmem5 hpal, ?_, ?_, ?_, hnd'⟩
  · rw [rootPtr_join]
    exact hroot5
  · rw [rootPtr_join]
    exact hseg5.frame (put_off hxp _)
  refine isTree_join.mpr ⟨hy0, hyal, ?_, isTree_join.mpr ⟨hx0, hxal, put_self, ?_, ?_⟩, ?_⟩
  · rw [rootPtr_join, put_of_ne (Ne.symm hxy), hframe5 y hyp, hy4]
  · refine ha.frame fun z hz => ?_
    have hzx := ne_of_mem_of_not_mem hz hxa
    have hzb : z ∉ b.toList := fun hc => habep z hz z (.inl hc) rfl
    have hzp : z ∉ pathNodes path := fun hc => habep z hz z (.inr (.inr hc)) rfl
    rw [put_of_ne hzx, hframe5 z hzp, hkeep4 z hzx (ne_of_mem_of_not_mem hz hya) hzb]
  · refine hb2.frame fun z hz => ?_
    have hzp : z ∉ pathNodes path := fun hc => hbep z hz z (.inr hc) rfl
    rw [put_of_ne (ne_of_mem_of_not_mem hz hxb), hframe5 z hzp,
      hother4 z (ne_of_mem_of_not_mem hz hyb)]
  · refine he.frame fun z hz => ?_
    have hzx := ne_of_mem_of_not_mem hz hxe
    have hzb : z ∉ b.toList := fun hc => hbep z hc z (.inl hz) rfl
    have hzp : z ∉ pathNodes path := fun hc => hep z hz z hc rfl
    rw [put_of_ne hzx, hframe5 z hzp, hkeep4 z hzx (ne_of_mem_of_not_mem hz hye) hzb]

theorem isTree_plug : h.IsTree p (plug path t) ↔
    h.IsSeg path p (rootPtr t) ∧ h.IsTree (up path p) t := by
  induction path generalizing t with
  | nil => exact (and_iff_right trivial).symm
  | cons f path ih =>
    rw [plug, ih, Frame.fill, rootPtr_join, isTree_join]
    constructor
    · rintro ⟨hs, h0, hal, hmem, ht, ho⟩
      exact ⟨⟨h0, hal, hmem, ho, hs⟩, ht⟩
    · rintro ⟨⟨h0, hal, hmem, ho, hs⟩, ht⟩
      exact ⟨hs, h0, hal, hmem, ht, ho⟩

theorem perm_plug : (plug path t).toList.Perm (t.toList ++ pathNodes path) := by
  induction path generalizing t with
  | nil => simp [plug, pathNodes]
  | cons f path ih =>
    rw [plug]
    exact ih.trans perm_fill

theorem pathNodes_append : pathNodes (path ++ path') = pathNodes path ++ pathNodes path' := by
  induction path with
  | nil => rfl
  | cons f path ih => simp [pathNodes, ih]

/-- A new red node without children is linked at a free place. -/
theorem rbLinkNode_spec (hh : Holds h path .leaf) (h0 : x ≠ 0) (hal : Aligned x)
    (hx : x ∉ pathNodes path) (hd : ∀ f ∈ path.head?, f.dir = d) :
    Ends (rbLinkNode h x (up path 0) d) fun h' => Holds h' path (.node .red .leaf x .leaf) := by
  have hnode : ({ rbParentColor := up path 0, rbLeft := 0, rbRight := 0 } : RbNode) =
      nodeAt .left (up path 0) .red 0 0 := by
    simp [nodeAt, word, colorBit, RB_RED]
  have hnd : ((Tree.node .red .leaf x .leaf).toList ++ pathNodes path).Nodup := by
    simpa [hx] using hh.nodup
  rw [rbLinkNode]
  refine .bind_eq (modify_eq h0 _) ?_
  cases path with
  | nil =>
    rw [up, if_pos rfl]
    refine .ret ⟨rfl, trivial, ⟨h0, hal, ?_, trivial, trivial⟩, hnd⟩
    exact put_self.trans hnode
  | cons f path =>
    obtain ⟨hf0, hfal, hfmem, hother, hseg⟩ := hh.seg
    obtain rfl : f.dir = d := hd f rfl
    rw [pathNodes, mem_cons, mem_append, not_or, not_or] at hx
    have hfnd := hh.nodup
    rw [toList_leaf, nil_append, pathNodes, nodup_cons, mem_append, not_or] at hfnd
    rw [up, if_neg hf0]
    have hmem : ∀ n, (h.put x n).mem f.entry = nodeAt f.dir (up path 0) f.color 0
        (rootPtr f.other) :=
      fun n => (put_of_ne (Ne.symm hx.1)).trans hfmem
    refine ⟨_, setChild_eq hf0 (hmem _), hh.root, ⟨hf0, hfal, put_self, ?_, ?_⟩,
      ⟨h0, hal, ?_, trivial, trivial⟩, hnd⟩
    · exact (hother.frame (put_off hx.2.1 _)).frame (put_off hfnd.1.1 _)
    · exact (hseg.frame (put_off hx.2.2 _)).frame (put_off hfnd.1.2 _)
    · rw [put_of_ne hx.1, put_self]
      exact hnode

/-- The only child of a node takes its place. -/
theorem unlinkOne_spec (hh : Holds h path (join d c .leaf x t)) :
    Ends (unlinkOne h x (rootPtr t) (up path 0)) fun h' => Holds h' path t := by
  obtain ⟨h0, hal, hmem, -, ht⟩ := isTree_join.mp hh.tree
  have hnd := (perm_join.append_right (pathNodes path)).nodup_iff.mp hh.nodup
  simp only [toList_leaf, nil_append, cons_append, nodup_cons, mem_append,
    not_or, nodup_append] at hnd
  obtain ⟨⟨hxt, hxp⟩, hndt, hndp, htp⟩ := hnd
  rw [unlinkOne]
  refine .bind (setParentOf_spec ht hal hndt) fun h1 ⟨hroot1, ht1, hframe1⟩ => ?_
  have hseg : h.IsSeg path 0 x := by
    have := hh.seg
    rwa [rootPtr_join] at this
  have hseg1 : h1.IsSeg path 0 x :=
    hseg.frame fun z hz => hframe1 z fun hc => htp z hc z hz rfl
  have hroot : h1.root = top path x := by
    rw [hroot1, hh.root, rootPtr_join]
  refine .mono (replaceChild_spec hseg1 hroot hxp h0 hndp) fun h2 ⟨hroot2, hseg2, hframe2⟩ => ?_
  refine ⟨hroot2, hseg2, ht1.frame fun z hz => hframe2 z fun hc => htp z hz z hc rfl, ?_⟩
  exact nodup_append.mpr ⟨hndt, hndp, htp⟩

/-- A fresh node takes the place of another, with its children and its colour. -/
theorem rbReplaceNode_spec (hh : Holds h path (.node c l x r)) (h0 : new ≠ 0)
    (hal : Aligned new) (hnew : new ∉ (Tree.node c l x r).toList ++ pathNodes path) :
    Ends (rbReplaceNode h x new) fun h' => Holds h' path (.node c l new r) := by
  obtain ⟨hx0, hxal, hmem, hl, hr⟩ := hh.tree
  obtain ⟨hxl, hxr, hxp⟩ := hh.notMem
  have hnd := hh.nodup
  simp only [toList_node, append_assoc, cons_append, nodup_append, nodup_cons,
    mem_cons, mem_append, not_or] at hnd
  obtain ⟨hndl, ⟨-, hndr, hndp, hrp⟩, hlrest⟩ := hnd
  simp only [toList_node, append_assoc, cons_append, mem_cons, mem_append, not_or] at hnew
  obtain ⟨hnl, hnx, hnr, hnp⟩ := hnew
  have hlr : ∀ z ∈ l.toList, z ∉ r.toList := fun z hz hc => hlrest z hz z (by simp [hc]) rfl
  have hlp : ∀ z ∈ l.toList, z ∉ pathNodes path := fun z hz hc => hlrest z hz z (by simp [hc]) rfl
  have hrp' : ∀ z ∈ r.toList, z ∉ pathNodes path := fun z hz hc => hrp z hz z hc rfl
  rw [rbReplaceNode]
  refine .bind_eq (load_eq hx0) ?_
  rw [hmem, nodeAt_rbParent hh.seg.aligned_up]
  refine .bind (replaceChild_spec hh.seg hh.root hxp hx0 hndp) fun h1 ⟨hroot1, hseg1, hframe1⟩ => ?_
  refine .bind (setParentOf_spec (hl.frame fun z hz => hframe1 z (hlp z hz)) hxal hndl)
    fun h2 ⟨hroot2, hl2, hframe2⟩ => ?_
  have hr2 : h2.IsTree x r := hr.frame fun z hz => by
    rw [hframe2 z fun hc => hlr z hc hz, hframe1 z (hrp' z hz)]
  refine .bind (setParentOf_spec hr2 hxal hndr) fun h3 ⟨hroot3, hr3, hframe3⟩ => ?_
  refine .bind_eq (load_eq hx0) ?_
  have hmem3 : h3.mem x = nodeAt .left (up path 0) c (rootPtr l) (rootPtr r) := by
    rw [hframe3 x hxr, hframe2 x hxl, hframe1 x hxp, hmem]
  refine ⟨_, modify_eq h0 _, ?_, ?_, ⟨h0, hal, put_self.trans hmem3, ?_, ?_⟩, ?_⟩
  · rw [put_root, hroot3, hroot2, hroot1]
    rfl
  · refine Heap.IsSeg.frame (hseg1.frame fun z hz => ?_) (put_off hnp _)
    rw [hframe3 z fun hc => hrp' z hc hz, hframe2 z fun hc => hlp z hc hz]
  · exact (hl2.frame fun z hz => hframe3 z (hlr z hz)).frame (put_off hnl _)
  · exact hr3.frame (put_off hnr _)
  · have hnodup := hh.nodup
    simp only [toList_node, append_assoc, cons_append, nodup_middle,
      nodup_cons, mem_append, not_or] at hnodup ⊢
    exact ⟨⟨hnl, hnr, hnp⟩, hnodup.2⟩

theorem join_ne_leaf : join d c a x b ≠ .leaf := by cases d <;> exact nofun

theorem plug_cons_ne_leaf : plug (f :: path) t ≠ .leaf := by
  induction path generalizing f t with
  | nil => exact join_ne_leaf
  | cons f' path ih => exact ih

/-- The successor of `old` leaves its place at the end of `down`, and what remains of the
subtree hangs below the successor. -/
theorem detachSucc_spec (h0 : old ≠ 0) (hal : Aligned old)
    (hold : h.mem old = nodeAt .left q0 c0 l0 (top down succ)) (hs : h.IsSeg down old succ)
    (ht : h.IsTree (up down old) (.node c .leaf succ t))
    (hnd : (old :: succ :: (t.toList ++ pathNodes down)).Nodup)
    (hdir : ∀ f ∈ down.head?, f.dir = .left) :
    Ends (detachSucc h old succ (rootPtr t) (up down old)) fun (h', parent) =>
      parent = up down succ ∧ h'.root = h.root ∧
      (∃ q, h'.mem succ = nodeAt .left q c 0 (rootPtr (plug down t))) ∧
      h'.IsTree succ (plug down t) ∧ Frames h h' (succ :: (t.toList ++ pathNodes down)) := by
  obtain ⟨hs0, hsal, hsmem, -, ht⟩ := ht
  rw [detachSucc]
  cases down with
  | nil =>
    rw [up, if_pos rfl]
    exact .ret ⟨rfl, rfl, ⟨_, hsmem⟩, ht, fun _ _ => rfl⟩
  | cons f down =>
    obtain ⟨hf0, hfal, hfmem, hother, hseg⟩ := hs
    have hfdir : f.dir = .left := hdir f rfl
    let t' := plug (f :: down) t
    have hsplug : succ ∉ t'.toList := by
      rw [perm_plug.mem_iff]
      rw [nodup_cons, nodup_cons] at hnd
      exact hnd.2.1
    have hndplug : t'.toList.Nodup := by
      rw [perm_plug.nodup_iff]
      rw [nodup_cons, nodup_cons] at hnd
      exact hnd.2.2
    simp only [pathNodes, nodup_cons, mem_cons, mem_append, not_or, nodup_append] at hnd
    obtain ⟨⟨hos, hot, hof, hoo, hod⟩, ⟨hst, hsf, hso, hsd⟩, hndt, ⟨⟨hfo, hfd⟩, -⟩, htf⟩ := hnd
    have hft : f.entry ∉ t.toList := fun hc => htf _ hc _ (.inl rfl) rfl
    rw [up, if_neg (Ne.symm hof)]
    refine .bind (setParentOf_spec ht hsal hndt) fun h1 ⟨hroot1, ht1, hframe1⟩ => ?_
    rw [hfdir] at hfmem
    refine .bind_eq (setChild_eq hf0 ((hframe1 _ hft).trans hfmem)) ?_
    generalize hh2 : h1.put f.entry (nodeAt .left (up down old) f.color (rootPtr t)
      (rootPtr f.other)) = h2
    have hf2 : h2.mem f.entry = nodeAt .left (up down old) f.color (rootPtr t)
        (rootPtr f.other) := by rw [← hh2, put_self]
    have hother2 : ∀ z, z ≠ f.entry → z ∉ t.toList → h2.mem z = h.mem z := fun z hz hzt => by
      rw [← hh2, put_of_ne hz, hframe1 z hzt]
    have hplug2 : h2.IsTree old t' := by
      refine isTree_plug.mpr ⟨⟨hf0, hfal, by rwa [hfdir], ?_, ?_⟩, ?_⟩
      · refine hother.frame fun z hz => hother2 z (fun hc => hfo (hc ▸ hz)) fun hc => ?_
        exact htf z hc z (.inr (.inl hz)) rfl
      · refine hseg.frame fun z hz => hother2 z (fun hc => hfd (hc ▸ hz)) fun hc => ?_
        exact htf z hc z (.inr (.inr hz)) rfl
      · rw [← hh2]
        exact ht1.frame (put_off hft _)
    refine .bind_eq (load_eq h0) ?_
    have hsmem2 : h2.mem succ = nodeAt .left f.entry c 0 (rootPtr t) :=
      (hother2 succ hsf hst).trans hsmem
    have hright : (h2.mem old).rbRight = rootPtr t' := by
      rw [hother2 old hof hot, hold, rootPtr_plug]
      rfl
    rw [hright]
    refine .bind_eq (setChild_flip_eq hs0 hsmem2) ?_
    refine .bind (rbSetParent_spec (hplug2.frame (put_off hsplug _)) plug_cons_ne_leaf hal hndplug)
      fun h5 ⟨hroot5, hplug5, hframe5⟩ => ?_
    refine .ret ⟨rfl, ?_, ⟨f.entry, ?_⟩, hplug5, fun z hz => ?_⟩
    · rw [hroot5, put_root, ← hh2, put_root, hroot1]
    · rw [hframe5 succ hsplug, put_self]
    rw [mem_cons, not_or] at hz
    have hzplug : z ∉ t'.toList := by
      rw [perm_plug.mem_iff]
      exact hz.2
    simp only [pathNodes, mem_append, mem_cons, not_or] at hz
    rw [hframe5 z hzplug, put_of_ne hz.1, hother2 z hz.2.2.1 hz.2.1]

/-- **The successor takes the place of a node with two children.** -/
theorem spliceSucc_spec (hh : Holds h path (.node c0 l old (plug down (.node c .leaf succ t))))
    (hl : l ≠ .leaf)
    (hdir : ∀ f ∈ down.head?, f.dir = .left) :
    Ends (spliceSucc h old succ) fun (h', child, parent, color) =>
      child = rootPtr t ∧ parent = up (down ++ ⟨.right, c0, succ, l⟩ :: path) 0 ∧
      color = colorBit c ∧ Holds h' (down ++ ⟨.right, c0, succ, l⟩ :: path) t := by
  obtain ⟨h0, hal, hmem, hltree, hright⟩ := hh.tree
  obtain ⟨hseg, hs0, hsal, hsmem, -, ht⟩ := isTree_plug.mp hright
  rw [rootPtr_plug] at hmem
  have hperm : ((Tree.node c0 l old (plug down (.node c .leaf succ t))).toList ++
      pathNodes path).Perm
      (old :: succ :: (l.toList ++ (t.toList ++ (pathNodes down ++ pathNodes path)))) := by
    rw [toList_node, append_assoc, cons_append]
    refine perm_middle.trans (List.Perm.cons old ?_)
    refine ((perm_plug.append_right _).append_left _).trans ?_
    simp only [toList_node, toList_leaf, nil_append, append_assoc, cons_append]
    exact perm_middle
  have hnd := hperm.nodup_iff.mp hh.nodup
  have hnd' : (t.toList ++ pathNodes (down ++ ⟨.right, c0, succ, l⟩ :: path)).Nodup := by
    rw [pathNodes_append, pathNodes, ← append_assoc, nodup_middle]
    rw [nodup_cons, ← append_assoc t.toList] at hnd
    exact (List.Perm.cons succ (perm_append_comm_assoc _ _ _)).nodup_iff.mp hnd.2
  have hnddown : (old :: succ :: (t.toList ++ pathNodes down)).Nodup := by
    refine hnd.sublist (List.Sublist.cons_cons _ (List.Sublist.cons_cons _ ?_))
    refine List.Sublist.trans ?_ (sublist_append_right _ _)
    exact List.Sublist.append_left (sublist_append_left _ _) _
  simp only [nodup_cons, mem_cons, mem_append, not_or, nodup_append] at hnd
  obtain ⟨⟨hos, hol, hot, hod, hop⟩, ⟨hsl, hst, hsd, hsp⟩, hndl, ⟨-, ⟨-, hndp, hdp⟩, htdp⟩,
      hlrest⟩ := hnd
  rw [spliceSucc]
  refine .bind_eq (load_eq h0) ?_
  rw [hmem, nodeAt_rbParent hh.seg.aligned_up]
  refine .bind (replaceChild_spec hh.seg hh.root hop h0 hndp) fun h1 ⟨hroot1, hseg1, hframe1⟩ => ?_
  refine .bind_eq (load_eq hs0) ?_
  have hupal : Aligned (up down old) := by
    cases down with
    | nil => exact hal
    | cons f down => exact hseg.2.1
  rw [hframe1 succ hsp, hsmem, nodeAt_rbParent hupal, nodeAt_rbColor hupal]
  have hold1 : h1.mem old = nodeAt .left (up path 0) c0 (rootPtr l) (top down succ) :=
    (hframe1 old hop).trans hmem
  have hseg' : h1.IsSeg down old succ := hseg.frame fun z hz =>
    hframe1 z fun hc => hdp z hz z hc rfl
  have ht1 : h1.IsTree (up down old) (.node c .leaf succ t) :=
    ⟨hs0, hsal, (hframe1 succ hsp).trans hsmem, trivial, ht.frame fun z hz =>
      hframe1 z fun hc => htdp z hz z (.inr hc) rfl⟩
  refine .bind (detachSucc_spec h0 hal hold1 hseg' ht1 hnddown hdir) ?_
  rintro ⟨h2, parent⟩ ⟨rfl, hroot2, ⟨q, hsmem2⟩, hplug2, hframe2⟩
  have hkeep2 : ∀ z, z ≠ succ → z ∉ t.toList → z ∉ pathNodes down → h2.mem z = h1.mem z :=
    fun z hzs hzt hzd => hframe2 z (by simp [hzs, hzt, hzd])
  refine .bind_eq (load_eq h0) ?_
  have hold2 : h2.mem old = nodeAt .left (up path 0) c0 (rootPtr l) (top down succ) :=
    (hkeep2 old hos hot hod).trans hold1
  rw [hold2]
  refine .bind_eq (modify_eq hs0 _) ?_
  rw [hsmem2]
  have hl2 : h2.IsTree old l := hltree.frame fun z hz => by
    have hzt : z ∉ t.toList := fun hc => hlrest z hz z (.inl hc) rfl
    have hzd : z ∉ pathNodes down := fun hc => hlrest z hz z (.inr (.inl hc)) rfl
    have hzp : z ∉ pathNodes path := fun hc => hlrest z hz z (.inr (.inr hc)) rfl
    rw [hkeep2 z (ne_of_mem_of_not_mem hz hsl) hzt hzd, hframe1 z hzp]
  have hseg2 : h2.IsSeg path 0 succ := hseg1.frame fun z hz => by
    have hzt : z ∉ t.toList := fun hc => htdp z hc z (.inr hz) rfl
    have hzd : z ∉ pathNodes down := fun hc => hdp z hc z hz rfl
    exact hkeep2 z (ne_of_mem_of_not_mem hz hsp) hzt hzd
  have hsplug : succ ∉ (plug down t).toList := by
    rw [perm_plug.mem_iff, mem_append, not_or]
    exact ⟨hst, hsd⟩
  refine .bind (rbSetParent_spec (hl2.frame (put_off hsl _)) hl hal hndl)
    fun h3 ⟨hroot3, hl3, hframe3⟩ => ?_
  refine .ret ⟨rfl, ?_, rfl, ?_⟩
  · cases down <;> rfl
  refine (holds_append down).mpr ⟨?_, ⟨hs0, hsal, ?_, hl3, ?_⟩, ?_, ?_⟩
  · rw [hroot3, put_root, hroot2, hroot1]
    rfl
  · rw [hframe3 succ hsl, put_self]
    rfl
  · refine Heap.IsSeg.frame (hseg2.frame (put_off hsp _)) fun z hz => hframe3 z fun hc => ?_
    exact hlrest z hc z (.inr (.inr hz)) rfl
  · refine Heap.IsTree.frame (hplug2.frame (put_off hsplug _)) fun z hz => hframe3 z fun hc => ?_
    rw [perm_plug.mem_iff, mem_append] at hz
    rcases hz with hz | hz
    · exact hlrest z hc z (.inl hz) rfl
    · exact hlrest z hc z (.inr (.inl hz)) rfl
  · rw [pathNodes_append, ← append_assoc] at hnd'
    exact (perm_plug.append_right _).nodup_iff.mpr hnd'

end

end SilanKernel.Rbtree
