import SilanKernel.Data.Memory
import SilanKernel.Lib.RbtreeRefine

/-!
# SilanKernel.Lib.RbtreeLoops

The **loops** of `rb_insert_color` and `rb_erase` on the heap follow those on trees with a
cursor.

Each turn of a loop moves the cursor and calls the primitives there. Where the algorithm on
trees has a result, the heap code ends and the heap holds that result; so the facts about order
and balance of `SilanKernel.Lib.RbtreeSound` are facts about the heap.
-/

namespace SilanKernel.Rbtree

open List Option

variable {h : Heap} {d : Dir} {c c' : Color} {a b e t t' node near far : Tree Ptr} {x y p : Ptr}
  {path : Path Ptr} {parent gparent : Frame Ptr} {fuel : Nat}

/-! ### What the code tests -/

theorem Heap.IsTree.isBlack_eq (ht : h.IsTree p t) (hp : Aligned p) :
    h.isBlack (rootPtr t) = t.isBlack := by
  cases t with
  | leaf => rfl
  | node c l x r =>
    obtain ⟨h0, -, hmem, -, -⟩ := ht
    rw [rootPtr, Heap.isBlack, hmem, nodeAt_rbIsRed hp]
    cases c with
    | red => simpa [Tree.isBlack] using h0
    | black => simp [Tree.isBlack]

theorem Holds.isBlack_eq (hh : Holds h path t) : h.isBlack (rootPtr t) = t.isBlack :=
  hh.tree.isBlack_eq hh.seg.aligned_up

theorem isBlack_join : (join d c a x b).isBlack = decide (c = .black) := by
  cases d <;> cases c <;> rfl

section

variable (hh : Holds h (parent :: path) t)

include hh

theorem Holds.isBlack_parent : h.isBlack parent.entry = decide (parent.color = .black) := by
  have hblack := (holds_cons.mp hh).isBlack_eq
  rwa [Frame.fill, rootPtr_join, isBlack_join] at hblack

/-- A node and its sibling have different addresses, unless both are null. -/
theorem Holds.ne_sibling (hne : t ≠ .leaf ∨ parent.other ≠ .leaf) :
    rootPtr t ≠ rootPtr parent.other := by
  obtain ⟨-, -, -, hother, -⟩ := hh.seg
  have hdisj : ∀ z ∈ t.toList, z ∉ parent.other.toList := fun z hz hc =>
    (nodup_append.mp hh.nodup).2.2 z hz z (by simp [pathNodes, hc]) rfl
  by_cases ht : t = .leaf
  · subst ht
    exact (hother.rootPtr_ne (hne.resolve_left fun hc => hc rfl)).symm
  · exact ne_rootPtr (hdisj _ (rootPtr_mem ht)) (hh.tree.rootPtr_ne ht)

/-- The side of a node is found by comparing with the left child of its parent. -/
theorem Holds.side_eq (hne : t ≠ .leaf ∨ parent.other ≠ .leaf) :
    (if rootPtr t = (h.mem parent.entry).rbLeft then Dir.left else Dir.right) = parent.dir := by
  obtain ⟨-, -, hmem, -, -⟩ := hh.seg
  rw [hmem]
  cases hd : parent.dir with
  | left => exact if_pos rfl
  | right => exact if_neg (hh.ne_sibling hne)

end

theorem isSeg_top_ne (hs : h.IsSeg (parent :: path) 0 hole) :
    top (parent :: path) hole ≠ 0 ∧ top (parent :: path) hole ∈ pathNodes (parent :: path) := by
  induction path generalizing parent hole with
  | nil => exact ⟨hs.1, by simp [top, pathNodes]⟩
  | cons f path ih =>
    obtain ⟨hne, hmem⟩ := ih hs.2.2.2.2
    refine ⟨hne, ?_⟩
    rw [pathNodes]
    exact mem_cons_of_mem _ (mem_append_right _ hmem)

/-- A node below another is not the root. -/
theorem Holds.ne_root (hh : Holds h (parent :: path) t) : rootPtr t ≠ h.root := by
  obtain ⟨hne, hmem⟩ := isSeg_top_ne hh.seg
  rw [hh.root]
  by_cases ht : t = .leaf
  · subst ht
    exact hne.symm
  · intro hc
    rw [← hc] at hmem
    exact (nodup_append.mp hh.nodup).2.2 _ (rootPtr_mem ht) _ hmem rfl

/-! ### Enough turns -/

theorem length_le_pathNodes : path.length ≤ (pathNodes path).length := by
  induction path with
  | nil => exact Nat.le_refl _
  | cons f path ih =>
    rw [pathNodes, length_cons, length_cons, length_append]
    omega

theorem Holds.length_lt (hh : Holds h path t) : path.length + 1 < loopBound := by
  have hle := Memory.length_le_of_nodup (nodup_append.mp hh.nodup).2.1
  have hpath : path.length ≤ (pathNodes path).length := length_le_pathNodes
  rw [loopBound]
  omega

/-! ### Insertion -/

theorem setBlack_join (hh : Holds h path (join d c a x b)) :
    Ends (h.rbSetBlack x) fun h' => Holds h' path (join d .black a x b) := by
  have hset := rbSetBlack_spec hh join_ne_leaf
  rwa [rootPtr_join, setColor_join] at hset

theorem setRed_join (hh : Holds h path (join d c a x b)) :
    Ends (h.rbSetRed x) fun h' => Holds h' path (join d .red a x b) := by
  have hset := recolor_spec hh join_ne_leaf (w := fun v => v &&& ~~~1) fun _ _ hp => word_setRed hp
  rw [rootPtr_join, setColor_join] at hset
  exact hset

/-- `insertOuter` rotates the grandparent below the parent. -/
theorem insertOuter_spec (hh : Holds h path (join d c (join d c' a x b) y e)) :
    Ends (insertOuter d h x y) fun h' =>
      Holds h' path (join d .black a x (join d .red b y e)) := by
  rw [insertOuter]
  refine .bind (setBlack_join (holds_near.mp hh)) fun h1 hh1 => ?_
  refine .bind (setRed_join (holds_near.mpr hh1)) fun h2 hh2 => ?_
  rw [← join_flip, ← join_flip (c := .black)] at hh2
  refine .mono (rbRotate_spec hh2) fun h3 hh3 => ?_
  rwa [join_flip, join_flip] at hh3

/-- The loop ends at a node whose parent is black or null. -/
theorem insertLoop_exit (hh : Holds h path node) (hne : node ≠ .leaf)
    (hblack : ∀ f ∈ path.head?, f.color = .black) :
    insertLoop (fuel + 1) h (rootPtr node) = some h := by
  have hup : h.isBlack (up path 0) = true := by
    cases path with
    | nil => rfl
    | cons f path =>
      rw [up, hh.isBlack_parent]
      exact decide_eq_true (hblack f rfl)
  rw [insertLoop, load_eq (hh.tree.rootPtr_ne hne), bind_some]
  obtain ⟨c, l, x, r, rfl⟩ := exists_node hne
  obtain ⟨-, -, hmem, -, -⟩ := hh.tree
  simp only [rootPtr, hmem, nodeAt_rbParent hh.seg.aligned_up, hup, if_true]

theorem node_eq_join (d : Dir) :
    Tree.node c l x r = join d c ((Tree.node c l x r).child d) x
      ((Tree.node c l x r).child d.flip) := by
  cases d <;> rfl

theorem dir_eq_flip (hd : parent.dir ≠ d) : parent.dir = d.flip := by
  cases d <;> cases hp : parent.dir <;> simp_all [Dir.flip]

/-- The two rotations. The cursor is then below a black node. -/
theorem insertRotations_spec (hh : Holds h (parent :: gparent :: path) node) (hne : node ≠ .leaf)
    (he : insertRotate node parent gparent = some t) :
    Ends (insertInner gparent.dir h (rootPtr node) parent.entry) fun (h', n, p) =>
      Ends (insertOuter gparent.dir h' p gparent.entry) fun h' =>
        ∃ f t0, Holds h' (f :: path) t0 ∧ t0 ≠ .leaf ∧ rootPtr t0 = n ∧ f.color = .black ∧
          f.fill t0 = t := by
  obtain ⟨hp0, -, hmem, -, -⟩ := hh.seg
  have hparent := holds_cons.mp (holds_cons.mp hh)
  rw [Frame.fill, Frame.fill] at hparent
  rw [insertInner]
  refine .bind_eq (load_eq hp0) ?_
  rw [hmem]
  unfold insertRotate at he
  by_cases hd : parent.dir = gparent.dir
  · -- The outer side: no first rotation.
    rw [if_pos hd] at he
    rw [hd] at hparent
    rw [hd, nodeAt_child_flip, if_neg (hh.ne_sibling (.inl hne)).symm]
    refine .ret (.mono (insertOuter_spec hparent) fun h' hh' => ?_)
    exact ⟨_, node, holds_near.mp hh', hne, rfl, rfl, some.inj he⟩
  · rw [if_neg hd] at he
    rw [dir_eq_flip hd, join_flip] at hparent
    rw [dir_eq_flip hd, nodeAt_child, if_pos rfl]
    obtain ⟨c, l, x, r, rfl⟩ := exists_node hne
    rw [node_eq_join gparent.dir] at hparent
    refine .bind (rbRotate_spec (holds_near.mp hparent)) fun h1 hh1 => .ret ?_
    refine .mono (insertOuter_spec (holds_near.mpr hh1)) fun h' hh' => ?_
    exact ⟨_, _, holds_near.mp hh', join_ne_leaf, rootPtr_join, rfl, some.inj he⟩

/-- The change of colours below a red uncle. -/
theorem insertRecolor_spec (hh : Holds h (parent :: gparent :: path) node)
    (huncle : gparent.other ≠ .leaf) :
    Ends (insertRecolor h (rootPtr gparent.other) parent.entry gparent.entry) fun h' =>
      Holds h' path (join gparent.dir .red (join parent.dir .black node parent.entry parent.other)
        gparent.entry (gparent.other.setColor .black)) := by
  have hgparent := holds_cons.mp (holds_cons.mp hh)
  rw [Frame.fill, Frame.fill] at hgparent
  rw [insertRecolor]
  refine .bind (rbSetBlack_spec (holds_far.mp hgparent) huncle) fun h1 hh1 => ?_
  refine .bind (setBlack_join (holds_near.mp (holds_far.mpr hh1))) fun h2 hh2 => ?_
  exact setRed_join (holds_near.mpr hh2)

theorem eq_black_of_ne_red (hc : c ≠ .red) : c = .black := by
  cases c with
  | red => exact absurd rfl hc
  | black => rfl

/-- One turn below a red parent. -/
theorem insertLoop_turn (hh : Holds h (parent :: gparent :: path) node) (hne : node ≠ .leaf)
    (hred : parent.color = .red) :
    insertLoop (fuel + 1) h (rootPtr node) = (if gparent.other.isBlack then do
        let (h, node, parent) ← insertInner gparent.dir h (rootPtr node) parent.entry
        let h ← insertOuter gparent.dir h parent gparent.entry
        insertLoop fuel h node
      else do
        let h ← insertRecolor h (rootPtr gparent.other) parent.entry gparent.entry
        insertLoop fuel h gparent.entry) := by
  obtain ⟨-, -, hmem, -, hg0, hgal, hgmem, hgother, -⟩ := hh.seg
  have hside := (holds_cons.mp hh).side_eq (.inl join_ne_leaf)
  rw [Frame.fill, rootPtr_join] at hside
  have huncle : h.isBlack (rootPtr gparent.other) = gparent.other.isBlack := hgother.isBlack_eq hgal
  have hnode : (h.mem (rootPtr node)).rbParent = parent.entry := by
    obtain ⟨c, l, x, r, rfl⟩ := exists_node hne
    obtain ⟨-, -, hnmem, -, -⟩ := hh.tree
    rw [rootPtr, hnmem, nodeAt_rbParent hh.seg.aligned_up, up]
  have hparent : h.isBlack parent.entry = false := by
    rw [hh.isBlack_parent, hred]
    rfl
  rw [insertLoop, load_eq (hh.tree.rootPtr_ne hne), bind_some]
  dsimp only
  rw [hnode, hparent, if_neg Bool.false_ne_true, hmem, up, nodeAt_rbParent hgal, load_eq hg0,
    bind_some, hside]
  rw [hgmem, nodeAt_child_flip, huncle]

/-- **The loop of `rb_insert_color`**, by induction on its turns: the cursor goes up two
frames in each. -/
theorem insertLoop_spec (hh : Holds h path node) (hne : node ≠ .leaf)
    (he : rbInsertColor node path = some t) (hfuel : path.length + 1 < fuel) :
    Ends (insertLoop fuel h (rootPtr node)) fun h' =>
      ∃ t0, Holds h' [] t0 ∧ t0 ≠ .leaf ∧ t0.setColor .black = t := by
  induction fuel generalizing h path node with
  | zero => omega
  | succ fuel ih =>
    rcases path with _ | ⟨parent, _ | ⟨gparent, path⟩⟩
    · exact ⟨h, insertLoop_exit hh hne (by simp), node, hh, hne, some.inj he⟩
    · rw [rbInsertColor] at he
      split at he
      · cases he
      rename_i hblack
      refine ⟨h, insertLoop_exit hh hne ?_, _, holds_plug.mp hh, join_ne_leaf, some.inj he⟩
      intro f hf
      cases hf
      exact eq_black_of_ne_red hblack
    rw [rbInsertColor] at he
    by_cases hred : parent.color = .red
    · rw [if_pos hred] at he
      rw [insertLoop_turn hh hne hred]
      refine .ite (fun hblack => ?_) fun hblack => ?_
      · rw [if_pos hblack] at he
        obtain ⟨top, htop, he⟩ := bind_eq_some_iff.mp he
        refine .bind (insertRotations_spec hh hne htop) ?_
        rintro ⟨h1, n, p⟩ houter
        refine .bind houter ?_
        rintro h2 ⟨f, t0, hh2, ht0, rfl, hf, rfl⟩
        obtain ⟨fuel, rfl⟩ : ∃ k, fuel = k + 1 := ⟨fuel - 1, by simp at hfuel; omega⟩
        exact ⟨h2, insertLoop_exit hh2 ht0 (by simpa using hf), _, holds_plug.mp hh2,
          plug_cons_ne_leaf, some.inj he⟩
      · rw [if_neg hblack] at he
        refine .bind (insertRecolor_spec hh fun hc => hblack (by rw [hc]; rfl)) fun h1 hh1 => ?_
        have hrest := ih hh1 join_ne_leaf he (by simp at hfuel; omega)
        rwa [rootPtr_join] at hrest
    · rw [if_neg hred] at he
      refine ⟨h, insertLoop_exit hh hne ?_, _, holds_plug.mp hh, plug_cons_ne_leaf, some.inj he⟩
      intro f hf
      cases hf
      exact eq_black_of_ne_red hred

/-- **`rb_insert_color`** on the heap. -/
theorem heapInsertColor_spec (hh : Holds h path node) (hne : node ≠ .leaf)
    (he : rbInsertColor node path = some t) :
    Ends (heapInsertColor h (rootPtr node)) fun h' => Holds h' [] t := by
  rw [heapInsertColor]
  refine .bind (insertLoop_spec hh hne he hh.length_lt) ?_
  rintro h' ⟨t0, hh', hne', rfl⟩
  rw [hh'.root]
  exact rbSetBlack_spec hh' hne'

/-! ### Removal -/

/-- A red sibling is rotated above the parent. -/
theorem eraseRedOther_red (hh : Holds h path (join d c node x (join d .red near y far))) :
    Ends (eraseRedOther d h x y) fun (h', other) => other = rootPtr near ∧
      Holds h' path (join d .black (join d .red node x near) y far) := by
  obtain ⟨hx0, -, -, -, hother⟩ := isTree_join.mp hh.tree
  obtain ⟨hy0, -, hymem, -, -⟩ := isTree_join.mp hother
  rw [eraseRedOther]
  refine .bind_eq (load_eq hy0) ?_
  rw [hymem, nodeAt_rbIsRed (isTree_join.mp hh.tree).2.1]
  simp only [decide_true, if_true]
  refine .bind (setBlack_join (holds_far.mp hh)) fun h1 hh1 => ?_
  refine .bind (setRed_join (holds_far.mpr hh1)) fun h2 hh2 => ?_
  refine .bind (rbRotate_spec hh2) fun h3 hh3 => ?_
  refine .bind_eq (load_eq hx0) (.ret ⟨?_, hh3⟩)
  obtain ⟨-, -, -, hparent, -⟩ := isTree_join.mp hh3.tree
  obtain ⟨-, -, hmem, -, -⟩ := isTree_join.mp hparent
  rw [hmem, nodeAt_child_flip]

theorem eraseRedOther_black (hh : Holds h path (join d c node x (join d .black near y far))) :
    eraseRedOther d h x y = some (h, y) := by
  obtain ⟨-, hxal, -, -, hother⟩ := isTree_join.mp hh.tree
  obtain ⟨hy0, -, hymem, -, -⟩ := isTree_join.mp hother
  rw [eraseRedOther, load_eq hy0]
  simp [hymem, nodeAt_rbIsRed hxal]

section

variable (hh : Holds h path (join d c node x (join d c' near y far))) {s : EraseStep Ptr}

include hh

/-- The last case of the loop: the sibling is rotated above the parent, with the colour of the
parent. -/
theorem eraseFarRed_spec (hfar : far ≠ .leaf) : Ends (eraseFarRed d h x y) fun h' =>
      Holds h' path (join d c (join d .black node x near) y (far.setColor .black)) := by
  obtain ⟨hx0, -, hxmem, -, hother⟩ := isTree_join.mp hh.tree
  have hy0 := (isTree_join.mp hother).1
  rw [eraseFarRed]
  refine .bind_eq (load_eq hx0) ?_
  rw [hxmem, nodeAt_rbColor hh.seg.aligned_up]
  have hcolor := rbSetColor_spec (holds_far.mp hh) join_ne_leaf c
  rw [rootPtr_join, setColor_join] at hcolor
  refine .bind hcolor fun h1 hh1 => ?_
  refine .bind (setBlack_join (holds_far.mpr hh1)) fun h2 hh2 => ?_
  refine .bind_eq (load_eq hy0) ?_
  obtain ⟨-, -, hymem, -, -⟩ := isTree_join.mp (isTree_join.mp hh2.tree).2.2.2.2
  rw [hymem, nodeAt_child_flip]
  refine .bind (rbSetBlack_spec (holds_far.mp (holds_far.mp hh2)) hfar) fun h3 hh3 => ?_
  exact rbRotate_spec (holds_far.mpr (holds_far.mpr hh3))

/-- A red child of the sibling on the near side only: it is rotated above the sibling. -/
theorem eraseNearRed_black (hfar : far.isBlack = true) (hnear : near = join d c1 a p b) :
    Ends (eraseNearRed d h x y) fun (h', other) => other = p ∧
      Holds h' path (join d c node x (join d .black a p (join d .red b y far))) := by
  subst hnear
  obtain ⟨hx0, -, -, -, hother⟩ := isTree_join.mp hh.tree
  obtain ⟨hy0, hyal, hymem, -, hfartree⟩ := isTree_join.mp hother
  rw [eraseNearRed]
  refine .bind_eq (load_eq hy0) ?_
  rw [hymem, nodeAt_child_flip, hfartree.isBlack_eq hyal, hfar, nodeAt_child, rootPtr_join]
  simp only [if_true]
  refine .bind (setBlack_join (holds_near.mp (holds_far.mp hh))) fun h1 hh1 => ?_
  refine .bind (setRed_join (holds_near.mpr hh1)) fun h2 hh2 => ?_
  rw [← join_flip, ← join_flip (c := .black)] at hh2
  refine .bind (rbRotate_spec hh2) fun h3 hh3 => ?_
  rw [join_flip, join_flip] at hh3
  have hh3 := holds_far.mpr hh3
  refine .bind_eq (load_eq hx0) (.ret ⟨?_, hh3⟩)
  obtain ⟨-, -, hmem, -, -⟩ := isTree_join.mp hh3.tree
  rw [hmem, nodeAt_child_flip, rootPtr_join]

theorem eraseNearRed_red (hfar : far.isBlack = false) : eraseNearRed d h x y = some (h, y) := by
  obtain ⟨-, -, -, -, hother⟩ := isTree_join.mp hh.tree
  obtain ⟨hy0, hyal, hymem, -, hfartree⟩ := isTree_join.mp hother
  rw [eraseNearRed, load_eq hy0]
  simp [hymem, hfartree.isBlack_eq hyal, hfar]

end

/-- What a pass on the tree does, by the colours of the children of the sibling. -/
theorem eraseStep_cases (he : eraseStep node parent = some s) :
    ∃ c near y far, parent.other = join parent.dir c near y far ∧
      ((near.isBlack = true ∧ far.isBlack = true ∧ s = .up
          (join parent.dir parent.color node parent.entry (join parent.dir .red near y far))) ∨
        (near.isBlack = false ∧ far.isBlack = true ∧ ∃ c1 a p b, near = join parent.dir c1 a p b ∧
            s = .done (join parent.dir parent.color (join parent.dir .black node parent.entry a) p
              (join parent.dir .black b y far))) ∨
        (far.isBlack = false ∧
          s = .done (join parent.dir parent.color (join parent.dir .black node parent.entry near) y
            (far.setColor .black)))) := by
  unfold eraseStep at he
  split at he
  · exact absurd he nofun
  rename_i c l y r hother
  refine ⟨c, _, y, _, hother.trans (node_eq_join parent.dir), ?_⟩
  dsimp only at he
  generalize hnear : (Tree.node c l y r).child parent.dir = near at he ⊢
  generalize hfar : (Tree.node c l y r).child parent.dir.flip = far at he ⊢
  cases hf : far.isBlack with
  | false =>
    simp only [hf, Bool.and_false, Bool.false_eq_true, if_false, some.injEq] at he
    exact .inr (.inr ⟨rfl, he.symm⟩)
  | true =>
    cases hn : near.isBlack with
    | true =>
      simp only [hf, hn, Bool.and_self, if_true, some.injEq] at he
      refine .inl ⟨rfl, rfl, ?_⟩
      rw [← he, node_eq_join parent.dir, setColor_join, hnear, hfar]
    | false =>
      simp only [hf, hn, Bool.false_and, Bool.false_eq_true, if_false, if_true] at he
      cases near with
      | leaf => exact absurd he nofun
      | node c1 l1 p r1 =>
        exact .inr (.inl ⟨rfl, rfl, c1, _, p, _, node_eq_join parent.dir, (some.inj he).symm⟩)

theorem eraseStep_up_isBlack (he : eraseStep node parent = some (.up t)) :
    t.isBlack = decide (parent.color = .black) := by
  obtain ⟨c, near, y, far, -, hcases⟩ := eraseStep_cases he
  rcases hcases with ⟨-, -, hs⟩ | ⟨-, -, c1, a, p, b, -, hs⟩ | ⟨-, hs⟩
  · cases hs
    exact isBlack_join
  · exact absurd hs nofun
  · exact absurd hs nofun

theorem eraseBlackOther_spec (hh : Holds h (parent :: path) node)
    (he : eraseStep node parent = some s) :
    Ends (eraseBlackOther parent.dir h parent.entry (rootPtr parent.other)) fun (h', goOn) =>
      match s with
      | .up t => goOn = true ∧ Holds h' path t ∧ rootPtr t = parent.entry
      | .done t => goOn = false ∧ Holds h' path t := by
  obtain ⟨c, near, y, far, hother, hcases⟩ := eraseStep_cases he
  have hh := holds_cons.mp hh
  rw [Frame.fill, hother] at hh
  obtain ⟨hy0, hyal, hymem, hnear, hfar⟩ := isTree_join.mp (isTree_join.mp hh.tree).2.2.2.2
  rw [hother, rootPtr_join, eraseBlackOther, load_eq hy0, bind_some, hymem]
  simp only [nodeAt_children fun q => h.isBlack q = true, hnear.isBlack_eq hyal,
    hfar.isBlack_eq hyal]
  rcases hcases with ⟨hn, hf, rfl⟩ | ⟨hn, hf, c1, a, p, b, hnear, rfl⟩ | ⟨hf, rfl⟩
  · rw [if_pos ⟨hn, hf⟩]
    exact .bind (setRed_join (holds_far.mp hh)) fun h1 hh1 =>
      .ret ⟨rfl, holds_far.mpr hh1, rootPtr_join⟩
  · rw [if_neg (by simp [hn])]
    refine .bind (eraseNearRed_black hh hf hnear) ?_
    rintro ⟨h1, other⟩ ⟨rfl, hh1⟩
    refine .bind (eraseFarRed_spec hh1 join_ne_leaf) fun h2 hh2 => .ret ⟨rfl, ?_⟩
    rwa [setColor_join] at hh2
  · rw [if_neg (by simp [hf])]
    refine .bind_eq (eraseNearRed_red hh hf) ?_
    refine .bind (eraseFarRed_spec hh fun hc => ?_) fun h2 hh2 => .ret ⟨rfl, hh2⟩
    rw [hc] at hf
    cases hf

/-- The loop ends at a red node. -/
theorem eraseLoop_exit (hred : h.isBlack x = false ∨ x = h.root) :
    eraseLoop (fuel + 1) h x p = some (h, x) := by
  rw [eraseLoop, if_neg]
  rintro ⟨hb, hne⟩
  rcases hred with hred | hred
  · rw [hred] at hb
    cases hb
  · exact hne hred

/-- One turn at a black node below the root. -/
theorem eraseLoop_turn (hh : Holds h (parent :: path) node) (hblack : node.isBlack = true)
    (hother : parent.other ≠ .leaf) :
    eraseLoop (fuel + 1) h (rootPtr node) parent.entry =
      (eraseRedOther parent.dir h parent.entry (rootPtr parent.other)).bind fun (h, other) =>
        (eraseBlackOther parent.dir h parent.entry other).bind fun (h, goOn) =>
          if goOn then (h.load parent.entry).bind fun p => eraseLoop fuel h parent.entry p.rbParent
          else some (h, h.root) := by
  obtain ⟨hp0, -, hmem, -, -⟩ := hh.seg
  have hside := hh.side_eq (.inr hother)
  rw [eraseLoop, if_pos ⟨hh.isBlack_eq.trans hblack, hh.ne_root⟩, load_eq hp0, bind_some]
  dsimp only
  rw [show (if (h.mem parent.entry).rbLeft = rootPtr node then Dir.left else Dir.right) = parent.dir
    by rw [← hside]; simp only [eq_comm], hmem, nodeAt_child_flip]

/-- A turn with a black sibling, and the turns after it if the loop goes on. -/
theorem eraseLoop_rest (hh : Holds h (parent :: path) node) (he : eraseStep node parent = some s)
    (hdone : ∀ h' t, s = .done t → Holds h' path t → Q (h', h'.root))
    (hup : ∀ h' t, s = .up t → Holds h' path t →
      Ends (eraseLoop fuel h' (rootPtr t) (up path 0)) Q) :
    Ends ((eraseBlackOther parent.dir h parent.entry (rootPtr parent.other)).bind fun (h, goOn) =>
      if goOn then (h.load parent.entry).bind fun p => eraseLoop fuel h parent.entry p.rbParent
      else some (h, h.root)) Q := by
  refine .bind (eraseBlackOther_spec hh he) ?_
  rintro ⟨h1, goOn⟩ hstep
  cases s with
  | done t =>
    obtain ⟨rfl, hh1⟩ := hstep
    exact .ret (hdone h1 t rfl hh1)
  | up t =>
    obtain ⟨rfl, hh1, hroot⟩ := hstep
    have hgo := hup h1 t rfl hh1
    cases t with
    | leaf => exact absurd hroot.symm hh.seg.1
    | node c l x r =>
      obtain ⟨hx0, -, hmem, -, -⟩ := hh1.tree
      obtain rfl : x = parent.entry := hroot
      refine .bind_eq (load_eq hx0) ?_
      rw [hmem, nodeAt_rbParent hh1.seg.aligned_up]
      exact hgo

/-- **The loop of `__rb_erase_color`**, by induction on its turns. The last node is coloured
black after the loop. -/
theorem eraseLoop_spec (hh : Holds h path node) (he : rbEraseColor node path = some t)
    (hfuel : path.length + 1 < fuel) :
    Ends (eraseLoop fuel h (rootPtr node) (up path 0)) fun (h', n) =>
      ∃ path' t0, Holds h' path' t0 ∧ rootPtr t0 = n ∧ plug path' (t0.setColor .black) = t := by
  induction fuel generalizing h path node with
  | zero => omega
  | succ fuel ih =>
    cases path with
    | nil =>
      exact ⟨_, eraseLoop_exit (.inr hh.root.symm), [], node, hh, rfl, some.inj he⟩
    | cons parent path =>
      rw [rbEraseColor] at he
      rw [length_cons] at hfuel
      cases hblack : node.isBlack with
      | false =>
        simp only [hblack, Bool.not_false, if_true, some.injEq] at he
        have hexit := hh.isBlack_eq.trans hblack
        exact ⟨_, eraseLoop_exit (.inl hexit), parent :: path, node, hh, rfl, he⟩
      | true =>
        simp only [hblack, Bool.not_true, Bool.false_eq_true, if_false] at he
        rw [up]
        cases hother : parent.other with
        | leaf =>
          rw [hother] at he
          cases he
        | node c l y r =>
          have hne : parent.other ≠ .leaf := by
            rw [hother]
            simp
          rw [eraseLoop_turn hh hblack hne]
          rw [hother] at he
          have hjoin := holds_cons.mp hh
          rw [Frame.fill, hother, node_eq_join parent.dir] at hjoin
          cases c with
          | black =>
            obtain ⟨s, hs, he⟩ := bind_eq_some_iff.mp he
            have hsame : eraseRedOther parent.dir h parent.entry (rootPtr parent.other) =
                some (h, rootPtr parent.other) := by
              rw [hother]
              exact eraseRedOther_black hjoin
            rw [hsame, bind_some]
            refine eraseLoop_rest hh hs ?_ ?_
            · rintro h' t1 rfl hh'
              exact ⟨[], _, holds_plug.mp hh', (holds_plug.mp hh').root.symm, some.inj he⟩
            · rintro h' t1 rfl hh'
              exact ih hh' he (by omega)
          | red =>
            obtain ⟨s, hs, he⟩ := bind_eq_some_iff.mp he
            rw [hother]
            refine .bind (eraseRedOther_red hjoin) ?_
            rintro ⟨h1, other⟩ ⟨rfl, hh1⟩
            refine eraseLoop_rest (holds_near.mp (holds_near.mp hh1)) hs ?_ ?_
            · rintro h' t1 rfl hh'
              exact ⟨[], _, holds_plug.mp hh', (holds_plug.mp hh').root.symm, some.inj he⟩
            -- The parent is red now, so that the next turn leaves the loop.
            rintro h' t1 rfl hh'
            have hred : h'.isBlack (rootPtr t1) = false :=
              hh'.isBlack_eq.trans (eraseStep_up_isBlack hs)
            obtain ⟨fuel, rfl⟩ : ∃ k, fuel = k + 1 := ⟨fuel - 1, by omega⟩
            exact ⟨_, eraseLoop_exit (.inl hred), _, t1, hh', rfl, some.inj he⟩

/-- **`__rb_erase_color`** on the heap. -/
theorem heapEraseColor_spec (hh : Holds h path node) (he : rbEraseColor node path = some t) :
    Ends (heapEraseColor h (rootPtr node) (up path 0)) fun h' => Holds h' [] t := by
  rw [heapEraseColor]
  refine .bind (eraseLoop_spec hh he hh.length_lt) ?_
  rintro ⟨h', n⟩ ⟨path', t0, hh', rfl, rfl⟩
  by_cases hleaf : t0 = .leaf
  · subst hleaf
    exact .ret (holds_plug.mp hh')
  · refine .ite (fun hc => absurd hc (hh'.tree.rootPtr_ne hleaf)) fun _ => ?_
    exact .mono (rbSetBlack_spec hh' hleaf) fun _ hh'' => holds_plug.mp hh''

theorem eraseColorLabel_spec (hh : Holds h path node) (he : eraseFinish c node path = some t) :
    Ends (eraseColorLabel h (rootPtr node) (up path 0) (colorBit c)) fun h' => Holds h' [] t := by
  rw [eraseFinish] at he
  cases c with
  | black => exact heapEraseColor_spec hh he
  | red =>
    obtain rfl : plug path node = t := some.inj he
    exact ⟨h, if_neg (by decide), holds_plug.mp hh⟩

/-! ### The successor -/

theorem leftmost_dir {p p' : Path Ptr} (he : leftmost t p = some (p', c, x, e))
    (hp : ∀ f ∈ p.head?, f.dir = .left) : ∀ f ∈ p'.head?, f.dir = .left := by
  fun_induction leftmost t p with
  | case1 => exact absurd he nofun
  | case2 =>
    cases he
    exact hp
  | case3 path c l x r hl ih => exact ih he (by simp)

theorem goLeft_spec (ht : h.IsTree p t) (he : leftmost t p0 = some (p', c, x, e))
    (hfuel : t.size < fuel) :
    goLeft fuel h (rootPtr t) = some x := by
  induction fuel generalizing t p p0 with
  | zero => omega
  | succ fuel ih =>
    match t, ht, he, hfuel with
    | .node c .leaf y r, ht, he, _ =>
      cases he
      obtain ⟨h0, -, hmem, -, -⟩ := ht
      rw [rootPtr, goLeft, load_eq h0, bind_some, hmem]
      rfl
    | .node c (.node c1 l1 y1 r1) y r, ht, he, hfuel =>
      obtain ⟨h0, -, hmem, hl, -⟩ := ht
      rw [rootPtr, goLeft, load_eq h0, bind_some, hmem]
      refine (if_neg hl.1).trans (ih hl he ?_)
      simp only [Tree.size] at hfuel ⊢
      omega

/-! ### `rb_erase` -/

theorem eraseOne_spec (hh : Holds h path (join d c .leaf x t))
    (he : eraseFinish c t path = some t') :
    Ends (eraseOne h x (rootPtr t)) fun h' => Holds h' [] t' := by
  obtain ⟨h0, -, hmem, -, -⟩ := isTree_join.mp hh.tree
  rw [eraseOne]
  refine .bind_eq (load_eq h0) ?_
  rw [hmem, nodeAt_rbParent hh.seg.aligned_up, nodeAt_rbColor hh.seg.aligned_up]
  exact .bind (unlinkOne_spec hh) fun h' hh' => eraseColorLabel_spec hh' he

theorem eraseTwo_spec {l r : Tree Ptr} (hh : Holds h path (.node c l x r)) (hl : l ≠ .leaf)
    (hr : r ≠ .leaf) (he : eraseAt path c l r = some t) :
    Ends (eraseTwo h x) fun h' => Holds h' [] t := by
  obtain ⟨⟨down, color, succ, child⟩, hleft⟩ := leftmost_isSome (p := []) hr
  have hfinish : eraseFinish color child (down ++ ⟨.right, c, succ, l⟩ :: path) = some t := by
    rw [eraseAt, hleft] at he
    · exact he
    · exact hl
    · exact hr
  have hplug : plug down (.node color .leaf succ child) = r := leftmost_plug hleft
  obtain ⟨h0, -, hmem, -, hrtree⟩ := hh.tree
  have hsize : r.size < loopBound := by
    have hnd : r.toList.Nodup := by
      have := hh.nodup
      rw [toList_node] at this
      exact ((nodup_append.mp (nodup_append.mp this).1).2.1).of_cons
    have hle := Memory.length_le_of_nodup hnd
    rw [length_toList] at hle
    rw [loopBound]
    omega
  rw [eraseTwo]
  refine .bind_eq (load_eq h0) ?_
  rw [hmem]
  refine .bind_eq (goLeft_spec hrtree hleft hsize) ?_
  rw [← hplug] at hh
  refine .bind (spliceSucc_spec hh hl (leftmost_dir hleft (by simp))) ?_
  rintro ⟨h', child', parent', color'⟩ ⟨rfl, rfl, rfl, hh'⟩
  exact eraseColorLabel_spec hh' hfinish

/-- **`rb_erase`** on the heap. -/
theorem heapErase_spec (hh : Holds h path (.node c l x r)) (he : eraseAt path c l r = some t)
    : Ends (heapErase h x) fun h' => Holds h' [] t := by
  obtain ⟨h0, -, hmem, hltree, hrtree⟩ := hh.tree
  have hne : rootPtr l ≠ 0 → l ≠ .leaf := fun hz hc => hz (by rw [hc]; rfl)
  have hne' : rootPtr r ≠ 0 → r ≠ .leaf := fun hz hc => hz (by rw [hc]; rfl)
  rw [heapErase, load_eq h0, bind_some, hmem]
  refine .ite (fun hz => ?_) fun hz => .ite (fun hz' => ?_) fun hz' => ?_
  · obtain rfl : l = .leaf := not_not.mp fun hl => hltree.rootPtr_ne hl hz
    exact eraseOne_spec (d := .left) hh (by rwa [eraseAt] at he)
  · obtain rfl : r = .leaf := not_not.mp fun hr => hrtree.rootPtr_ne hr hz'
    refine eraseOne_spec (d := .right) hh ?_
    rwa [eraseAt] at he
    exact hne hz
  · exact eraseTwo_spec hh (hne hz) (hne' hz') he

end SilanKernel.Rbtree
