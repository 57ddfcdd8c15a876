import SilanKernel.Lib.Rbtree
import Mathlib.Data.List.Nodup

/-!
# SilanKernel.Lib.RbtreeSound

Insertion and removal in red-black trees: **the order of the nodes** and **the colours**.

A place splits the nodes of the rest of the tree into those `before` it and those `after`
it. No rotation or recolouring moves a node across the place, which gives the order of the
nodes after `rb_insert_color` and `rb_erase`. The colours are needed for the code to run at
all: it follows pointers to grandparents and siblings that exist only in valid trees. `RB`
is validity of a subtree and `Ctx` that of the tree around a place; both count black nodes.
-/

namespace SilanKernel.Rbtree

open Option Bool List EraseStep

variable {α : Type} {t t' l r node near far : Tree α} {p path p' : Path α} {x : α} {c c' : Color}
  {d : Dir} {n m : Nat} {f parent gparent : Frame α}

/-! ### The order of the nodes -/

@[simp] theorem toList_leaf : (Tree.leaf : Tree α).toList = [] := rfl

@[simp] theorem toList_node : (Tree.node c l x r).toList = l.toList ++ x :: r.toList := rfl

@[simp] theorem toList_setColor : (t.setColor c).toList = t.toList := by
  cases t <;> rfl

@[simp] theorem toList_join_left :
    (join .left c near x far).toList = near.toList ++ x :: far.toList := rfl

@[simp] theorem toList_join_right :
    (join .right c near x far).toList = far.toList ++ x :: near.toList := rfl

theorem length_toList : t.toList.length = t.size := by
  induction t with
  | leaf => rfl
  | node c l x r ihl ihr =>
    simp only [toList_node, length_append, length_cons, ihl, ihr, Tree.size]
    omega

/-- The nodes before a place. -/
def before : Path α → List α
  | [] => []
  | f :: path =>
    match f.dir with
    | .left => before path
    | .right => before path ++ f.other.toList ++ [f.entry]

/-- The nodes after a place. -/
def after : Path α → List α
  | [] => []
  | f :: path =>
    match f.dir with
    | .left => f.entry :: f.other.toList ++ after path
    | .right => after path

theorem toList_plug : (plug p t).toList = before p ++ t.toList ++ after p := by
  induction p generalizing t with
  | nil => simp [plug, before, after]
  | cons f p ih =>
    obtain ⟨d, c, x, o⟩ := f
    cases d <;> simp [plug, ih, Frame.fill, before, after]

theorem before_append : before (p ++ path) = before path ++ before p := by
  induction p with
  | nil => simp [before]
  | cons f p ih => cases hd : f.dir <;> simp [before, hd, ih]

theorem after_append : after (p ++ path) = after p ++ after path := by
  induction p with
  | nil => simp [after]
  | cons f p ih => cases hd : f.dir <;> simp [after, hd, ih]

theorem insertRotate_toList (h : insertRotate node parent gparent = some t) :
    t.toList = (plug [parent, gparent] node).toList := by
  obtain ⟨pd, pc, px, po⟩ := parent
  obtain ⟨gd, gc, gx, go⟩ := gparent
  cases node with
  | leaf =>
    by_cases hd : pd = gd
    · subst hd
      simp only [insertRotate, if_true, some.injEq] at h
      subst h
      cases pd <;> simp [plug, Frame.fill]
    · simp [insertRotate, hd] at h
  | node c l y r =>
    by_cases hd : pd = gd
    · subst hd
      simp only [insertRotate, if_true, some.injEq] at h
      subst h
      cases pd <;> simp [plug, Frame.fill]
    · simp only [insertRotate, hd, if_false, some.injEq] at h
      subst h
      cases pd <;> cases gd <;> simp_all [plug, Frame.fill, Tree.child, Dir.flip]

/-- **`rb_insert_color` keeps the order.** -/
theorem rbInsertColor_toList (h : rbInsertColor node p = some t) :
    t.toList = before p ++ node.toList ++ after p := by
  rw [← toList_plug]
  induction node, p using rbInsertColor.induct with
  | case1 node =>
    obtain rfl := some.inj h
    simp [plug]
  | case2 node parent hc => simp [rbInsertColor, hc] at h
  | case3 node parent hc =>
    simp only [rbInsertColor, hc, if_false, some.injEq] at h
    subst h
    simp [plug]
  | case4 node parent gparent path hc hb =>
    simp only [rbInsertColor, hc, hb, if_true] at h
    obtain ⟨top, htop, h⟩ := bind_eq_some_iff.mp h
    obtain rfl := some.inj h
    have := insertRotate_toList htop
    rw [toList_setColor, toList_plug, this, ← toList_plug]
    rfl
  | case5 node parent gparent path hc hb ih =>
    simp only [rbInsertColor, hc, hb, if_true] at h
    rw [ih h, toList_plug]
    obtain ⟨pd, pc, px, po⟩ := parent
    obtain ⟨gd, gc, gx, go⟩ := gparent
    cases pd <;> cases gd <;> simp [plug, toList_plug, Frame.fill]
  | case6 node parent gparent path hc =>
    simp only [rbInsertColor, hc, if_false, some.injEq] at h
    subst h
    simp

/-- The subtree a pass of the removal loop leaves. -/
def EraseStep.tree : EraseStep α → Tree α
  | .up t => t
  | .done t => t

theorem eraseStep_toList (h : eraseStep node parent = some s) :
    s.tree.toList = (parent.fill node).toList := by
  obtain ⟨d, c, x, o⟩ := parent
  cases o with
  | leaf => simp [eraseStep] at h
  | node oc ol y or =>
    simp only [eraseStep] at h
    split at h
    · obtain rfl := some.inj h
      cases d <;> simp [tree, Frame.fill]
    split at h
    · -- The near child moves up between the sibling and the parent.
      split at h
      · cases h
      · rename_i hnear
        obtain rfl := some.inj h
        cases d <;>
          simp [tree, Frame.fill, Tree.child, Dir.flip] at hnear ⊢ <;> simp [hnear]
    · obtain rfl := some.inj h
      cases d <;> simp [tree, Frame.fill, Tree.child, Dir.flip]

/-- `__rb_erase_color` keeps the order. -/
theorem rbEraseColor_toList (h : rbEraseColor node p = some t) :
    t.toList = before p ++ node.toList ++ after p := by
  rw [← toList_plug]
  induction p generalizing node with
  | nil =>
    obtain rfl := some.inj h
    simp [plug]
  | cons parent path ih =>
    simp only [rbEraseColor] at h
    split at h
    · obtain rfl := some.inj h
      simp [toList_plug]
    split at h
    · cases h
    · rename_i ol x or ho
      obtain ⟨s, hs, h⟩ := bind_eq_some_iff.mp h
      have hlist := eraseStep_toList hs
      obtain ⟨d, c, y, o⟩ := parent
      simp only at ho
      subst ho
      cases s with
      | up u =>
        obtain rfl := some.inj h
        cases d <;> simp_all [tree, toList_plug, plug, Frame.fill, Tree.child, Dir.flip]
      | done u =>
        obtain rfl := some.inj h
        cases d <;> simp_all [tree, toList_plug, plug, Frame.fill, Tree.child, Dir.flip]
    · obtain ⟨s, hs, h⟩ := bind_eq_some_iff.mp h
      have hlist := eraseStep_toList hs
      cases s with
      | up u =>
        rw [ih h, toList_plug, plug, toList_plug, ← hlist]
        rfl
      | done u =>
        obtain rfl := some.inj h
        rw [toList_setColor, toList_plug, plug, toList_plug, ← hlist]
        rfl

theorem leftmost_toList (h : leftmost t p = some (p', c, x, r)) :
    before p' = before p ∧ x :: r.toList ++ after p' = t.toList ++ after p := by
  induction t, p using leftmost.induct with
  | case1 => cases h
  | case2 c y r path =>
    obtain ⟨rfl, -, rfl, rfl⟩ := h
    simp
  | case3 c l y r path hl ih =>
    rw [leftmost] at h
    · obtain ⟨hb, ha⟩ := ih h
      exact ⟨by simpa [before] using hb, by simpa [after] using ha⟩
    · exact hl

theorem eraseFinish_toList (h : eraseFinish c node p = some t) :
    t.toList = before p ++ node.toList ++ after p := by
  by_cases hc : c = .black
  · rw [eraseFinish, if_pos hc] at h
    exact rbEraseColor_toList h
  · rw [eraseFinish, if_neg hc] at h
    obtain rfl := some.inj h
    exact toList_plug

theorem eraseAt_toList (h : eraseAt p c l r = some t) :
    t.toList = before p ++ (l.toList ++ r.toList) ++ after p := by
  cases l with
  | leaf =>
    have := eraseFinish_toList h
    simpa using this
  | node lc ll lx lr =>
    cases r with
    | leaf =>
      have := eraseFinish_toList h
      simpa using this
    | node rc rl rx rr =>
      obtain ⟨⟨down, color, succ, child⟩, hleft, h⟩ := bind_eq_some_iff.mp h
      obtain ⟨hb, ha⟩ := leftmost_toList hleft
      simp only [before, after, append_nil] at hb ha
      rw [eraseFinish_toList h, before_append, after_append, hb, ← ha]
      simp [before, after]

variable [DecidableEq α]

theorem locate_plug (h : locate x t p = some (p', c, l, r)) :
    plug p' (.node c l x r) = plug p t := by
  induction t generalizing p with
  | leaf => cases h
  | node yc yl y yr ihl ihr =>
    rw [locate] at h
    split at h
    · rename_i hxy
      obtain ⟨rfl, rfl, rfl, rfl⟩ := h
      rw [hxy]
    cases hl : locate x yl ({ dir := .left, color := yc, entry := y, other := yr } :: p) with
    | some res =>
      rw [hl, some_or] at h
      exact ihl (hl.trans h)
    | none =>
      rw [hl, none_or] at h
      exact ihr h

theorem locate_of_mem (h : x ∈ t.toList) : ∃ res, locate x t p = some res := by
  induction t generalizing p with
  | leaf => simp at h
  | node yc yl y yr ihl ihr =>
    rw [locate]
    by_cases hxy : x = y
    · exact ⟨_, if_pos hxy⟩
    rw [if_neg hxy]
    rcases mem_append.mp h with hl | hr
    · obtain ⟨res, hres⟩ :=
        ihl (p := { dir := .left, color := yc, entry := y, other := yr } :: p) hl
      exact ⟨res, by rw [hres]; rfl⟩
    have hr : x ∈ yr.toList := (mem_cons.mp hr).resolve_left hxy
    obtain ⟨res, hres⟩ := ihr (p := { dir := .right, color := yc, entry := y, other := yl } :: p) hr
    rw [hres]
    cases hl : locate x yl ({ dir := .left, color := yc, entry := y, other := yr } :: p) with
    | some res' => exact ⟨res', rfl⟩
    | none => exact ⟨res, rfl⟩

/-! ### The colours -/

omit [DecidableEq α]

/-- A valid subtree with a root of this colour and `n` black nodes on every path down. -/
inductive RB : Tree α → Color → Nat → Prop
  | leaf : RB .leaf .black 0
  | red {l r : Tree α} {x : α} {n : Nat} :
      RB l .black n → RB r .black n → RB (.node .red l x r) .red n
  | black {l r : Tree α} {x : α} {c c' : Color} {n : Nat} :
      RB l c n → RB r c' n → RB (.node .black l x r) .black (n + 1)

/-- The rest of a valid tree, around a place for a subtree with a root of this colour and
`n` black nodes on every path down. -/
inductive Ctx : Path α → Color → Nat → Prop
  | root {n : Nat} : Ctx [] .black n
  | red {d : Dir} {x : α} {o : Tree α} {path : Path α} {n : Nat} :
      Ctx path .red n → RB o .black n → Ctx (⟨d, .red, x, o⟩ :: path) .black n
  | black {d : Dir} {x : α} {o : Tree α} {path : Path α} {c c' : Color} {n : Nat} :
      Ctx path .black (n + 1) → RB o c' n → Ctx (⟨d, .black, x, o⟩ :: path) c n

/-- A valid tree. -/
def Valid (t : Tree α) : Prop := ∃ n, RB t .black n

theorem valid_leaf : Valid (.leaf : Tree α) := ⟨0, .leaf⟩

theorem RB.join_red (hn : RB near .black n) (hf : RB far .black n) :
    RB (join d .red near x far) .red n := by
  cases d with
  | left => exact .red hn hf
  | right => exact .red hf hn

theorem RB.join_black (hn : RB near c n) (hf : RB far c' n) :
    RB (join d .black near x far) .black (n + 1) := by
  cases d with
  | left => exact .black hn hf
  | right => exact .black hf hn

theorem RB.of_join_red (h : RB (join d .red near x far) c n) :
    c = .red ∧ RB near .black n ∧ RB far .black n := by
  cases d with
  | left =>
    cases h with
    | red hn hf => exact ⟨rfl, hn, hf⟩
  | right =>
    cases h with
    | red hf hn => exact ⟨rfl, hn, hf⟩

theorem RB.of_join_black (h : RB (join d .black near x far) c n) :
    c = .black ∧ ∃ m c1 c2, n = m + 1 ∧ RB near c1 m ∧ RB far c2 m := by
  cases d with
  | left =>
    cases h with
    | black hn hf => exact ⟨rfl, _, _, _, rfl, hn, hf⟩
  | right =>
    cases h with
    | black hf hn => exact ⟨rfl, _, _, _, rfl, hn, hf⟩

theorem RB.child_red (h : RB t .red n) : RB (t.child d) .black n := by
  cases h with
  | red hl hr =>
    cases d with
    | left => exact hl
    | right => exact hr

theorem RB.child_black (h : RB t .black (n + 1)) : ∃ c, RB (t.child d) c n := by
  cases h with
  | black hl hr =>
    cases d with
    | left => exact ⟨_, hl⟩
    | right => exact ⟨_, hr⟩

theorem RB.isBlack_iff (h : RB t c n) : t.isBlack = true ↔ c = .black := by
  cases h with
  | leaf => simp [Tree.isBlack]
  | red => simp [Tree.isBlack]
  | black => simp [Tree.isBlack]

theorem RB.blacken (h : RB t .red n) : RB (t.setColor .black) .black (n + 1) := by
  cases h with
  | red hl hr => exact .black hl hr

/-- Blackening the root of a valid tree changes nothing, that of an almost valid one
makes it valid. -/
theorem RB.valid_blacken (h : RB t c n) : Valid (t.setColor .black) := by
  cases h with
  | leaf => exact ⟨_, .leaf⟩
  | red hl hr => exact ⟨_, .black hl hr⟩
  | black hl hr => exact ⟨_, .black hl hr⟩

theorem Valid.blacken (h : Valid t) : Valid (t.setColor .black) := by
  obtain ⟨n, h⟩ := h
  exact h.valid_blacken

/-- A place that accepts a red root accepts a black one. -/
theorem Ctx.weaken (h : Ctx p c n) : Ctx p .black n := by
  cases h with
  | root => exact .root
  | red hp ho => exact .red hp ho
  | black hp ho => exact .black hp ho

theorem Ctx.plug (hp : Ctx p c n) (ht : RB t c n) : Valid (plug p t) := by
  induction hp generalizing t with
  | root => exact ⟨_, ht⟩
  | red _ ho ih => exact ih (.join_red ht ho)
  | black _ ho ih => exact ih (.join_black ht ho)

/-- A place in a valid tree has valid surroundings. -/
theorem Valid.ctx (h : Valid (Rbtree.plug p t)) : ∃ c n, RB t c n ∧ Ctx p c n := by
  induction p generalizing t with
  | nil =>
    obtain ⟨n, h⟩ := h
    exact ⟨_, n, h, .root⟩
  | cons f p ih =>
    obtain ⟨d, fc, x, o⟩ := f
    obtain ⟨c, n, ht, hp⟩ := ih h
    cases fc with
    | red =>
      obtain ⟨rfl, hn, hf⟩ := RB.of_join_red ht
      exact ⟨_, _, hn, .red hp hf⟩
    | black =>
      obtain ⟨rfl, m, c1, c2, rfl, hn, hf⟩ := RB.of_join_black ht
      exact ⟨_, _, hn, .black hp hf⟩

theorem insertRotate_rb (ht : RB node .red n) (hp : RB po .black n) (hg : RB go .black n) :
    ∃ t, insertRotate node ⟨pd, .red, px, po⟩ ⟨gd, gc, gx, go⟩ = some t ∧ RB t .black (n + 1) := by
  by_cases hd : pd = gd
  · exact ⟨_, if_pos hd, .join_black ht (.join_red hp hg)⟩
  · have hchild : ∀ d, RB (node.child d) .black n := fun d => ht.child_red
    cases ht with
    | red hl hr =>
      exact ⟨_, if_neg hd, .join_black (.join_red hp (hchild _)) (.join_red (hchild _) hg)⟩

/-- **`rb_insert_color` runs and leaves a valid tree**, for a red node in a place that
accepts a black one. -/
theorem rbInsertColor_valid (ht : RB node .red n) (hp : Ctx p .black n) :
    ∃ t, rbInsertColor node p = some t ∧ Valid t := by
  induction node, p using rbInsertColor.induct generalizing n with
  | case1 node => exact ⟨_, rfl, ht.valid_blacken⟩
  | case2 node parent hc =>
    -- A red parent is never the root.
    cases hp with
    | red hroot _ => nomatch hroot
    | black => simp at hc
  | case3 node parent hc =>
    cases hp with
    | red => simp at hc
    | black hp ho => exact ⟨_, if_neg hc, (RB.join_black ht ho).valid_blacken⟩
  | case4 node parent gparent path hc hb =>
    cases hp with
    | black => simp at hc
    | red hg ho =>
      cases hg with
      | black hpath hu =>
        obtain rfl := hu.isBlack_iff.mp hb
        obtain ⟨t, hrot, ht⟩ := insertRotate_rb ht ho hu
        refine ⟨_, ?_, (hpath.plug ht).blacken⟩
        rw [rbInsertColor, if_pos hc, if_pos hb, hrot]
        rfl
  | case5 node parent gparent path hc hb ih =>
    cases hp with
    | black => simp at hc
    | red hg ho =>
      cases hg with
      | @black gd gx u _ _ c' _ hpath hu =>
        have hred : c' = .red := by
          cases c' with
          | red => rfl
          | black => exact absurd (hu.isBlack_iff.mpr rfl) hb
        subst hred
        rw [rbInsertColor, if_pos hc, if_neg hb]
        exact ih (.join_red (.join_black ht ho) hu.blacken) hpath
  | case6 node parent gparent path hc =>
    cases hp with
    | red => simp at hc
    | black hp ho => exact ⟨_, if_neg hc, (hp.plug (.join_black ht ho)).blacken⟩

/-- Linking a node at a free place and `rb_insert_color`. -/
theorem rbInsert_spec (h : Valid (plug p .leaf)) :
    ∃ t, rbInsert x p = some t ∧ Valid t ∧ t.toList = before p ++ x :: after p := by
  obtain ⟨c, n, hleaf, hp⟩ := h.ctx
  cases hleaf with
  | leaf =>
    obtain ⟨t, ht, hv⟩ := rbInsertColor_valid (RB.red (x := x) .leaf .leaf) hp
    refine ⟨t, ht, hv, ?_⟩
    simpa using rbInsertColor_toList ht

/-- One pass of the removal loop with a black sibling: the subtree under the parent gets
back its black node, or the whole subtree now lacks one. -/
theorem eraseStep_rb (ht : RB node .black n) (ho : RB o .black (n + 1)) :
    ∃ s, eraseStep node ⟨d, k, y, o⟩ = some s ∧
      ((∃ o', RB o' .red n ∧ s = .up (join d k node y o')) ∨
        ∃ near z far, RB near .black (n + 1) ∧ RB far .black (n + 1) ∧
          s = .done (join d k near z far)) := by
  obtain ⟨cn, hnear⟩ := ho.child_black (d := d)
  obtain ⟨cf, hfar⟩ := ho.child_black (d := d.flip)
  cases ho with
  | @black l r x c c' _ hl hr =>
    by_cases hcf : cf = .black
    · subst hcf
      cases cn with
      | black =>
        refine ⟨_, if_pos ?_, .inl ⟨_, ?_, rfl⟩⟩
        · simp [hnear.isBlack_iff, hfar.isBlack_iff]
        · cases d with
          | left => exact .red hnear hfar
          | right => exact .red hfar hnear
      | red =>
        simp only [eraseStep, hfar.isBlack_iff.mpr rfl, Bool.and_true]
        generalize (Tree.node .black l x r).child d = near at hnear ⊢
        have hchild : ∀ d, RB (near.child d) .black n := fun d => hnear.child_red
        cases hnear with
        | red ha hb =>
          refine ⟨_, rfl, .inr ⟨_, _, _, ?_, ?_, rfl⟩⟩
          · exact .join_black ht (hchild d)
          · exact .join_black (hchild d.flip) hfar
    · have hcf : cf = .red := by
        cases cf with
        | red => rfl
        | black => exact absurd rfl hcf
      subst hcf
      have hb : ((Tree.node .black l x r).child d.flip).isBlack = false := by
        rw [← not_eq_true, hfar.isBlack_iff]
        simp
      simp only [eraseStep, hb, Bool.and_false]
      exact ⟨_, rfl, .inr ⟨_, _, _, .join_black ht hnear, hfar.blacken, rfl⟩⟩

theorem setColor_join : (join d c near x far).setColor c' = join d c' near x far := by
  cases d <;> rfl

theorem isBlack_join_red : (join d .red near x far).isBlack = false := by
  cases d <;> rfl

/-- A red node ends the removal loop. -/
theorem rbEraseColor_red (h : node.isBlack = false) :
    rbEraseColor node p = some (plug p (node.setColor .black)) := by
  cases p with
  | nil => rfl
  | cons f p => rw [rbEraseColor, h]; rfl

/-- **`__rb_erase_color` runs and leaves a valid tree**, where the subtree at the place
lacks one black node. -/
theorem rbEraseColor_valid (ht : RB node c n) (hp : Ctx p .black (n + 1)) :
    ∃ t, rbEraseColor node p = some t ∧ Valid t := by
  induction p generalizing node c n with
  | nil => exact ⟨_, rfl, ht.valid_blacken⟩
  | cons parent path ih =>
    cases c with
    | red =>
      have hb : node.isBlack = false := by
        rw [← not_eq_true, ht.isBlack_iff]
        simp
      exact ⟨_, rbEraseColor_red hb, hp.plug ht.blacken⟩
    | black =>
      have hb : node.isBlack = true := ht.isBlack_iff.mpr rfl
      cases hp with
      | @red pd px o _ _ hpath ho =>
        obtain ⟨s, hs, hcases⟩ := eraseStep_rb (d := pd) (k := .red) (y := px) ht ho
        cases ho with
        | black hl hr =>
          simp only [rbEraseColor, hb, Bool.not_true, Bool.false_eq_true, if_false, hs]
          rcases hcases with ⟨o', ho', rfl⟩ | ⟨near, y, far, hn, hf, rfl⟩
          · -- The parent is red: it takes the black node that is missing.
            refine ⟨_, rbEraseColor_red isBlack_join_red, ?_⟩
            rw [setColor_join]
            exact hpath.weaken.plug (.join_black ht ho')
          · exact ⟨_, rfl, (hpath.plug (.join_red hn hf)).blacken⟩
      | @black pd px o _ _ c' _ hpath ho =>
        cases c' with
        | black =>
          obtain ⟨s, hs, hcases⟩ := eraseStep_rb (d := pd) (k := .black) (y := px) ht ho
          cases ho with
          | black hl hr =>
            simp only [rbEraseColor, hb, Bool.not_true, Bool.false_eq_true, if_false, hs]
            rcases hcases with ⟨o', ho', rfl⟩ | ⟨near, y, far, hn, hf, rfl⟩
            · exact ih (.join_black ht ho') hpath
            · exact ⟨_, rfl, (hpath.plug (.join_black hn hf)).blacken⟩
        | red =>
          have hnear := ho.child_red (d := pd)
          have hfar := ho.child_red (d := pd.flip)
          obtain ⟨s, hs, hcases⟩ := eraseStep_rb (d := pd) (k := .red) (y := px) ht hnear
          cases ho with
          | red hl hr =>
            simp only [rbEraseColor, hb, Bool.not_true, Bool.false_eq_true, if_false, hs]
            rcases hcases with ⟨o', ho', rfl⟩ | ⟨near, y, far, hn, hf, rfl⟩
            · refine ⟨_, rfl, ?_⟩
              rw [setColor_join]
              exact (Ctx.black hpath hfar).plug (.join_black ht ho')
            · exact ⟨_, rfl, ((Ctx.black hpath hfar).plug (.join_red hn hf)).blacken⟩

/-- The child of a node without a second child takes its place. -/
theorem eraseFinish_valid (h : Valid (plug p (join d c .leaf x t))) :
    ∃ t', eraseFinish c t p = some t' ∧ Valid t' := by
  obtain ⟨c', n, hnode, hp⟩ := h.ctx
  cases c with
  | red =>
    obtain ⟨rfl, -, ht⟩ := hnode.of_join_red
    exact ⟨_, if_neg (by decide), hp.weaken.plug ht⟩
  | black =>
    obtain ⟨rfl, m, c1, c2, rfl, -, ht⟩ := hnode.of_join_black
    rw [eraseFinish, if_pos rfl]
    exact rbEraseColor_valid ht hp

/-- The leftmost node has no left child. -/
theorem leftmost_plug (h : leftmost t p = some (p', c, x, r)) :
    plug p' (.node c .leaf x r) = plug p t := by
  induction t, p using leftmost.induct with
  | case1 => cases h
  | case2 c y r path =>
    obtain ⟨rfl, rfl, rfl, rfl⟩ := h
    rfl
  | case3 c l y r path hl ih =>
    rw [leftmost] at h
    · exact ih h
    · exact hl

theorem leftmost_isSome (h : t ≠ .leaf) : ∃ res, leftmost t p = some res := by
  induction t, p using leftmost.induct with
  | case1 => exact absurd rfl h
  | case2 c y r path => exact ⟨_, rfl⟩
  | case3 c l y r path hl ih =>
    rw [leftmost]
    · exact ih hl
    · exact hl

theorem plug_append : plug (p ++ path) t = plug path (plug p t) := by
  induction p generalizing t with
  | nil => rfl
  | cons f p ih => exact ih

/-- Validity does not look at the entries. -/
theorem Valid.set_entry (h : Valid (Rbtree.plug p (.node c l x r))) :
    Valid (Rbtree.plug p (.node c l y r)) := by
  obtain ⟨c', n, hnode, hp⟩ := h.ctx
  refine hp.plug ?_
  cases hnode with
  | red hl hr => exact .red hl hr
  | black hl hr => exact .black hl hr

theorem eraseAt_valid (h : Valid (plug p (.node c l x r))) :
    ∃ t, eraseAt p c l r = some t ∧ Valid t := by
  cases l with
  | leaf => exact eraseFinish_valid (d := .left) h
  | node lc ll lx lr =>
    cases r with
    | leaf => exact eraseFinish_valid (d := .right) h
    | node rc rl rx rr =>
      obtain ⟨⟨down, color, succ, child⟩, hleft⟩ :=
        leftmost_isSome (t := .node rc rl rx rr) (p := []) nofun
      simp only [eraseAt, hleft, bind_eq_bind, bind_some]
      refine eraseFinish_valid (d := .left) (x := succ) ?_
      -- Before the removal the successor's place is the leftmost one on the right.
      rw [plug_append]
      have hplug := leftmost_plug hleft
      simp only [join, hplug]
      exact h.set_entry

variable [DecidableEq α]

end SilanKernel.Rbtree
