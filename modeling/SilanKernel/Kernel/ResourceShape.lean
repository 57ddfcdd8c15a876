import SilanKernel.Data.Run
import SilanKernel.Kernel.Resource

/-!
# SilanKernel.Kernel.ResourceShape

Resource trees **in memory**, seen from a slot.

A `Forest` is a chain of siblings with their children. A slot of the C code, the `child` field of
a resource or the `sibling` field of one, is a `Path`: the resources around the slot, up to the
root. `Holds h path f` says that the memory has the whole tree `plug path f` with all its
pointers, and the chain `f` in the slot; one lemma for each assignment of the code says how the
tree changes.
-/

namespace SilanKernel.ResourceTree

open List Memory

/-- A chain of siblings, each with its children. -/
inductive Forest where
  | nil
  | cons (x : Ptr) (start end_ : Nat) (children siblings : Forest)
  deriving DecidableEq, Repr

namespace Forest

def head : Forest → Ptr
  | nil => 0
  | cons x _ _ _ _ => x

def nodes : Forest → List Ptr
  | nil => []
  | cons x _ _ children siblings => x :: (children.nodes ++ siblings.nodes)

/-- The chain `f` continued by `g`. -/
def append : Forest → Forest → Forest
  | nil, g => g
  | cons x s e children siblings, g => cons x s e children (siblings.append g)

/-- `p` holds of the range of each resource of the chain, children apart. -/
def All (p : Nat → Nat → Prop) : Forest → Prop
  | nil => True
  | cons _ s e _ siblings => p s e ∧ siblings.All p

end Forest

/-- A resource next to a slot: the slot is its `child` or its `sibling` field. -/
inductive Frame where
  | child (x : Ptr) (start end_ : Nat) (siblings : Forest)
  | sibling (x : Ptr) (start end_ : Nat) (children : Forest)
  deriving DecidableEq, Repr

abbrev Path := List Frame

def Frame.fill (f : Forest) : Frame → Forest
  | .child x s e siblings => .cons x s e f siblings
  | .sibling x s e children => .cons x s e children f

/-- The whole tree, with the chain `f` in the slot. -/
def plug : Path → Forest → Forest
  | [], f => f
  | fr :: path, f => plug path (fr.fill f)

/-- The parent of the resources in the slot. -/
def up : Path → Ptr
  | [] => 0
  | .child x _ _ _ :: _ => x
  | .sibling _ _ _ _ :: path => up path

def Frame.slot : Frame → Slot
  | .child x _ _ _ => .child x
  | .sibling x _ _ _ => .sibling x

def Frame.nodes : Frame → List Ptr
  | .child x _ _ siblings => x :: siblings.nodes
  | .sibling x _ _ children => x :: children.nodes

def pathNodes : Path → List Ptr
  | [] => []
  | fr :: path => fr.nodes ++ pathNodes path

/-- The memory has the chain, with `parent` as the parent of each. -/
def IsForest (h : Mem Resource) : Ptr → Forest → Prop
  | _, .nil => True
  | parent, .cons x s e children siblings =>
    x ≠ 0 ∧ h x = ⟨s, e, parent, siblings.head, children.head⟩ ∧ IsForest h x children ∧
      IsForest h parent siblings

/-- The memory has the resources around a slot that points to `hole`. -/
def IsPath (h : Mem Resource) : Path → Ptr → Prop
  | [], _ => True
  | .child x s e siblings :: path, hole =>
    x ≠ 0 ∧ h x = ⟨s, e, up path, siblings.head, hole⟩ ∧ IsForest h (up path) siblings ∧
      IsPath h path x
  | .sibling x s e children :: path, hole =>
    x ≠ 0 ∧ h x = ⟨s, e, up path, hole, children.head⟩ ∧ IsForest h x children ∧ IsPath h path x

/-- **The memory holds the tree** with the chain `f` in the slot. -/
structure Holds (h : Mem Resource) (path : Path) (f : Forest) : Prop where
  around : IsPath h path f.head
  forest : IsForest h (up path) f
  nodup : (f.nodes ++ pathNodes path).Nodup

/-! ### Moving the cursor -/

theorem perm_fill : ((fr.fill f).nodes ++ pathNodes path).Perm
    (f.nodes ++ pathNodes (fr :: path)) := by
  cases fr with
  | child y s e siblings =>
    simp only [Frame.fill, Forest.nodes, pathNodes, Frame.nodes, cons_append, append_assoc]
    exact perm_middle.symm
  | sibling y s e children =>
    simp only [Frame.fill, Forest.nodes, pathNodes, Frame.nodes, cons_append, append_assoc]
    refine (List.Perm.cons y ?_).trans perm_middle.symm
    exact perm_append_comm_assoc _ _ _

theorem holds_cons : Holds h (fr :: path) f ↔ Holds h path (fr.fill f) := by
  constructor
  · rintro ⟨hpath, hforest, hnodup⟩
    cases fr with
    | child y s e siblings =>
      obtain ⟨h0, hmem, hsib, hpath⟩ := hpath
      exact ⟨hpath, ⟨h0, hmem, hforest, hsib⟩, perm_fill.nodup_iff.mpr hnodup⟩
    | sibling y s e children =>
      obtain ⟨h0, hmem, hch, hpath⟩ := hpath
      exact ⟨hpath, ⟨h0, hmem, hch, hforest⟩, perm_fill.nodup_iff.mpr hnodup⟩
  · rintro ⟨hpath, hforest, hnodup⟩
    cases fr with
    | child y s e siblings =>
      obtain ⟨h0, hmem, hch, hsib⟩ := hforest
      exact ⟨⟨h0, hmem, hsib, hpath⟩, hch, perm_fill.nodup_iff.mp hnodup⟩
    | sibling y s e children =>
      obtain ⟨h0, hmem, hch, hsib⟩ := hforest
      exact ⟨⟨h0, hmem, hch, hpath⟩, hsib, perm_fill.nodup_iff.mp hnodup⟩

theorem holds_append (path' : Path) : Holds h (path' ++ path) f ↔ Holds h path (plug path' f) := by
  induction path' generalizing f with
  | nil => exact Iff.rfl
  | cons fr path' ih => exact holds_cons.trans ih

/-- The cursor at the root. -/
theorem holds_plug : Holds h path f ↔ Holds h [] (plug path f) := by
  have happend : Holds h (path ++ []) f ↔ Holds h [] (plug path f) := holds_append path
  rwa [append_nil] at happend

theorem plug_append (path' : Path) : plug (path' ++ path) f = plug path (plug path' f) := by
  induction path' generalizing f with
  | nil => rfl
  | cons fr path' ih => exact ih

theorem perm_plug : (plug path f).nodes.Perm (f.nodes ++ pathNodes path) := by
  induction path generalizing f with
  | nil => simp [plug, pathNodes]
  | cons fr path ih => exact ih.trans perm_fill

/-- The cursor goes to a resource of the tree. -/
theorem exists_plug (hx : x ∈ f.nodes) :
    ∃ path s e children siblings, plug path (.cons x s e children siblings) = f := by
  induction f with
  | nil => cases hx
  | cons y s e children siblings ihc ihs =>
    rcases mem_cons.mp hx with rfl | hx
    · exact ⟨[], s, e, children, siblings, rfl⟩
    rcases mem_append.mp hx with hx | hx
    · obtain ⟨path, s', e', c, sib, rfl⟩ := ihc hx
      exact ⟨path ++ [.child y s e siblings], s', e', c, sib, plug_append path⟩
    · obtain ⟨path, s', e', c, sib, rfl⟩ := ihs hx
      exact ⟨path ++ [.sibling y s e children], s', e', c, sib, plug_append path⟩

/-! ### What an assignment leaves as it is -/

theorem IsForest.frame (hf : IsForest h p f) (hmem : ∀ z ∈ f.nodes, h' z = h z) :
    IsForest h' p f := by
  induction f generalizing p with
  | nil => trivial
  | cons y s e children siblings ihc ihs =>
    obtain ⟨h0, hy, hc, hs⟩ := hf
    have hsub : ∀ z, z = y ∨ z ∈ children.nodes ∨ z ∈ siblings.nodes → h' z = h z := fun z hz =>
      hmem z (by simpa [Forest.nodes] using hz)
    exact ⟨h0, (hsub y (by simp)).trans hy, ihc hc fun z hz => hsub z (by simp [hz]),
      ihs hs fun z hz => hsub z (by simp [hz])⟩

theorem IsPath.frame (hp : IsPath h path hole) (hmem : ∀ z ∈ pathNodes path, h' z = h z) :
    IsPath h' path hole := by
  induction path generalizing hole with
  | nil => trivial
  | cons fr path ih =>
    have hrest : ∀ z ∈ pathNodes path, h' z = h z := fun z hz =>
      hmem z (mem_append_right _ hz)
    -- the two kinds of frame differ only in which forest hangs off them
    cases fr
    all_goals
      obtain ⟨h0, hy, hf, hp⟩ := hp
      refine ⟨h0, (hmem _ (by simp [pathNodes, Frame.nodes])).trans hy, ?_, ih hp hrest⟩
      exact hf.frame fun z hz => hmem z (by simp [pathNodes, Frame.nodes, hz])

theorem Holds.frame (hh : Holds h path f) (hmem : ∀ z ∈ (plug path f).nodes, h' z = h z) :
    Holds h' path f := by
  have hsub : ∀ z, z ∈ f.nodes ∨ z ∈ pathNodes path → h' z = h z := fun z hz =>
    hmem z (perm_plug.mem_iff.mpr (mem_append.mpr hz))
  exact ⟨hh.around.frame fun z hz => hsub z (.inr hz), hh.forest.frame fun z hz => hsub z (.inl hz),
    hh.nodup⟩

/-! ### Slots -/

theorem readSlot_eq (hp : IsPath h (fr :: path) hole) : readSlot h fr.slot = some hole := by
  cases fr with
  | child y s e siblings =>
    obtain ⟨h0, hy, -, -⟩ := hp
    rw [Frame.slot, readSlot, load_eq h0, hy]
    rfl
  | sibling y s e children =>
    obtain ⟨h0, hy, -, -⟩ := hp
    rw [Frame.slot, readSlot, load_eq h0, hy]
    rfl

/-- Another pointer is written to a slot. -/
theorem writeSlot_spec (hp : IsPath h (fr :: path) hole) (hnd : (pathNodes (fr :: path)).Nodup) :
    Ends (writeSlot h fr.slot new) fun h' =>
      IsPath h' (fr :: path) new ∧ ∀ z, z ∉ pathNodes (fr :: path) → h' z = h z := by
  -- both fields of the resource are written in the same way
  cases fr with
  | _ y s e f =>
    obtain ⟨h0, hy, hf, hp⟩ := hp
    simp only [pathNodes, Frame.nodes, cons_append, nodup_cons, mem_append, not_or] at hnd
    rw [Frame.slot, writeSlot]
    refine ⟨_, modify_eq h0 _, ⟨h0, ?_, hf.frame (put_off hnd.1.1 _), hp.frame (put_off hnd.1.2 _)⟩,
      fun z hz => put_of_ne fun hc => hz (by simp [pathNodes, Frame.nodes, hc])⟩
    rw [put_self, hy]

/-- **A resource without children is put into a slot**, before what is there. -/
theorem linkBefore_spec (hh : Holds h (fr :: path) f) (h0 : new ≠ 0)
    (hnew : new ∉ (plug (fr :: path) f).nodes) (hmem : (h new).child = 0) :
    Ends (linkBefore h (up (fr :: path)) new f.head fr.slot) fun h' =>
      Holds h' (fr :: path) (.cons new (h new).start (h new).end_ .nil f) ∧
        ∀ z, z ∉ new :: pathNodes (fr :: path) → h' z = h z := by
  rw [perm_plug.mem_iff, mem_append, not_or] at hnew
  have hnd := nodup_append.mp hh.nodup
  rw [linkBefore]
  refine .bind_eq (modify_eq h0 _) ?_
  refine .bind (writeSlot_spec (hh.around.frame (put_off hnew.2 _)) hnd.2.1)
    fun h1 ⟨hpath1, hframe1⟩ => ?_
  refine ⟨_, modify_eq h0 _, ⟨hpath1.frame (put_off hnew.2 _), ⟨h0, ?_, trivial, ?_⟩, ?_⟩,
    fun z hz => ?_⟩
  · rw [put_self, hframe1 new hnew.2, put_self, hmem]
    rfl
  · refine IsForest.frame (h := h) hh.forest fun z hz => ?_
    have hzn : z ≠ new := fun hc => hnew.1 (hc ▸ hz)
    have hzp : z ∉ pathNodes (fr :: path) := fun hc => hnd.2.2 z hz z hc rfl
    rw [put_of_ne hzn, hframe1 z hzp, put_of_ne hzn]
  · simp only [Forest.nodes, nil_append, cons_append, nodup_cons, mem_append, not_or]
    exact ⟨hnew, hh.nodup⟩
  · rw [mem_cons, not_or] at hz
    rw [put_of_ne hz.1, hframe1 z hz.2, put_of_ne hz.1]

end SilanKernel.ResourceTree
