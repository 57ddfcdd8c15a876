import SilanKernel.Data.Pieces
import SilanKernel.Fs.Jffs2Frag

/-!
# SilanKernel.Fs.Jffs2FragTree

The operations on the fragment tree, by what they do to the fragments in order.

A fragment is a piece of the file (`SilanKernel.Data.Pieces`). First come the search for an offset
and the places of new fragments, then the counts of the data nodes.
-/

namespace SilanKernel.Jffs2

open List Pieces Rbtree Option Function

namespace Inode

def start (s : Inode) (q : Ptr) : Nat := (s.frag q).ofs.toNat
def stop (s : Inode) (q : Ptr) : Nat := (s.frag q).ofs.toNat + (s.frag q).size.toNat

/-- The part of the file a fragment stands for. -/
def piece (s : Inode) (q : Ptr) : Piece Ptr := ⟨s.start q, s.stop q, (s.frag q).node⟩

def pieces (s : Inode) (order : List Ptr) : List (Piece Ptr) := order.map s.piece

end Inode

section

variable {s : Inode} {order l₁ l₂ : List Ptr} {x y q base prev p : Ptr} {lo hi fuel : Nat}
  {f : NodeFrag} {offset ofs : BitVec 32} {t : Rbtree.Tree Ptr} {h : Heap}

theorem pieces_append : s.pieces (l₁ ++ l₂) = s.pieces l₁ ++ s.pieces l₂ := map_append

theorem pieces_cons : s.pieces (x :: l₁) = s.piece x :: s.pieces l₁ := rfl

theorem piece_congr {s' : Inode} (hsame : s'.frag q = s.frag q) : s'.piece q = s.piece q := by
  rw [Inode.piece, Inode.piece, Inode.start, Inode.start, Inode.stop, Inode.stop, hsame]

theorem pieces_congr {s' : Inode} (hsame : ∀ q ∈ order, s'.frag q = s.frag q) :
    s'.pieces order = s.pieces order := by
  apply map_congr_left
  intro q hq
  exact piece_congr (hsame q hq)

theorem setFrag_frag_of_ne (hne : q ≠ x) : (s.setFrag x f).frag q = s.frag q := update_of_ne hne ..

theorem setFrag_frag_self : (s.setFrag x f).frag x = f := update_self ..

theorem pieces_setFrag (hx : x ∉ order) : (s.setFrag x f).pieces order = s.pieces order := by
  apply pieces_congr
  intro q hq
  exact setFrag_frag_of_ne fun hc => hx (hc ▸ hq)

theorem piece_setFrag_self :
    (s.setFrag x f).piece x = ⟨f.ofs.toNat, f.ofs.toNat + f.size.toNat, f.node⟩ := by
  rw [Inode.piece, Inode.start, Inode.stop, setFrag_frag_self]

theorem piece_setFrag_of_ne (hne : q ≠ x) : (s.setFrag x f).piece q = s.piece q := by
  exact piece_congr (setFrag_frag_of_ne hne)

theorem loadFrag_eq (hx : x ≠ 0) : s.loadFrag x = some (s.frag x) := if_neg hx

theorem loadDnode_eq (hx : x ≠ 0) : s.loadDnode x = some (s.dnode x) := if_neg hx

/-- The end of a fragment does not wrap around. -/
theorem toNat_stop (hfit : s.stop x < 2 ^ 32) : ((s.frag x).ofs + (s.frag x).size).toNat
    = s.stop x :=
  BitVec.toNat_add_of_lt hfit

/-- A fragment of a whole file lies inside it. -/
theorem mem_bounds (hc : Chain lo (s.pieces order) hi) (hx : x ∈ order) :
    lo ≤ s.start x ∧ s.start x < s.stop x ∧ s.stop x ≤ hi :=
  hc.mem (mem_map_of_mem hx)

theorem chain_around (hc : Chain lo (s.pieces (l₁ ++ x :: l₂)) hi) :
    Chain lo (s.pieces l₁) (s.start x) ∧ s.start x < s.stop x ∧
      Chain (s.stop x) (s.pieces l₂) hi := by
  rw [pieces_append, pieces_cons] at hc
  exact hc.around

/-! ### The search -/

/-- The fragment at an offset, or the last one that ends before it. -/
def seek (s : Inode) (offset : Nat) (prev : Ptr) : List Ptr → Ptr
  | [] => prev
  | q :: l =>
    if offset < s.start q then prev else if offset < s.stop q then q else seek s offset q l

theorem seek_append {offset : Nat} (hc : Chain lo (s.pieces (l₁ ++ x :: l₂)) hi) :
    seek s offset prev (l₁ ++ x :: l₂) = if offset < s.start x then seek s offset prev l₁
      else if offset < s.stop x then x
      else seek s offset x l₂ := by
  induction l₁ generalizing lo prev with
  | nil => rfl
  | cons q l₁ ih =>
    have htail : Chain (s.stop q) (s.pieces (l₁ ++ x :: l₂)) hi := hc.2.2
    have hx : s.stop q ≤ s.start x := (mem_bounds htail (by simp)).1
    have hq : s.start q < s.stop q := (mem_bounds hc (mem_cons_self ..)).2.1
    rw [cons_append, seek, seek, ih htail]
    by_cases hbefore : offset < s.start q
    · rw [if_pos hbefore, if_pos hbefore, if_pos (by omega)]
    · rw [if_neg hbefore, if_neg hbefore]
      by_cases hin : offset < s.stop q
      · rw [if_pos hin, if_pos hin, if_pos (by omega)]
      · rw [if_neg hin, if_neg hin]

theorem seek_found {offset : Nat} (prev : Ptr) (hc : Chain lo (s.pieces order) hi)
    (hlo : lo ≤ offset) (hhi : offset < hi) :
    ∃ l₁ x l₂, order = l₁ ++ x :: l₂ ∧ s.start x ≤ offset ∧ offset < s.stop x ∧
      seek s offset prev order = x := by
  induction order generalizing lo prev with
  | nil => exact absurd hhi (by rw [← show lo = hi from hc]; omega)
  | cons q order ih =>
    obtain ⟨hq, hlt, htail⟩ := hc
    have hq : s.start q = lo := hq
    have htail : Chain (s.stop q) (s.pieces order) hi := htail
    rw [seek, if_neg (by omega)]
    by_cases hin : offset < s.stop q
    · rw [if_pos hin]
      exact ⟨[], q, order, rfl, by omega, hin, rfl⟩
    · rw [if_neg hin]
      obtain ⟨l₁, x, l₂, rfl, hx⟩ := ih q htail (by omega)
      exact ⟨q :: l₁, x, l₂, rfl, hx⟩

theorem seek_end {offset : Nat} (hc : Chain lo (s.pieces order) hi) (hhi : hi ≤ offset) :
    seek s offset prev order = order.getLast?.getD prev := by
  induction order generalizing lo prev with
  | nil => rfl
  | cons q order ih =>
    obtain ⟨hfirst, hlt, hle⟩ := mem_bounds hc (mem_cons_self ..)
    rw [seek, if_neg (by omega), if_neg (by omega), ih hc.2.2]
    cases order <;> simp [getLast?_cons]

/-- `prev` is the last fragment before a part of the tree, if there is one. -/
theorem lookupLoop_spec (ht : s.heap.IsTree p t) (hc : Chain lo (s.pieces t.toList) hi)
    (hfit : hi < 2 ^ 32) (hprev : prev = 0 ∨ s.start prev < lo) (hfuel : t.size < fuel) :
    lookupLoop s offset fuel (rootPtr t) prev = some (seek s offset.toNat prev t.toList) := by
  induction fuel generalizing t p prev lo hi with
  | zero => exact absurd hfuel (Nat.not_lt_zero _)
  | succ fuel ih =>
    cases t with
    | leaf => rfl
    | node c l x r =>
      obtain ⟨h0, -, hmem, hl, hr⟩ := ht
      have hsize : (Rbtree.Tree.node c l x r).size = l.size + r.size + 1 := rfl
      obtain ⟨hcl, hx, hcr⟩ :=
        chain_around (show Chain lo (s.pieces (l.toList ++ x :: r.toList)) hi from hc)
      have hstop : ((s.frag x).ofs + (s.frag x).size).toNat = s.stop x :=
        toNat_stop (Nat.lt_of_le_of_lt hcr.le hfit)
      have hlo := hcl.le
      rw [show (Rbtree.Tree.node c l x r).toList = l.toList ++ x :: r.toList from rfl,
        seek_append hc, rootPtr, lookupLoop, if_neg h0, loadFrag_eq h0, load_eq h0]
      simp only [bind_eq_bind, bind_some, hmem, BitVec.le_def, BitVec.lt_def, hstop]
      by_cases hafter : s.stop x ≤ offset.toNat
      · have hnewer : prev = 0 ∨ (s.frag prev).ofs.toNat < (s.frag x).ofs.toNat := by
          rcases hprev with hprev | hprev
          · exact .inl hprev
          · exact .inr (Nat.lt_of_lt_of_le hprev hlo)
        rw [if_pos hafter, if_pos hnewer, if_neg (by omega), if_neg (by omega)]
        exact ih hr hcr hfit (.inr hx) (by omega)
      · rw [if_neg hafter]
        by_cases hbefore : offset.toNat < s.start x
        · rw [if_pos (show offset.toNat < (s.frag x).ofs.toNat from hbefore), if_pos hbefore]
          exact ih hl hcl (by have := hcr.le; omega) hprev (by omega)
        · rw [if_neg (show ¬ offset.toNat < (s.frag x).ofs.toNat from hbefore), if_neg hbefore,
            if_pos (by omega)]

/-- **The search** on the tree is the search in the order of the fragments. -/
theorem jffs2LookupNodeFrag_spec (hok : RbOk (s.heap, order)) (hc : Chain 0 (s.pieces order) hi)
    (hfit : hi < 2 ^ 32) :
    jffs2LookupNodeFrag s offset = some (seek s offset.toNat 0 order) := by
  obtain ⟨t, rfl, hh, -⟩ := hok
  rw [jffs2LookupNodeFrag, hh.root]
  exact lookupLoop_spec hh.tree hc hfit (.inl rfl) hh.size_lt.1

/-! ### New fragments -/

/-- In a part of the tree that is all behind `ofs` the search goes to the left end. -/
theorem insertLink_left (ht : s.heap.IsTree p t) (hne : t ≠ .leaf)
    (hbehind : ∀ q ∈ t.toList, ofs < (s.frag q).ofs) (hfuel : t.size ≤ fuel) :
    ∃ y, t.toList.head? = some y ∧ insertLink s ofs fuel (rootPtr t) = some (y, .left) ∧
      (s.heap.mem y).child .left = 0 := by
  induction fuel generalizing t p with
  | zero =>
    cases t with
    | leaf => exact absurd rfl hne
    | node => exact absurd hfuel (by simp [Rbtree.Tree.size])
  | succ fuel ih =>
    obtain ⟨c, l, x, r, rfl⟩ := exists_node hne
    obtain ⟨h0, -, hmem, hl, -⟩ := ht
    have hsize : (Rbtree.Tree.node c l x r).size = l.size + r.size + 1 := rfl
    have hlist : (Rbtree.Tree.node c l x r).toList = l.toList ++ x :: r.toList := rfl
    have hx : ofs < (s.frag x).ofs := hbehind x (by rw [hlist]; simp)
    have hgt : ¬ (s.frag x).ofs < ofs := by
      simp only [BitVec.lt_def] at hx ⊢
      omega
    rw [rootPtr, insertLink, loadFrag_eq h0, load_eq h0]
    simp only [bind_eq_bind, bind_some, hmem]
    rw [if_neg hgt, if_pos hx]
    by_cases hleaf : l = .leaf
    · subst hleaf
      exact ⟨x, rfl, if_pos rfl, by rw [hmem]; rfl⟩
    obtain ⟨y, hy, hlink, hfree⟩ :=
      ih hl hleaf (fun q hq => hbehind q (by rw [hlist]; simp [hq])) (by omega)
    refine ⟨y, ?_, ?_, hfree⟩
    · rw [hlist, head?_append, hy]
      rfl
    · exact (if_neg (hl.rootPtr_ne hleaf)).trans hlink

/-- A place for a new node next to `base`. -/
def PlaceAfter (h : Heap) (l₁ : List Ptr) (base : Ptr) (l₂ : List Ptr) (place : Ptr × Dir) : Prop :=
  place.1 ∈ l₁ ++ base :: l₂ ∧ (h.mem place.1).child place.2 = 0 ∧
    ∀ x, orderAfter (l₁ ++ base :: l₂) (.insert x place.1 place.2) = l₁ ++ base :: x :: l₂

/-- From `base` the search finds the place right behind it. -/
theorem insertLink_spec (hok : RbOk (s.heap, l₁ ++ base :: l₂)) (hbase : (s.frag base).ofs < ofs)
    (hbehind : ∀ q ∈ l₂, ofs < (s.frag q).ofs) :
    Ends (insertLink s ofs loopBound base) (PlaceAfter s.heap l₁ base l₂) := by
  obtain ⟨path, c, l, r, hat, rfl, rfl⟩ := hok.around
  obtain ⟨h0, -, hmem, -, hr⟩ := hat.tree
  have hsize := hat.size_lt.1
  have hsizes : (Rbtree.Tree.node c l base r).size = l.size + r.size + 1 := rfl
  obtain ⟨n, hn⟩ : ∃ n, loopBound = n + 1 := ⟨2 ^ 33 - 1, rfl⟩
  rw [hn] at hsize ⊢
  rw [insertLink, loadFrag_eq h0, load_eq h0]
  simp only [bind_eq_bind, bind_some, hmem]
  rw [if_pos hbase]
  by_cases hleaf : r = .leaf
  · subst hleaf
    refine ⟨(base, .right), if_pos rfl, by simp, by rw [hmem]; rfl, fun x => ?_⟩
    rw [orderAfter_insert hok]
    simp [beside]
  have hfuel : r.size ≤ n := by omega
  obtain ⟨y, hy, hlink, hfree⟩ :=
    insertLink_left hr hleaf (fun q hq => hbehind q (by simp [hq])) hfuel
  refine ⟨(y, .left), (if_neg (hr.rootPtr_ne hleaf)).trans hlink, ?_, hfree, fun x => ?_⟩
  · have : y ∈ r.toList := mem_of_head? hy
    simp [this]
  obtain ⟨rest, hrest⟩ := head?_eq_some_iff.mp hy
  have hsplit : (before path ++ l.toList) ++ base :: (r.toList ++ after path) =
      (before path ++ l.toList ++ [base]) ++ y :: (rest ++ after path) := by
    rw [hrest]
    simp
  rw [hsplit] at hok ⊢
  rw [orderAfter_insert hok, hrest]
  simp [beside]

/-- A fragment linked at a free place. -/
theorem linkFrag_spec (hok : RbOk (s.heap, order))
    (hlegal : (RbCall.insert x p d).Legal (s.heap, order)) :
    Ends (linkFrag s x p d) fun s' =>
      ∃ h, s' = s.setHeap h ∧ RbOk (h, orderAfter order (.insert x p d)) := by
  obtain ⟨h, hcall, hok'⟩ := insert_ok hok hlegal
  refine ⟨s.setHeap h, ?_, h, rfl, hok'⟩
  have hcall : (rbLinkNode s.heap x p d).bind (fun h => heapInsertColor h x) = some h := hcall
  rw [linkFrag]
  cases hlink : rbLinkNode s.heap x p d with
  | none => rw [hlink] at hcall; cases hcall
  | some h1 =>
    rw [hlink, bind_some] at hcall
    simp [hcall]

/-- **A fragment goes behind `base`**, if its offset is between that of `base` and those behind. -/
theorem jffs2FragtreeInsert_spec (hok : RbOk (s.heap, l₁ ++ base :: l₂))
    (hx : Fresh (l₁ ++ base :: l₂) x) (hbase : (s.frag base).ofs < (s.frag x).ofs)
    (hbehind : ∀ q ∈ l₂, (s.frag x).ofs < (s.frag q).ofs) :
    Ends (jffs2FragtreeInsert s x base) fun s' =>
      ∃ h, s' = s.setHeap h ∧ RbOk (h, l₁ ++ base :: x :: l₂) := by
  rw [jffs2FragtreeInsert, loadFrag_eq hx.1]
  apply Ends.bind (insertLink_spec hok hbase hbehind)
  intro place ⟨hmem, hfree, horder⟩
  rw [← horder x]
  exact linkFrag_spec hok ⟨hx, .inr ⟨hmem, hfree⟩⟩

/-- A fragment goes behind the last one, or becomes the root. -/
theorem linkFrag_end (hok : RbOk (s.heap, order)) (hx : Fresh order x) :
    Ends (linkFrag s x (order.getLast?.getD 0) .right) fun s' =>
      ∃ h, s' = s.setHeap h ∧ RbOk (h, order ++ [x]) := by
  rcases eq_nil_or_concat order with rfl | ⟨l, y, rfl⟩
  · have hroot : s.heap.root = 0 := by
      obtain ⟨t, hlist, hh, -⟩ := hok
      cases t with
      | leaf => exact hh.root
      | node c l z r => exact absurd hlist (by simp)
    exact linkFrag_spec hok ⟨hx, .inl ⟨rfl, hroot⟩⟩
  · rw [concat_eq_append] at hok hx ⊢
    have hfree : (s.heap.mem y).child .right = 0 := by
      obtain ⟨path, c, l', r, hat, -, hnil⟩ := hok.around
      obtain ⟨-, -, hmem, -, -⟩ := hat.tree
      cases r with
      | leaf => rw [hmem]; rfl
      | node => exact absurd hnil (by simp)
    have hlink := linkFrag_spec (d := .right) hok ⟨hx, .inr ⟨(by simp : y ∈ l ++ [y]), hfree⟩⟩
    rw [orderAfter_insert hok] at hlink
    simpa [beside] using hlink

end

/-!
### Owners

Data nodes count their fragments, and are marked obsolete when none is left: `Owned` says so of
the nodes in `known`. It depends only on the fragments in order, so the counts are followed here
apart from the tree.
-/

open BitVec

/-- The data nodes whose counts are followed, and those of them that have had a fragment. -/
structure Known where
  counted : Ptr → Prop
  used : Ptr → Prop
  counted_of_used : ∀ {p}, used p → counted p

namespace Known

instance : CoeFun Known fun _ => Ptr → Prop := ⟨counted⟩

def add (known : Known) (fn : Ptr) : Known :=
  ⟨fun p => known p ∨ p = fn, fun p => known.used p ∨ p = fn, Or.imp_left known.counted_of_used⟩

def forget (known : Known) (fn : Ptr) : Known :=
  ⟨fun p => known p ∧ p ≠ fn, fun p => known.used p ∧ p ≠ fn, And.imp_left known.counted_of_used⟩

/-- A node has been handed in and has no fragment yet. Its count is followed if it starts at 0. -/
def hand (known : Known) (fn : Ptr) (frags : BitVec 32) : Known :=
  ⟨fun p => known.forget fn p ∨ p = fn ∧ frags = 0, (known.forget fn).used,
    .inl ∘ (known.forget fn).counted_of_used⟩

end Known

variable {known : Known} {s s' : Inode} {order A B : List Ptr} {x p q : Ptr} {r : RefFlags}
  {d : FullDnode}

/-- The number of fragments of a data node. -/
def owners (s : Inode) (order : List Ptr) (p : Ptr) : Nat :=
  order.countP fun q => (s.frag q).node = p

theorem owners_middle : owners s (A ++ x :: B) p =
    owners s (A ++ B) p + if (s.frag x).node = p then 1 else 0 := by
  simp only [owners, countP_append, countP_cons, decide_eq_true_eq]
  omega

theorem owners_congr (hnode : ∀ q ∈ order, (s'.frag q).node = (s.frag q).node) :
    owners s' order p = owners s order p := by
  apply countP_congr
  intro q hq
  rw [hnode q hq]

theorem owners_ne_zero (hq : q ∈ order) : owners s order (s.frag q).node ≠ 0 := by
  have hpos : 0 < owners s order (s.frag q).node := countP_pos_iff.mpr ⟨q, hq, by simp⟩
  omega

theorem owners_eq_zero (hnone : ∀ q ∈ order, (s.frag q).node ≠ p) : owners s order p = 0 := by
  apply countP_eq_zero.mpr
  intro q hq
  simp [hnone q hq]

/-- Each known node counts its fragments and is obsolete just if it has lost them all. -/
structure Owned (known : Known) (s : Inode) (order : List Ptr) : Prop where
  frags : ∀ p, known p → (s.dnode p).frags.toNat = owners s order p
  mark : ∀ p, known p → ((s.dnode p).raw = .obsolete ↔ owners s order p = 0 ∧ known.used p)
  node : ∀ q ∈ order, (s.frag q).node = 0 ∨ known.used (s.frag q).node
  null : ¬ known 0

/-- The counts depend on which node each fragment has. -/
theorem Owned.congr (h : Owned known s order)
    (hnode : ∀ q ∈ order, (s'.frag q).node = (s.frag q).node) (hdnode : s'.dnode = s.dnode) :
    Owned known s' order := by
  constructor
  · intro p hp
    rw [hdnode, owners_congr hnode, h.frags p hp]
  · intro p hp
    rw [hdnode, owners_congr hnode, h.mark p hp]
  · intro q hq
    rw [hnode q hq]
    exact h.node q hq
  · exact h.null

/-- Fewer nodes may be known, as long as they are without fragments. -/
theorem Owned.forget (h : Owned known s order) (hfn : ∀ q ∈ order, (s.frag q).node ≠ fn) :
    Owned (known.forget fn) s order := by
  constructor
  · intro p hp
    exact h.frags p hp.1
  · intro p hp
    rw [h.mark p hp.1]
    exact and_congr_right fun _ => (and_iff_left hp.2).symm
  · intro q hq
    rcases h.node q hq with h0 | hk
    · exact .inl h0
    · exact .inr ⟨hk, hfn q hq⟩
  · intro h0
    exact h.null h0.1

theorem setDnode_of_ne (hne : q ≠ p) : (s.setDnode p d).dnode q = s.dnode q := update_of_ne hne ..

theorem setDnode_self : (s.setDnode p d).dnode p = d := update_self ..

/-- A node that is not known may be set to anything. -/
theorem Owned.setDnode (h : Owned known s order) (hp : ¬ known p) :
    Owned known (s.setDnode p d) order := by
  have hsame : ∀ q, known q → (s.setDnode p d).dnode q = s.dnode q := fun q hq =>
    setDnode_of_ne fun hc => hp (hc ▸ hq)
  constructor
  · intro q hq
    rw [hsame q hq]
    exact h.frags q hq
  · intro q hq
    rw [hsame q hq]
    exact h.mark q hq
  · exact h.node
  · exact h.null

/-- A mark other than that of an obsolete node, on a node that has fragments. -/
theorem Owned.setRaw (h : Owned known s order) (hr : r ≠ .obsolete)
    (hp : known p → owners s order p ≠ 0) :
    Owned known (s.setRaw p r) order := by
  have hat : ∀ q, known q → ((s.setRaw p r).dnode q).frags = (s.dnode q).frags ∧
      (((s.setRaw p r).dnode q).raw = .obsolete ↔ (s.dnode q).raw = .obsolete) := by
    intro q hq
    rw [Inode.setRaw]
    by_cases hqp : q = p
    · subst hqp
      rw [setDnode_self]
      have hraw : (s.dnode q).raw ≠ .obsolete := fun hc => hp hq ((h.mark q hq).mp hc).1
      exact ⟨rfl, fun hc => absurd hc hr, fun hc => absurd hc hraw⟩
    · rw [setDnode_of_ne hqp]
      exact ⟨rfl, Iff.rfl⟩
  constructor
  · intro q hq
    rw [(hat q hq).1]
    exact h.frags q hq
  · intro q hq
    rw [(hat q hq).2]
    exact h.mark q hq
  · exact h.node
  · exact h.null

theorem Owned.markRefNormal (h : Owned known s order) (hp : known p → owners s order p ≠ 0) :
    Owned known (s.markRefNormal p) order := by
  rw [Inode.markRefNormal]
  split
  · exact h
  · exact h.setRaw nofun hp

/-- **One fragment more**, whose node has been told. -/
theorem Owned.insert {known' : Known} (h : Owned known s (A ++ B)) (hfn : (s.frag x).node = fn)
    (hfrag : s'.frag = s.frag) (hother : ∀ p, p ≠ fn → s'.dnode p = s.dnode p)
    (hself : fn ≠ 0 → (s'.dnode fn).frags.toNat = owners s (A ++ B) fn + 1 ∧
      (s'.dnode fn).raw ≠ .obsolete)
    (hcounted : ∀ p, p ≠ fn → (known' p ↔ known p))
    (hused : ∀ p, p ≠ fn → (known'.used p ↔ known.used p))
    (hnew : fn = 0 ∨ known'.used fn) (hnull : ¬known' 0) : Owned known' s' (A ++ x :: B) := by
  have hcount : ∀ p, owners s' (A ++ x :: B) p = owners s (A ++ B) p + if fn = p then 1 else 0 := by
    intro p
    rw [owners_congr (s := s) fun q _ => by rw [hfrag], owners_middle, hfn]
  have hne : ∀ p, known' p → p ≠ 0 := fun p hp h0 => hnull (h0 ▸ hp)
  constructor
  · intro p hp
    rw [hcount]
    by_cases hx : p = fn
    · subst hx
      rw [if_pos rfl]
      exact (hself (hne _ hp)).1
    · rw [if_neg (Ne.symm hx), hother p hx]
      exact h.frags p ((hcounted p hx).mp hp)
  · intro p hp
    rw [hcount]
    by_cases hx : p = fn
    · subst hx
      rw [if_pos rfl]
      exact ⟨fun hc => absurd hc (hself (hne _ hp)).2, fun hc => absurd hc.1 (Nat.succ_ne_zero _)⟩
    · rw [if_neg (Ne.symm hx), hother p hx, hused p hx]
      exact h.mark p ((hcounted p hx).mp hp)
  · intro q hq
    rw [hfrag]
    by_cases hqn : (s.frag q).node = fn
    · rwa [hqn]
    by_cases hqx : q = x
    · exact absurd (hqx ▸ hfn) hqn
    have hq : q ∈ A ++ B := by
      rw [mem_append, mem_cons] at hq
      rw [mem_append]
      rcases hq with hq | hq | hq
      · exact .inl hq
      · exact absurd hq hqx
      · exact .inr hq
    rw [hused _ hqn]
    exact h.node q hq
  · exact hnull

/-- The first fragment of a node. -/
theorem Owned.insert_new (h : Owned known s (A ++ B)) (hfn : ¬ known fn) (h0 : fn ≠ 0)
    (hx : (s.frag x).node = fn) (hfrags : (s.dnode fn).frags = 1)
    (hraw : (s.dnode fn).raw ≠ .obsolete) :
    Owned (known.add fn) s (A ++ x :: B) := by
  have hnone : owners s (A ++ B) fn = 0 := owners_eq_zero fun q hq hc => by
    rcases h.node q hq with hq0 | hk
    · exact h0 (hc ▸ hq0)
    · exact hfn (hc ▸ known.counted_of_used hk)
  apply h.insert hx rfl (fun _ _ => rfl) fun _ => ⟨by rw [hfrags, hnone]; rfl, hraw⟩
  · exact fun p hp => or_iff_left hp
  · exact fun p hp => or_iff_left hp
  · exact .inr (.inr rfl)
  · exact fun hc => hc.elim h.null (Ne.symm h0)

/-- One fragment more of a node that has some, or a hole. -/
theorem Owned.insert_old (h : Owned known s (A ++ B)) (hfn : (s.frag x).node = fn)
    (hfrag : s'.frag = s.frag) (hx : fn = 0 ∨ known.used fn)
    (hother : ∀ p, p ≠ fn → s'.dnode p = s.dnode p)
    (hself : fn ≠ 0 → (s'.dnode fn).frags.toNat = owners s (A ++ B) fn + 1 ∧
      (s'.dnode fn).raw ≠ .obsolete) : Owned known s' (A ++ x :: B) :=
  h.insert hfn hfrag hother hself (fun _ _ => .rfl) (fun _ _ => .rfl) hx h.null

theorem addRef_frag : (s.addRef p).frag = s.frag := by
  rw [Inode.addRef]
  split <;> rfl

theorem addRef_heap : (s.addRef p).heap = s.heap := by
  rw [Inode.addRef]
  split <;> rfl

theorem addRef_live : (s.addRef p).live = s.live := by
  rw [Inode.addRef]
  split <;> rfl

/-- A second fragment `x` of the node of another one. -/
theorem Owned.addRef (h : Owned known s (A ++ B)) (hq : q ∈ A ++ B) (hfn : (s.frag q).node = fn)
    (hx : (s.frag x).node = fn)
    (hlen : (A ++ x :: B).length < 2 ^ 32) : Owned known (s.addRef fn) (A ++ x :: B) := by
  have hnode := h.node q hq
  rw [hfn] at hnode
  have hself : fn ≠ 0 → (s.addRef fn).dnode fn =
      { s.dnode fn with frags := (s.dnode fn).frags + 1 } := by
    intro h0
    rw [Inode.addRef, if_neg h0, setDnode_self]
  apply h.insert_old hx addRef_frag hnode
  · intro p hp
    rw [Inode.addRef]
    split
    · rfl
    · rw [setDnode_of_ne hp]
  intro h0
  have hknown := known.counted_of_used (hnode.resolve_left h0)
  have hfrags := h.frags _ hknown
  have hle : owners s (A ++ B) fn ≤ (A ++ B).length := countP_le_length
  have hlen' : (A ++ x :: B).length = (A ++ B).length + 1 := by
    rw [length_append, length_append, length_cons]
    omega
  rw [hself h0]
  refine ⟨?_, fun hc => ?_⟩
  · rw [toNat_add_of_lt (by rw [hfrags]; show _ + 1 < _; omega), hfrags]
    rfl
  · have hsome : owners s (A ++ B) fn ≠ 0 := hfn ▸ owners_ne_zero hq
    exact hsome ((h.mark _ hknown).mp hc).1

/-- **One fragment less.** -/
theorem jffs2ObsoleteNodeFrag_spec (hx : x ≠ 0) (h : Owned known s (A ++ x :: B)) :
    Ends (jffs2ObsoleteNodeFrag s x) fun s' =>
      s'.heap = s.heap ∧ s'.frag = s.frag ∧ s'.live = update s.live x false ∧
        Owned known s' (A ++ B) := by
  obtain ⟨fn, hfn⟩ : ∃ fn, (s.frag x).node = fn := ⟨_, rfl⟩
  have hcount : ∀ p, owners s (A ++ x :: B) p = owners s (A ++ B) p + if fn = p then 1 else 0 :=
    fun _ => hfn ▸ owners_middle
  have hnode : ∀ q ∈ A ++ B, (s.frag q).node = 0 ∨ known.used (s.frag q).node :=
    fun q hq => h.node q (by
      rw [mem_append, mem_cons]
      exact (mem_append.mp hq).imp_right .inr)
  rw [jffs2ObsoleteNodeFrag, loadFrag_eq hx]
  simp only [Option.bind_eq_bind, Option.bind_some, hfn]
  by_cases h0 : fn = 0
  · rw [if_pos h0]
    refine .ret ⟨rfl, rfl, rfl, ?_, ?_, hnode, h.null⟩
    all_goals
      intro p hp
      have hne : fn ≠ p := fun hc => h.null (h0 ▸ hc ▸ hp)
      have hp' := hcount p
      rw [if_neg hne, Nat.add_zero] at hp'
      rw [show owners (s.freeNodeFrag x) (A ++ B) p = owners s (A ++ B) p from rfl, ← hp']
    · exact h.frags p hp
    · exact h.mark p hp
  rw [if_neg h0]
  -- the count goes down by one, and to 0 with the last fragment
  have hself := hcount fn
  rw [if_pos rfl] at hself
  have hused : known.used fn := (hfn ▸ h.node x (by simp)).resolve_left h0
  have hfrags := h.frags _ (known.counted_of_used hused)
  have hless : ((s.dnode fn).frags - 1).toNat = owners s (A ++ B) fn := by
    have hle : (1 : BitVec 32) ≤ (s.dnode fn).frags := by
      rw [le_def, hfrags, hself]
      show 1 ≤ _
      omega
    rw [toNat_sub_of_le hle, hfrags, hself]
    rfl
  refine .ret ⟨rfl, rfl, rfl, ?_, ?_, hnode, h.null⟩
  · intro p hp
    show ((s.setDnode _ _).dnode p).frags.toNat = owners s (A ++ B) p
    by_cases hx : p = fn
    · subst hx
      rw [setDnode_self]
      exact hless
    · have hp' := hcount p
      rw [if_neg (Ne.symm hx), Nat.add_zero] at hp'
      rw [setDnode_of_ne hx, ← hp']
      exact h.frags p hp
  · intro p hp
    show ((s.setDnode _ _).dnode p).raw = .obsolete ↔ owners s (A ++ B) p = 0 ∧ known.used p
    by_cases hx : p = fn
    · subst hx
      rw [setDnode_self, ← hless, and_iff_left hused]
      by_cases hlast : (s.dnode p).frags - 1 = 0
      · rw [if_pos hlast, hlast]
        exact ⟨fun _ => rfl, fun _ => rfl⟩
      · rw [if_neg hlast]
        exact ⟨nofun, fun hc => absurd (eq_of_toNat_eq hc) hlast⟩
    · have hp' := hcount p
      rw [if_neg (Ne.symm hx), Nat.add_zero] at hp'
      rw [setDnode_of_ne hx, ← hp']
      exact h.mark p hp

end SilanKernel.Jffs2
