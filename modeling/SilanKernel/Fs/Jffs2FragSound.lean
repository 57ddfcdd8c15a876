import Mathlib.Data.List.TakeWhile
import SilanKernel.Fs.Jffs2FragTree

/-!
# SilanKernel.Fs.Jffs2FragSound

What adding a data node and truncating do to the file a fragment tree stands for.

The fragments in order are a line cut into pieces; adding a node writes one piece, behind a hole
if there is a gap, and truncation cuts the line.
-/

namespace SilanKernel.Jffs2

open List Pieces Rbtree Option Ends Nat Inode

variable {known : Known} {s : Inode} {order A B : List Ptr} {x n p q : Ptr} {lo hi : Nat}
  {f : NodeFrag} {size : BitVec 32}

/-- The tree, the allocated fragments and the counts are right. -/
structure Good (known : Known) (s : Inode) (order : List Ptr) : Prop where
  tree : RbOk (s.heap, order)
  live : ∀ q ∈ order, s.live q = true
  owned : Owned known s order

theorem Good.notMem (hg : Good known s order) (hx : s.live x = false) : x ∉ order := by
  intro hc
  rw [hg.live x hc] at hx
  cases hx

theorem Good.markRefNormal (hg : Good known s order) (hp : known p → owners s order p ≠ 0) :
    Good known (s.markRefNormal p) order := by
  have howned := hg.owned.markRefNormal hp
  rw [Inode.markRefNormal] at howned ⊢
  split at howned
  · rw [if_pos ‹_›]
    exact hg
  · rw [if_neg ‹_›]
    exact ⟨hg.tree, hg.live, howned⟩

theorem markRefNormal_frag : (s.markRefNormal p).frag = s.frag := by
  rw [markRefNormal]
  split <;> rfl

theorem markRefNormal_live : (s.markRefNormal p).live = s.live := by
  rw [markRefNormal]
  split <;> rfl

theorem Good.setFrag (hg : Good known s order) (hnode : f.node = (s.frag x).node) :
    Good known (s.setFrag x f) order := by
  refine ⟨hg.tree, hg.live, hg.owned.congr (fun q _ => ?_) rfl⟩
  by_cases hq : q = x
  · subst hq
    rw [setFrag_frag_self, hnode]
  · rw [setFrag_frag_of_ne hq]

/-! ### Allocation -/

/-- A fragment that has just been allocated. -/
def Inode.alloc (s : Inode) (x : Ptr) (f : NodeFrag) : Inode :=
  { s with live := Function.update s.live x true }.setFrag x f

/-- Memory for a fragment. -/
def Inode.Free (s : Inode) (x : Ptr) : Prop := x ≠ 0 ∧ Aligned x ∧ s.live x = false

theorem newFragment_cases (s : Inode) (answer : Option Ptr) (fn : Ptr) (ofs size : BitVec 32) :
    (newFragment s answer fn ofs size = none ∧ ∀ x, answer = some x → ¬s.Free x) ∨
      ∃ x, answer = some x ∧ s.Free x ∧
        newFragment s answer fn ofs size = some (s.alloc x ⟨fn, size, ofs⟩, x) := by
  cases answer with
  | none => exact .inl ⟨rfl, nofun⟩
  | some x =>
    rw [newFragment]
    by_cases hx : x = 0 ∨ x &&& 3 ≠ 0 ∨ s.live x
    · refine .inl ⟨if_pos hx, ?_⟩
      rintro _ ⟨⟩ ⟨h0, hal, hlive⟩
      rcases hx with hx | hx | hx
      · exact h0 hx
      · exact hx hal
      · exact absurd (hx.symm.trans hlive) (by decide)
    · rw [if_neg hx]
      rw [not_or, not_or, not_not, Bool.not_eq_true] at hx
      exact .inr ⟨x, rfl, hx, rfl⟩

theorem pieces_alloc (hx : x ∉ order) : (s.alloc x f).pieces order = s.pieces order :=
  pieces_setFrag hx

theorem piece_alloc_self :
    (s.alloc x f).piece x = ⟨f.ofs.toNat, f.ofs.toNat + f.size.toNat, f.node⟩ :=
  piece_setFrag_self

theorem piece_alloc_of_ne (hne : q ≠ x) : (s.alloc x f).piece q = s.piece q :=
  piece_setFrag_of_ne hne

theorem Good.alloc (hg : Good known s order) (hx : s.live x = false) :
    Good known (s.alloc x f) order := by
  have hne : ∀ q ∈ order, q ≠ x := fun q hq hc => hg.notMem hx (hc ▸ hq)
  refine ⟨hg.tree, ?_, hg.owned.congr (fun q hq => ?_) rfl⟩
  · intro q hq
    exact (Function.update_of_ne (hne q hq) ..).trans (hg.live q hq)
  · rw [Inode.alloc, setFrag_frag_of_ne (hne q hq)]

/-! ### Covered fragments -/

/-- A fragment that has left the tree gives up its node. -/
theorem obsolete_good (htree : RbOk (s.heap, A ++ B))
    (hlive : ∀ q ∈ A ++ B, s.live q = true) (h0 : x ≠ 0) (hx : x ∉ A ++ B)
    (howned : Owned known s (A ++ x :: B)) :
    Ends (jffs2ObsoleteNodeFrag s x) fun s' => Good known s' (A ++ B) ∧ s'.frag = s.frag := by
  apply mono (jffs2ObsoleteNodeFrag_spec h0 howned)
  intro s' ⟨hheap, hfrag, hfree, howned'⟩
  refine ⟨⟨by rw [hheap]; exact htree, ?_, howned'⟩, hfrag⟩
  intro q hq
  have hne : q ≠ x := fun hc => hx (hc ▸ hq)
  rw [hfree, Function.update_of_ne hne]
  exact hlive q hq

theorem Good.erased (hg : Good known s (A ++ x :: B)) (htree : RbOk (h, A ++ B)) :
    Ends (jffs2ObsoleteNodeFrag (s.setHeap h) x) fun s' => Good known s' (A ++ B) ∧
      s'.frag = s.frag := by
  obtain ⟨hA, hB⟩ := notMem_of_nodup hg.tree.nodup
  apply obsolete_good (s := s.setHeap h) htree
  · intro q hq
    apply hg.live q
    rw [mem_append, mem_cons]
    exact (mem_append.mp hq).imp_right .inr
  · exact hg.tree.ne_zero (by simp)
  · rw [mem_append]
    exact fun hc => hc.elim hA hB
  · exact hg.owned.congr (fun _ _ => rfl) rfl

/-- `D` are the fragments that the new one covers. -/
theorem obsoleteLoop_spec (hg : Good known s (A ++ n :: (D ++ R)))
    (hfit : ∀ q ∈ n :: (D ++ R), s.stop q < 2 ^ 32) (hD : ∀ q ∈ D, s.stop q ≤ s.stop n)
    (hR : ∀ q ∈ R.head?, s.stop n < s.stop q) (hfuel : D.length < fuel) :
    Ends (obsoleteLoop n fuel s) fun r =>
      r.2 = R.head?.getD 0 ∧ Good known r.1 (A ++ n :: R) ∧ r.1.frag = s.frag := by
  induction fuel generalizing s D with
  | zero => exact absurd hfuel (not_lt_zero _)
  | succ fuel ih =>
    have hn0 : n ≠ 0 := hg.tree.ne_zero (by simp)
    have hn := toNat_stop (hfit n (mem_cons_self ..))
    rw [obsoleteLoop, rbNext_spec hg.tree]
    cases D with
    | nil =>
      cases R with
      | nil => exact .ret ⟨rfl, hg, rfl⟩
      | cons r R =>
        have hr0 : r ≠ 0 := hg.tree.ne_zero (by simp)
        have hr := toNat_stop (hfit r (by simp))
        have hlt : s.stop n < s.stop r := hR r rfl
        simp only [nil_append, head?_cons, getD_some, bind_eq_bind, bind_some,
          if_neg hr0, loadFrag_eq hn0, loadFrag_eq hr0, BitVec.le_def, hn, hr]
        rw [if_neg (by omega)]
        exact .ret ⟨rfl, hg, rfl⟩
    | cons d D =>
      have hd0 : d ≠ 0 := hg.tree.ne_zero (by simp)
      have hd := toNat_stop (hfit d (by simp))
      simp only [cons_append, head?_cons, getD_some, bind_eq_bind, bind_some,
        if_neg hd0, loadFrag_eq hn0, loadFrag_eq hd0, BitVec.le_def, hn, hd]
      rw [if_pos (hD d (mem_cons_self ..))]
      have hsplit : A ++ n :: (d :: D ++ R) = (A ++ [n]) ++ d :: (D ++ R) := by simp
      have hjoin : (A ++ [n]) ++ (D ++ R) = A ++ n :: (D ++ R) := by simp
      rw [hsplit] at hg
      apply bind (heapErase_order hg.tree)
      intro h hh
      apply bind (hg.erased hh)
      intro s' ⟨hg', hfrag⟩
      rw [hjoin] at hg'
      have hstop : s'.stop = s.stop := by
        funext q
        rw [stop, stop, hfrag]
      rw [← hstop] at hfit hD hR
      rw [← hfrag]
      apply ih hg'
      · intro q hq
        apply hfit q
        simp only [mem_cons, mem_append] at hq ⊢
        rcases hq with hq | hq | hq
        · exact .inl hq
        · exact .inr (.inl (.inr hq))
        · exact .inr (.inr hq)
      · exact fun q hq => hD q (mem_cons_of_mem _ hq)
      · exact hR
      · rw [length_cons] at hfuel
        omega

section

variable (hg : Good known s (A ++ n :: B)) (hB : Chain lo (s.pieces B) hi) (hlo : lo ≤ s.stop n)
  (hhi : hi < 2 ^ 32)

include hg hB hlo hhi

theorem trimFirst_spec (hn : s.stop n < 2 ^ 32) (hfirst : ∀ q ∈ B.head?, s.stop n < s.stop q) :
    Ends (trimFirst s n (B.head?.getD 0)) fun r =>
      r.2 = 0 ∧ Good known r.1 (A ++ n :: B) ∧ r.1.pieces B = keepAbove (s.stop n) (s.pieces B) ∧
        ∀ q, q ∉ B → r.1.frag q = s.frag q := by
  cases B with
  | nil => exact .ret ⟨rfl, hg, rfl, fun _ _ => rfl⟩
  | cons x B =>
    have hx0 : x ≠ 0 := hg.tree.ne_zero (by simp)
    have hn0 : n ≠ 0 := hg.tree.ne_zero (by simp)
    have hlt : s.stop n < s.stop x := hfirst x rfl
    have hxB : x ∉ B := by
      have hnd := hg.tree.nodup
      rw [show A ++ n :: x :: B = (A ++ [n]) ++ x :: B by simp] at hnd
      exact (notMem_of_nodup hnd).2
    have hstart : s.start x ≤ s.stop n := le_trans (le_of_eq hB.1) hlo
    have hnat := toNat_stop hn
    have hxnat := toNat_stop (lt_of_le_of_lt (mem_bounds hB (mem_cons_self ..)).2.2 hhi)
    rw [head?_cons, getD_some, trimFirst, if_neg hx0, loadFrag_eq hn0, loadFrag_eq hx0]
    simp only [bind_eq_bind, bind_some]
    rw [pieces_cons, keepAbove, if_neg (show ¬ (s.piece x).hi ≤ s.stop n from not_le.mpr hlt)]
    by_cases heq : (s.frag n).ofs + (s.frag n).size = (s.frag x).ofs
    · have hsame : s.start x = s.stop n := by rw [← hnat, heq, start]
      rw [if_pos heq, if_neg (show ¬ (s.piece x).lo < s.stop n from
        not_lt.mpr (le_of_eq hsame.symm))]
      exact .ret ⟨rfl, hg, rfl, fun _ _ => rfl⟩
    have hbelow : s.start x < s.stop n := by
      have hne : s.start x ≠ s.stop n :=
        fun hc => heq (BitVec.eq_of_toNat_eq (by rw [hnat, ← hc, start]))
      omega
    have hsize : ((s.frag x).ofs + (s.frag x).size - ((s.frag n).ofs + (s.frag n).size)).toNat =
        s.stop x - s.stop n := by
      rw [BitVec.toNat_sub_of_le (by rw [BitVec.le_def, hnat, hxnat]; omega), hnat, hxnat]
    rw [if_neg heq, if_pos (show (s.piece x).lo < s.stop n from hbelow)]
    generalize hf : NodeFrag.mk (s.frag x).node _ _ = f
    have hnode : f.node = (s.frag x).node := by rw [← hf]
    have hpiece : (s.setFrag x f).piece x = ⟨s.stop n, s.stop x, (s.frag x).node⟩ := by
      rw [piece_setFrag_self, ← hf]
      simp only [hnat, hsize]
      rw [Nat.add_sub_cancel' (Nat.le_of_lt hlt)]
    have hg' := hg.setFrag (f := f) hnode
    have hmark : ∀ q ∈ A ++ n :: x :: B, owners (s.setFrag x f) (A ++ n :: x :: B)
        (s.frag q).node ≠ 0 := by
      intro q hq
      rw [owners_congr (s := s)]
      · exact owners_ne_zero hq
      · intro z _
        by_cases hz : z = x
        · rw [hz, setFrag_frag_self, hnode]
        · rw [setFrag_frag_of_ne hz]
    have hframe : ∀ p p', (((s.setFrag x f).markRefNormal p).markRefNormal p').frag =
        (s.setFrag x f).frag := by
      intro p p'
      rw [markRefNormal_frag, markRefNormal_frag]
    refine .ret ⟨rfl, (hg'.markRefNormal fun _ => hmark x (by simp)).markRefNormal
      fun _ => ?_, ?_, ?_⟩
    · rw [owners_congr (s := s.setFrag x f) fun q _ => by rw [markRefNormal_frag]]
      exact hmark n (by simp)
    · rw [pieces_congr (s := s.setFrag x f)
        fun q _ => by rw [hframe], pieces_cons, hpiece, pieces_setFrag hxB]
      rfl
    · intro q hq
      rw [hframe, setFrag_frag_of_ne fun hc => hq (by simp [hc])]

/-- **Behind the new fragment** what it covers is cut off. -/
theorem trimFollowing_spec (hn : s.stop n < 2 ^ 32) : Ends (trimFollowing s n) fun r =>
      r.2 = 0 ∧ ∃ B', Good known r.1 (A ++ n :: B') ∧ r.1.pieces B' = keepAbove (s.stop n)
        (s.pieces B) ∧ ∀ q, q ∉ B → r.1.frag q = s.frag q := by
  obtain ⟨D, R, rfl, hD, hR⟩ : ∃ D R, B = D ++ R ∧ (∀ q ∈ D, s.stop q ≤ s.stop n) ∧ ∀ q ∈ R.head?,
      s.stop n < s.stop q := by
    refine ⟨B.takeWhile (fun q => s.stop q ≤ s.stop n), B.dropWhile (fun q => s.stop q ≤ s.stop n),
      (takeWhile_append_dropWhile ..).symm, ?_, ?_⟩
    · intro q hq
      have hcovered := mem_takeWhile_imp hq
      exact of_decide_eq_true hcovered
    · intro q hq
      have hnot := head?_dropWhile_not (fun q => decide (s.stop q ≤ s.stop n)) B
      rw [hq] at hnot
      simpa using hnot
  have hcovered : ∀ y ∈ s.pieces D, y.hi ≤ s.stop n := fun y hy => by
    obtain ⟨q, hq, rfl⟩ := mem_map.mp hy
    exact hD q hq
  have hfit : ∀ q ∈ n :: (D ++ R), s.stop q < 2 ^ 32 := by
    intro q hq
    rcases mem_cons.mp hq with rfl | hq
    · exact hn
    · exact lt_of_le_of_lt (mem_bounds hB hq).2.2 hhi
  have hfuel : D.length < loopBound := by
    have hsub : D.Sublist (A ++ n :: (D ++ R)) :=
      (sublist_append_left D R).trans ((sublist_cons_self ..).trans (sublist_append_right ..))
    have hlen := Memory.length_le_of_nodup (hg.tree.nodup.sublist hsub)
    rw [loopBound]
    omega
  rw [pieces_append] at hB
  obtain ⟨mid, hcD, hcR⟩ := chain_append.mp hB
  rw [trimFollowing, pieces_append, keepAbove_append hcovered]
  apply bind (obsoleteLoop_spec hg hfit hD hR hfuel)
  rintro ⟨s1, t⟩ ⟨ht, hg1, hfrag⟩
  simp only at ht hg1 hfrag
  have hstop : s1.stop = s.stop := by
    funext q
    rw [stop, stop, hfrag]
  have hpieces : s1.pieces R = s.pieces R := pieces_congr fun q _ => by rw [hfrag]
  rw [← hstop] at hn hR hcovered hlo ⊢
  rw [← hpieces] at hcR ⊢
  rw [ht]
  apply mono (trimFirst_spec hg1 hcR (hcD.end_le hlo hcovered) hhi hn hR)
  rintro r ⟨hret, hg2, hkeep, hother⟩
  refine ⟨hret, R, hg2, hkeep, fun q hq => ?_⟩
  rw [hother q fun hc => hq (mem_append_right _ hc), hfrag]

end

/-! ### Truncation -/

/-- The end of the last fragment is the end of the file. -/
theorem lastend_eq (hok : RbOk (s.heap, order)) (hc : Chain 0 (s.pieces order) hi)
    (hhi : hi < 2 ^ 32) :
    (if order.getLast?.getD 0 = 0 then (0 : BitVec 32)
      else (s.frag (order.getLast?.getD 0)).ofs + (s.frag (order.getLast?.getD 0)).size).toNat =
      hi := by
  rcases eq_nil_or_concat order with rfl | ⟨l, x, rfl⟩
  · exact hc
  rw [concat_eq_append] at hok hc ⊢
  have hx0 : x ≠ 0 := hok.ne_zero (by simp)
  have hend : s.stop x = hi := (chain_around hc).2.2
  rw [getLast?_append, getLast?_singleton, some_or, getD_some, if_neg hx0,
    toNat_stop (by omega), hend]

/-- The fragments from the new end on are taken out. -/
theorem truncateLoop_spec (size : BitVec 32) (hg : Good known s (A ++ B))
    (hB : ∀ q ∈ B, size.toNat ≤ s.start q) (hfuel : B.length < fuel) :
    Ends (truncateLoop size fuel s (B.head?.getD 0)) fun s' => Good known s' A ∧
      s'.frag = s.frag := by
  induction fuel generalizing s B with
  | zero => exact absurd hfuel (not_lt_zero _)
  | succ fuel ih =>
    rw [truncateLoop]
    cases B with
    | nil =>
      rw [append_nil] at hg
      exact .ret ⟨hg, rfl⟩
    | cons x B =>
      have hx0 : x ≠ 0 := hg.tree.ne_zero (by simp)
      have hx : ¬ (s.frag x).ofs < size := by
        rw [BitVec.lt_def]
        exact not_lt.mpr (hB x (mem_cons_self ..))
      simp only [head?_cons, getD_some, if_neg hx0, bind_eq_bind, loadFrag_eq hx0, bind_some,
        if_neg hx, rbNext_spec hg.tree]
      apply bind (heapErase_order hg.tree)
      intro h hh
      apply bind (hg.erased hh)
      intro s' ⟨hg', hfrag⟩
      rw [← hfrag]
      apply ih hg'
      · intro q hq
        rw [start, hfrag]
        exact hB q (mem_cons_of_mem _ hq)
      · rw [length_cons] at hfuel
        omega

/-- The last node may be marked pristine; the size is that of the file. -/
theorem truncateTail_spec (hg : Good known s order) (hc : Chain 0 (s.pieces order) hi)
    (hhi : hi ≤ size.toNat) :
    Ends (truncateTail s size) fun r => Good known r.1 order ∧ r.1.frag = s.frag ∧
      r.2.toNat = hi := by
  have hlast := lastend_eq hg.tree hc (lt_of_le_of_lt hhi size.isLt)
  rw [truncateTail]
  apply Ends.ite
  · rintro rfl
    exact Ends.ret ⟨hg, rfl, (le_zero.mp hhi).symm⟩
  intro _
  rw [rbLast_spec hg.tree]
  simp only [bind_eq_bind, bind_some]
  cases hlist : order.getLast? with
  | none =>
    rw [hlist] at hlast
    exact .ret ⟨hg, rfl, hlast⟩
  | some x =>
    have hx : x ∈ order := mem_of_getLast? hlist
    have hx0 := hg.tree.ne_zero hx
    rw [hlist, getD_some, if_neg hx0] at hlast
    rw [getD_some, if_neg hx0]
    apply Ends.ite
    · intro _
      exact Ends.ret ⟨hg, rfl, hlast⟩
    intro hge
    rw [BitVec.lt_def, hlast] at hge
    have hsize : size.toNat = hi := by omega
    apply Ends.ite
    · intro _
      refine Ends.ret
        ⟨⟨hg.tree, hg.live, hg.owned.setRaw nofun fun _ => owners_ne_zero hx⟩, rfl, hsize⟩
    · intro _
      exact .ret ⟨hg, rfl, hsize⟩

/-- Below a number inside the fragment `x`. -/
theorem keepBelow_at {size : Nat} (hc : Chain lo (s.pieces (A ++ x :: B)) hi)
    (hlo : s.start x ≤ size) (hin : size < s.stop x) :
    keepBelow size (s.pieces (A ++ x :: B)) =
      s.pieces A ++ if s.start x = size then [] else [⟨s.start x, size, (s.frag x).node⟩] := by
  rw [pieces_append, pieces_cons, (chain_around hc).1.keepBelow_append hlo, keepBelow]
  by_cases heq : s.start x = size
  · rw [if_pos heq, if_pos (show size ≤ (s.piece x).lo from le_of_eq heq.symm)]
  · rw [if_neg heq, if_neg (show ¬ size ≤ (s.piece x).lo from fun hc => heq (le_antisymm hlo hc)),
      if_pos (show size < (s.piece x).hi from hin)]
    rfl

/-- With nothing above the new size there is nothing to cut. -/
theorem truncateHead_end (hg : Good known s order) (hc : Chain 0 (s.pieces order) hi)
    (hend : hi ≤ size.toNat) : truncateHead s size (order.getLast?.getD 0) = some (s, 0) := by
  rcases eq_nil_or_concat order with rfl | ⟨l, x, rfl⟩
  · rfl
  rw [concat_eq_append] at hg hc ⊢
  obtain ⟨-, hlt, hx⟩ := chain_around hc
  have hx : s.stop x = hi := hx
  have hx0 : x ≠ 0 := hg.tree.ne_zero (by simp)
  have hne : (s.frag x).ofs ≠ size := fun hc => by
    rw [start, hc] at hlt
    omega
  have hle : ¬ size < (s.frag x).ofs + (s.frag x).size := by
    rw [BitVec.lt_def, toNat_stop (by omega)]
    omega
  rw [getLast?_append, getLast?_singleton, some_or, getD_some, truncateHead,
    if_neg (not_or.mpr ⟨hx0, hne⟩)]
  simp only [if_neg hle, rbNext_spec hg.tree]
  rfl

/-- **Truncation** cuts off what is above the new size, and returns where the file ends. -/
theorem jffs2TruncateFragtree_spec (size : BitVec 32) (hg : Good known s order)
    (hc : Chain 0 (s.pieces order) hi) (hhi : hi < 2 ^ 32) :
    Ends (jffs2TruncateFragtree s size) fun r =>
      ∃ order', Good known r.1 order' ∧ r.1.pieces order' = keepBelow size.toNat (s.pieces order) ∧
        r.2.toNat = min size.toNat hi := by
  have hcut : Chain 0 (keepBelow size.toNat (s.pieces order)) (min size.toNat hi) :=
    hc.keepBelow_min
  have htail : ∀ s' order', Good known s' order' → s'.pieces order' = keepBelow size.toNat
      (s.pieces order) → Ends (truncateTail s' size) fun r =>
        ∃ order', Good known r.1 order' ∧ r.1.pieces order' = keepBelow size.toNat
          (s.pieces order) ∧ r.2.toNat = min size.toNat hi := by
    intro s' order' hg' hpieces
    rw [← hpieces] at hcut ⊢
    apply mono (truncateTail_spec hg' hcut (min_le_left ..))
    rintro r ⟨hgr, hfrag, hret⟩
    exact ⟨order', hgr, pieces_congr fun q _ => by rw [hfrag], hret⟩
  have hfuel : ∀ A B : List Ptr, order = A ++ B → B.length < loopBound := by
    intro A B hsplit
    have hlen := hg.tree.length_lt
    rw [hsplit, length_append] at hlen
    rw [loopBound]
    omega
  rw [jffs2TruncateFragtree, jffs2LookupNodeFrag_spec hg.tree hc hhi]
  simp only [bind_eq_bind, bind_some]
  by_cases hend : hi ≤ size.toNat
  · -- nothing is above the new size
    have hsame : keepBelow size.toNat (s.pieces order) = s.pieces order := hc.keepBelow_of_le hend
    rw [seek_end hc hend, truncateHead_end hg hc hend]
    have hg' := hg
    rw [← append_nil order] at hg'
    apply bind (truncateLoop_spec size hg' (by simp) (hfuel order [] (append_nil _).symm))
    rintro s' ⟨hgr, hfrag⟩
    apply htail s' order hgr
    rw [hsame]
    exact pieces_congr fun q _ => by rw [hfrag]
  obtain ⟨A, x, B, rfl, hlo, hin, hseek⟩ := seek_found 0 hc (zero_le _) (not_le.mp hend)
  obtain ⟨hcA, -, hcB⟩ := chain_around hc
  have hx0 : x ≠ 0 := hg.tree.ne_zero (by simp)
  obtain ⟨hA, hB⟩ := notMem_of_nodup hg.tree.nodup
  have hbehind : ∀ q ∈ B, size.toNat ≤ s.start q := fun q hq =>
    le_trans (le_of_lt hin) (mem_bounds hcB hq).1
  have hkeep := keepBelow_at hc hlo hin
  rw [hseek, truncateHead]
  by_cases heq : (s.frag x).ofs = size
  · -- the cut is between two fragments
    rw [if_pos (.inr heq), bind_some]
    have hstart : s.start x = size.toNat := congrArg BitVec.toNat heq
    have hloop := truncateLoop_spec size hg (fun q hq => ?_) (hfuel A (x :: B) rfl)
    · apply bind hloop
      rintro s' ⟨hgr, hfrag⟩
      apply htail s' A hgr
      rw [hkeep, if_pos hstart, append_nil]
      exact pieces_congr fun q _ => by rw [hfrag]
    · rcases mem_cons.mp hq with rfl | hq
      · exact le_of_eq hstart.symm
      · exact hbehind q hq
  -- the first part of `x` stays
  have hne : s.start x ≠ size.toNat := fun hc => heq (BitVec.eq_of_toNat_eq hc)
  have hpart : size < (s.frag x).ofs + (s.frag x).size := by
    rw [BitVec.lt_def, toNat_stop (lt_of_le_of_lt hcB.le hhi)]
    exact hin
  rw [if_neg (not_or.mpr ⟨hx0, heq⟩)]
  simp only [if_pos hpart]
  generalize hf : NodeFrag.mk (s.frag x).node (size - (s.frag x).ofs) (s.frag x).ofs = f
  have hpiece : (s.setFrag x f).piece x = ⟨s.start x, size.toNat, (s.frag x).node⟩ := by
    rw [piece_setFrag_self, ← hf]
    simp only [BitVec.toNat_sub_of_le (show (s.frag x).ofs ≤ size from hlo)]
    rw [Nat.add_sub_cancel' (show (s.frag x).ofs.toNat ≤ size.toNat from hlo)]
    rfl
  have hg' : Good known (s.setFrag x f) (A ++ x :: B) := hg.setFrag (by rw [← hf])
  rw [rbNext_spec hg'.tree]
  rw [show A ++ x :: B = A ++ [x] ++ B by simp] at hg'
  have hloop := truncateLoop_spec size hg' (fun q hq => ?_) (hfuel (A ++ [x]) B (by simp))
  · apply bind hloop
    rintro s' ⟨hgr, hfrag⟩
    apply htail s' (A ++ [x]) hgr
    rw [hkeep, if_neg hne, ← hpiece, ← pieces_setFrag hA (f := f)]
    exact (pieces_congr fun q _ => by rw [hfrag]).trans pieces_append
  · have hstart : (s.setFrag x f).start q = s.start q := by
      have hqx : q ≠ x := fun hc => hB (hc ▸ hq)
      rw [start, setFrag_frag_of_ne hqx, start]
    rw [hstart]
    exact hbehind q hq

end SilanKernel.Jffs2
