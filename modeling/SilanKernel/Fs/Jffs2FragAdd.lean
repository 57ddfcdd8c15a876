import SilanKernel.Fs.Jffs2FragSound

/-!
# SilanKernel.Fs.Jffs2FragAdd

**Adding a data node** writes one piece of the file: `jffs2_add_full_dnode_to_inode`.

The new fragment may lie behind the last one, start inside a fragment or start with one; each
case ends with the new piece in its place, or with the file as it was if no memory is left.
-/

namespace SilanKernel.Jffs2

open Function List Pieces Rbtree Ends Nat Inode
open BitVec (eq_of_toNat_eq le_def lt_def toNat_sub_of_le)

variable {known : Known} {s : Inode} {A B : List Ptr} {x n this fn p q : Ptr} {hi : Nat}
  {f : NodeFrag}

/-- A new fragment `n` of the node `fn`, before it goes into the tree. -/
structure Ready (known : Known) (s : Inode) (order : List Ptr) (n fn : Ptr) : Prop where
  good : Good known s order
  fresh : Fresh order n
  live : s.live n = true
  node : (s.frag n).node = fn
  ofs : (s.dnode fn).ofs = (s.frag n).ofs
  frags : (s.dnode fn).frags = 1
  raw : (s.dnode fn).raw ≠ .obsolete
  null : fn ≠ 0
  unknown : ¬ known fn
  size : s.start n < s.stop n
  fit : s.stop n < 2 ^ 32

/-- A new piece takes a second fragment: for a hole in front of it, or for what is left behind it
of a fragment that it lies inside. -/
def Inode.Wants (s : Inode) (order : List Ptr) (ofs stop : Nat) : Prop :=
  (0 < ofs ∧ ∀ q ∈ order, s.stop q < ofs) ∨ ∃ q ∈ order, s.start q < ofs ∧ stop < s.stop q

theorem Inode.Wants.congr {s' : Inode} {ofs stop : Nat} (hsame : ∀ q ∈ order, s'.frag q = s.frag q)
    (h : s'.Wants order ofs stop) : s.Wants order ofs stop := by
  refine h.imp (And.imp_right fun h q hq => ?_) fun ⟨q, hq, h⟩ => ⟨q, hq, ?_⟩
  · rw [Inode.stop, ← hsame q hq]
    exact h q hq
  · rwa [start, Inode.stop, ← hsame q hq]

/-- The file with the new piece, or the file as it was if a second fragment is not to be had. -/
def Outcome (answer : Option Ptr) (known : Known) (s : Inode) (order : List Ptr)
    (n fn : Ptr) (hi : Nat) (r : Inode × Int) : Prop :=
  (r.2 = 0 ∧ ∃ order', Good (known.add fn) r.1 order' ∧ n ∈ order' ∧ r.1.frag n = s.frag n ∧
    r.1.pieces order' = write (s.start n) (s.stop n) fn (fill 0 hi (s.start n) (s.pieces order))) ∨
  (r.2 = -ENOMEM ∧ Good known r.1 order ∧ r.1.pieces order = s.pieces order ∧
    s.Wants order (s.start n) (s.stop n) ∧ ∀ x, answer = some x → ¬s.Free x)

section

variable (hr : Ready known s order n fn) {h : Heap}

include hr

theorem Ready.piece : s.piece n = ⟨s.start n, s.stop n, fn⟩ := by
  rw [Inode.piece, hr.node]

theorem Ready.ne (hq : q ∈ order) : q ≠ n := fun hc => hr.fresh.2.2 (hc ▸ hq)

theorem Ready.live_of_mem (hq : q = n ∨ q ∈ order) : s.live q = true := by
  rcases hq with rfl | hq
  · exact hr.live
  · exact hr.good.live q hq

/-- What must stay so that the fragment can go in. -/
theorem Ready.of_good (hg : Good known s' order) (hlive : s'.live n = true)
    (hfrag : s'.frag n = s.frag n) (hofs : (s'.dnode fn).ofs = (s.dnode fn).ofs)
    (hfrags : (s'.dnode fn).frags = (s.dnode fn).frags) (hraw : (s'.dnode fn).raw ≠ .obsolete) :
    Ready known s' order n fn := by
  constructor
  · exact hg
  · exact hr.fresh
  · exact hlive
  · rw [hfrag]
    exact hr.node
  · rw [hofs, hfrag]
    exact hr.ofs
  · rw [hfrags]
    exact hr.frags
  · exact hraw
  · exact hr.null
  · exact hr.unknown
  · rw [start, Inode.stop, hfrag]
    exact hr.size
  · rw [Inode.stop, hfrag]
    exact hr.fit

/-- The marks of nodes with fragments and of the new node do not matter. -/
theorem Ready.markRefNormal (hp : p = fn ∨ owners s order p ≠ 0) :
    Ready known (s.markRefNormal p) order n fn := by
  have hat : ((s.markRefNormal p).dnode fn).ofs = (s.dnode fn).ofs ∧
      ((s.markRefNormal p).dnode fn).frags = (s.dnode fn).frags ∧
      ((s.markRefNormal p).dnode fn).raw ≠ .obsolete := by
    rw [Inode.markRefNormal]
    split
    · exact ⟨rfl, rfl, hr.raw⟩
    rw [setRaw]
    by_cases hfn : fn = p
    · subst hfn
      rw [setDnode_self]
      exact ⟨rfl, rfl, by simp⟩
    · rw [setDnode_of_ne hfn]
      exact ⟨rfl, rfl, hr.raw⟩
  apply hr.of_good
  · apply hr.good.markRefNormal
    intro hk
    rcases hp with rfl | hp
    · exact absurd hk hr.unknown
    · exact hp
  · rw [markRefNormal_live]
    exact hr.live
  · rw [markRefNormal_frag]
  · exact hat.1
  · exact hat.2.1
  · exact hat.2.2

end

/-- The new fragment is in the tree. -/
theorem Ready.placed (hr : Ready known s (A ++ B) n fn) (hh : RbOk (h, A ++ n :: B)) :
    Good (known.add fn) (s.setHeap h) (A ++ n :: B) := by
  refine ⟨hh, ?_, ?_⟩
  · intro q hq
    apply hr.live_of_mem
    simp only [mem_append, mem_cons] at hq ⊢
    tauto
  · have howned := hr.good.owned.insert_new hr.unknown hr.null hr.node hr.frags hr.raw
    exact howned.congr (fun _ _ => rfl) rfl

section

variable (hr : Ready known s order n fn) {answer : Option Ptr}

include hr

theorem Ready.ne_of_free (hx : s.live x = false) : n ≠ x := by
  intro hc
  rw [← hc, hr.live] at hx
  cases hx

/-- Another fragment is allocated. -/
theorem Ready.alloc (hx : s.live x = false) : Ready known (s.alloc x f) order n fn := by
  have hne := hr.ne_of_free hx
  apply hr.of_good (hr.good.alloc hx)
  · exact (update_of_ne hne ..).trans hr.live
  · exact setFrag_frag_of_ne hne
  · rfl
  · rfl
  · exact hr.raw

/-- A hole is put in front of the new fragment. -/
theorem Ready.hole (hh : RbOk (h, order ++ [x])) (hne : x ≠ n)
    (hlive : s.live x = true) (hnode : (s.frag x).node = 0) :
    Ready known (s.setHeap h) (order ++ [x]) n fn := by
  have howned : Owned known s (order ++ [x]) := by
    have hbefore := hr.good.owned
    rw [← append_nil order] at hbefore
    exact hbefore.insert_old hnode rfl (.inl rfl) (fun _ _ => rfl) (absurd rfl)
  refine ⟨⟨hh, ?_, howned.congr (fun _ _ => rfl) rfl⟩, ?_, hr.live, hr.node, hr.ofs, hr.frags,
    hr.raw, hr.null, hr.unknown, hr.size, hr.fit⟩
  · intro q hq
    rcases mem_append.mp hq with hq | hq
    · exact hr.good.live q hq
    · rw [mem_singleton.mp hq]
      exact hlive
  · refine ⟨hr.fresh.1, hr.fresh.2.1, ?_⟩
    rw [mem_append, mem_singleton]
    intro hc
    exact hc.elim hr.fresh.2.2 (Ne.symm hne)

end

theorem Outcome.of_frag (hfrag : s'.frag = s.frag) (hlive : s'.live = s.live)
    (h : Outcome answer known s' order n fn hi r) : Outcome answer known s order n fn hi r := by
  have hpieces : s'.pieces order = s.pieces order := pieces_congr fun q _ => by rw [hfrag]
  simp only [Outcome, Inode.Wants, Inode.Free, start, Inode.stop, hfrag, hlive, hpieces] at h
  exact h

/-! ### Behind the last fragment -/

theorem noOverlappingNode_spec (hr : Ready known s order n fn)
    (hc : Chain 0 (s.pieces order) hi) (hend : lastend.toNat = hi) (hhi : hi ≤ s.start n) :
    Ends (noOverlappingNode s answer n (order.getLast?.getD 0) lastend)
      (Outcome answer known s order n fn hi) := by
  have hfill := hc.fill (v := 0) (s := s.start n)
  rw [Nat.max_eq_right hhi] at hfill
  have hwrite := hfill.write_end (v := fn) (Nat.le_refl _) hr.size
  have hofs : (s.dnode fn).ofs.toNat = s.start n := by rw [hr.ofs, start]
  rw [noOverlappingNode, loadFrag_eq hr.fresh.1]
  simp only [Option.bind_eq_bind, Option.bind_some, hr.node, loadDnode_eq hr.null,
    lt_def, hend, hofs]
  by_cases hgap : hi < s.start n
  · rw [if_pos hgap]
    rcases newFragment_cases s answer 0 lastend ((s.dnode fn).ofs - lastend) with
      ⟨hnone, hfree⟩ | ⟨x, -, ⟨hx0, hxal, hxlive⟩, hsome⟩
    · rw [hnone]
      refine .ret (.inr ⟨rfl, ⟨hr.good.tree, ?_, hr.good.owned.congr (fun _ _ => rfl) rfl⟩, rfl,
        .inl ?_, hfree⟩)
      · intro q hq
        exact (update_of_ne (hr.ne hq) ..).trans (hr.good.live q hq)
      · exact ⟨zero_lt_of_lt hgap, fun q hq => lt_of_le_of_lt (mem_bounds hc hq).2.2 hgap⟩
    have hxn := Ne.symm (hr.ne_of_free hxlive)
    have hsize : ((s.dnode fn).ofs - lastend).toNat = s.start n - hi := by
      rw [toNat_sub_of_le (by rw [le_def, hend, hofs]; exact hhi), hofs, hend]
    have hxfresh : Fresh order x := ⟨hx0, hxal, hr.good.notMem hxlive⟩
    have hr1 := hr.alloc (f := ⟨0, (s.dnode fn).ofs - lastend, lastend⟩) hxlive
    rw [hsome]
    apply bind (linkFrag_end hr1.good.tree hxfresh)
    rintro _ ⟨h1, rfl, hh1⟩
    have hr2 := hr1.hole hh1 hxn (update_self ..) (by rw [alloc, setFrag_frag_self])
    have hlink := linkFrag_end hr2.good.tree hr2.fresh
    rw [getLast?_append, getLast?_singleton, Option.some_or, Option.getD_some] at hlink
    apply bind hlink
    rintro _ ⟨h2, rfl, hh2⟩
    rw [← append_nil (order ++ [x])] at hr2
    refine .ret (.inl ⟨rfl, order ++ [x] ++ [n],
      hr2.placed hh2, by simp, setFrag_frag_of_ne (Ne.symm hxn), ?_⟩)
    have hpieces : (s.alloc x ⟨0, (s.dnode fn).ofs - lastend, lastend⟩).pieces
        (order ++ [x] ++ [n]) = s.pieces order ++ [⟨hi, s.start n, 0⟩] ++ [s.piece n] := by
      rw [pieces_append, pieces_append, pieces_alloc hxfresh.2.2, pieces_cons,
        piece_alloc_self, pieces_cons, piece_alloc_of_ne (Ne.symm hxn)]
      simp only [hend, hsize, Nat.add_sub_cancel' hhi]
      rfl
    rw [hwrite, fill, if_pos hgap, ← hr.piece, ← hpieces]
    rfl
  · rw [if_neg hgap]
    apply bind (linkFrag_end hr.good.tree hr.fresh)
    rintro _ ⟨h, rfl, hh⟩
    rw [← append_nil order] at hr
    refine .ret (.inl ⟨rfl, order ++ [n], hr.placed hh, by simp, rfl, ?_⟩)
    rw [hwrite, fill, if_neg hgap, ← hr.piece]
    exact pieces_append

/-! ### Inside a fragment -/

/-- The offsets behind `this` are behind anything that starts in it. -/
theorem behind_of_chain (hc : Chain 0 (s.pieces (A ++ this :: B)) hi)
    (hofs : ofs.toNat < s.stop this) (hq : q ∈ B) : ofs < (s.frag q).ofs := by
  have hstart := (mem_bounds (chain_around hc).2.2 hq).1
  rw [lt_def]
  exact lt_of_lt_of_le hofs hstart

/-- A fragment that is cut short in front of the new one. -/
theorem Ready.shorten (hr : Ready known s (A ++ this :: B) n fn)
    (hnode : f.node = (s.frag this).node) :
    Ready known (s.setFrag this f) (A ++ this :: B) n fn := by
  apply hr.of_good (hr.good.setFrag hnode) hr.live
  · exact setFrag_frag_of_ne (Ne.symm (hr.ne (by simp)))
  · rfl
  · rfl
  · exact hr.raw

/-- `this` up to the new fragment. -/
theorem piece_shorten (hle : s.start this ≤ s.start n) :
    (s.setFrag this { s.frag this with size := (s.frag n).ofs - (s.frag this).ofs }).piece this =
      ⟨s.start this, s.start n, (s.frag this).node⟩ := by
  have hsize : ((s.frag n).ofs - (s.frag this).ofs).toNat = s.start n - s.start this := by
    rw [toNat_sub_of_le (by rw [le_def]; exact hle), start, start]
  rw [piece_setFrag_self]
  simp only [hsize]
  rw [← start, Nat.add_sub_cancel' hle]

/-- Two new fragments behind `this`. -/
theorem insertTwo_spec (hok : RbOk (s.heap, A ++ this :: B)) (hn : Fresh (A ++ this :: B) n)
    (hm : Fresh (A ++ this :: B) m) (hmn : m ≠ n) (hfirst : (s.frag this).ofs < (s.frag n).ofs)
    (hsecond : (s.frag n).ofs < (s.frag m).ofs) (hB : ∀ q ∈ B, (s.frag m).ofs < (s.frag q).ofs) :
    Ends (jffs2FragtreeInsert s n this >>= fun s => jffs2FragtreeInsert s m n) fun s' =>
      ∃ h, s' = s.setHeap h ∧ RbOk (h, A ++ [this] ++ [n] ++ m :: B) := by
  have hn' := jffs2FragtreeInsert_spec hok hn hfirst fun q hq => BitVec.lt_trans hsecond (hB q hq)
  apply bind hn'
  rintro _ ⟨h1, rfl, hh1⟩
  rw [show A ++ this :: n :: B = A ++ [this] ++ n :: B by simp] at hh1
  have hfresh : Fresh (A ++ [this] ++ n :: B) m := by
    refine ⟨hm.1, hm.2.1, fun hc => ?_⟩
    have hmem : m = n ∨ m ∈ A ++ this :: B := by
      simp only [mem_append, mem_cons, not_mem_nil, or_false] at hc ⊢
      tauto
    exact hmem.elim hmn hm.2.2
  apply mono (jffs2FragtreeInsert_spec (s := s.setHeap h1) hh1 hfresh hsecond hB)
  rintro _ ⟨h2, rfl, hh2⟩
  refine ⟨h2, rfl, ?_⟩
  rwa [show A ++ [this] ++ n :: m :: B = A ++ [this] ++ [n] ++ m :: B by simp] at hh2

/-- The pieces with the new fragment in the middle of `this`. -/
theorem pieces_split {s' : Inode} (hA : ∀ q ∈ A, s'.frag q = s.frag q) (hn : s'.frag n = s.frag n)
    (hB : ∀ q ∈ B, s'.frag q = s.frag q) : s'.pieces (A ++ [this] ++ [n] ++ m :: B) =
      s.pieces A ++ [s'.piece this] ++ s.piece n :: s'.piece m :: s.pieces B := by
  rw [pieces_append, pieces_append, pieces_append, pieces_congr hA, pieces_cons (x := m),
    pieces_congr hB, pieces_cons (x := n), piece_congr hn, append_assoc _ _ (_ :: _)]
  rfl

/-- The nodes with the new fragment in the middle of `this`, whose rest is at `m`. -/
theorem Ready.owned_split (hr : Ready known s (A ++ this :: B) n fn) (hlive : s.live m = false)
    (hm : this ≠ m) (hg : g.node = (s.frag this).node)
    (hlen : (A ++ [this] ++ [n] ++ m :: B).length < 2 ^ 32) :
    Owned (known.add fn) ((s.alloc m g).addRef (s.frag this).node)
      (A ++ [this] ++ [n] ++ m :: B) := by
  have hr := hr.alloc (f := g) hlive
  have howned := hr.good.owned
  rw [show A ++ this :: B = A ++ [this] ++ B by simp] at howned
  replace howned := howned.insert_new hr.unknown hr.null hr.node hr.frags hr.raw
  rw [show A ++ [this] ++ n :: B = A ++ [this] ++ [n] ++ B by simp] at howned
  have hkept : (s.alloc m g).frag this = s.frag this := setFrag_frag_of_ne hm
  apply howned.addRef (q := this) (by simp) (by rw [hkept]) _ hlen
  rw [Inode.alloc, setFrag_frag_self, hg]

/-- The size of what is left of `this` behind the new fragment. -/
theorem rest_size (hsplit : s.stop n < s.stop this) (hfit : s.stop this < 2 ^ 32) :
    ((s.frag this).ofs + (s.frag this).size - (s.frag n).ofs - (s.frag n).size).toNat =
      s.stop this - s.stop n := by
  have hthis := toNat_stop hfit
  have hn : s.stop n = (s.frag n).ofs.toNat + (s.frag n).size.toNat := rfl
  have hsub : ((s.frag this).ofs + (s.frag this).size - (s.frag n).ofs).toNat = s.stop this -
      (s.frag n).ofs.toNat := by
    rw [toNat_sub_of_le (by rw [le_def, hthis]; omega), hthis]
  rw [toNat_sub_of_le (by rw [le_def, hsub]; omega), hsub]
  omega

section

variable (hr : Ready known s (A ++ this :: B) n fn) (hc : Chain 0 (s.pieces (A ++ this :: B)) hi)

include hr hc

/-- What is written over `this` and behind it. -/
theorem write_over (hlo : s.start this ≤ s.start n) (hin : s.start n < s.stop this) :
    write (s.start n) (s.stop n) fn (fill 0 hi (s.start n) (s.pieces (A ++ this :: B))) =
      s.pieces A ++
      (if s.start this < s.start n then [⟨s.start this, s.start n, (s.frag this).node⟩] else []) ++
        s.piece n ::
        (if s.stop n < s.stop this then ⟨s.stop n, s.stop this, (s.frag this).node⟩ :: s.pieces B
          else keepAbove (s.stop n) (s.pieces B)) := by
  have hle := (chain_around hc).2.2.le
  rw [pieces_append, pieces_cons] at hc ⊢
  rw [fill, if_neg (by omega), hc.write_eq hlo hin hr.size, hr.piece]
  rfl

section

variable (hhi : hi < 2 ^ 32) (hlo : s.start this < s.start n) (hin : s.start n < s.stop this)

include hhi hlo hin

theorem shortenFrag_spec (hcover : s.stop this ≤ s.stop n) :
    Ends (shortenFrag s n this (s.frag n) (s.frag this))
      (Outcome answer known s (A ++ this :: B) n fn hi) := by
  have hcB := (chain_around hc).2.2
  obtain ⟨hA, hB⟩ := notMem_of_nodup hr.good.tree.nodup
  have hout : ∀ q ∈ A ++ [this], q ∉ B := by
    intro q hq hqB
    have hnd := hr.good.tree.nodup
    rw [show A ++ this :: B = (A ++ [this]) ++ B by simp] at hnd
    exact (nodup_append.mp hnd).2.2 q hq q hqB rfl
  have hnB : n ∉ B := fun hc => hr.ne (q := n) (by simp [hc]) rfl
  have hn : ∀ f, (s.setFrag this f).frag n = s.frag n :=
    fun f => setFrag_frag_of_ne (Ne.symm (hr.ne (by simp)))
  have hq : ∀ f, ∀ q ∈ B, (s.setFrag this f).frag q = s.frag q := fun f q hq =>
    setFrag_frag_of_ne fun hc => hB (hc ▸ hq)
  have hthis := piece_shorten (n := n) (le_of_lt hlo)
  rw [shortenFrag]
  let old := s.frag this
  generalize hf : NodeFrag.mk old.node ((s.frag n).ofs - old.ofs) old.ofs = f at *
  have hnode : f.node = old.node := by rw [← hf]
  have hofs : f.ofs = old.ofs := by rw [← hf]
  have hr1 := hr.shorten hnode
  have hins := jffs2FragtreeInsert_spec hr1.good.tree hr1.fresh
    (by rw [hn, setFrag_frag_self, hofs, lt_def]; exact hlo)
    (fun q hqB => by rw [hn, hq _ q hqB]; exact behind_of_chain hc hin hqB)
  apply bind hins
  rintro _ ⟨h, rfl, hh⟩
  rw [show A ++ this :: n :: B = (A ++ [this]) ++ n :: B by simp] at hh
  rw [show A ++ this :: B = (A ++ [this]) ++ B by simp] at hr1
  have hg := hr1.placed hh
  have hstop : ((s.setFrag this f).setHeap h).stop n = s.stop n := by
    rw [Inode.stop, Inode.stop, ← hn f]
    rfl
  have hpB : ((s.setFrag this f).setHeap h).pieces B = s.pieces B := pieces_setFrag hB
  have htrim := trimFollowing_spec hg (hpB ▸ hcB) (by rw [hstop]; exact hcover) hhi
    (by rw [hstop]; exact hr.fit)
  apply mono htrim
  rintro r ⟨hret, B', hg', hkeep, hother⟩
  refine Or.inl ⟨hret, (A ++ [this]) ++ n :: B', hg', by simp, (hother n hnB).trans (hn f), ?_⟩
  rw [write_over hr hc (le_of_lt hlo) hin, if_pos hlo, if_neg (not_lt.mpr hcover), pieces_append,
    pieces_cons, hkeep, hstop, hpB]
  have hbefore : r.1.pieces (A ++ [this]) = s.pieces A ++
      [⟨s.start this, s.start n, old.node⟩] := by
    rw [pieces_congr fun q hq => hother q (hout q hq), pieces_append, ← hthis]
    exact congrArg (· ++ _) (pieces_setFrag hA)
  rw [hbefore, piece_congr ((hother n hnB).trans (hn f))]

theorem splitFrag_spec (hsplit : s.stop n < s.stop this) :
    Ends (splitFrag s answer n this (s.frag n) (s.frag this))
      (Outcome answer known s (A ++ this :: B) n fn hi) := by
  have hle := (chain_around hc).2.2.le
  obtain ⟨hA, hB⟩ := notMem_of_nodup hr.good.tree.nodup
  have hthis := piece_shorten (n := n) (Nat.le_of_lt hlo)
  rw [splitFrag]
  rcases newFragment_cases s answer (s.frag this).node ((s.frag n).ofs + (s.frag n).size)
    ((s.frag this).ofs + (s.frag this).size - (s.frag n).ofs - (s.frag n).size) with
    ⟨hnone, hfree⟩ | ⟨m, -, ⟨hm0, hmal, hmlive⟩, hsome⟩
  · rw [hnone]
    exact .ret (.inr ⟨rfl, hr.good, rfl, .inr ⟨this, by simp, hlo, hsplit⟩, hfree⟩)
  rw [hsome]
  generalize hg : NodeFrag.mk (s.frag this).node _ ((s.frag n).ofs + (s.frag n).size) = g at *
  generalize hf : NodeFrag.mk (s.frag this).node ((s.frag n).ofs - (s.frag this).ofs)
    (s.frag this).ofs = f at *
  -- the fragments after the assignments
  have hm : m ∉ A ++ this :: B := hr.good.notMem hmlive
  have hmn : m ≠ n := Ne.symm (hr.ne_of_free hmlive)
  have hmthis : m ≠ this := fun hc => hm (by simp [hc])
  have hnthis : n ≠ this := Ne.symm (hr.ne (by simp))
  have hgpiece : (⟨g.ofs.toNat, g.ofs.toNat + g.size.toNat, g.node⟩ : Piece Ptr) =
      ⟨s.stop n, s.stop this, (s.frag this).node⟩ := by
    rw [← hg]
    simp only [toNat_stop hr.fit, rest_size hsplit (by omega)]
    rw [Nat.add_sub_cancel' (Nat.le_of_lt hsplit)]
  show Ends ((jffs2FragtreeInsert (((s.alloc m g).addRef (s.frag this).node).setFrag this f) n
    this >>= fun s =>
    jffs2FragtreeInsert s m n >>= fun s => some (s, (0 : Int)))) _
  rw [← bind_assoc]
  generalize hs : ((s.alloc m g).addRef (s.frag this).node).setFrag this f = s1
  have hsame : ∀ q, q ≠ this → q ≠ m → s1.frag q = s.frag q := by
    intro q hqt hqm
    rw [← hs, setFrag_frag_of_ne hqt, addRef_frag]
    exact setFrag_frag_of_ne hqm
  have hatthis : s1.frag this = f := by rw [← hs, setFrag_frag_self]
  have hatm : s1.frag m = g := by
    rw [← hs, setFrag_frag_of_ne hmthis, addRef_frag]
    exact setFrag_frag_self
  have hatn : s1.frag n = s.frag n := hsame n hnthis (Ne.symm hmn)
  have hatB : ∀ q ∈ B, s1.frag q = s.frag q := fun q hq =>
    hsame q (fun hc => hB (hc ▸ hq)) fun hc => hm (by simp [← hc, hq])
  have hheap : s1.heap = s.heap := by
    rw [← hs]
    exact addRef_heap
  have htwo := insertTwo_spec (s := s1) (hheap ▸ hr.good.tree) hr.fresh ⟨hm0, hmal, hm⟩ hmn ?_ ?_ ?_
  · apply bind htwo
    rintro _ ⟨h, rfl, hh⟩
    have howned := hr.owned_split (g := g) hmlive (Ne.symm hmthis) (by rw [← hg]) hh.length_lt
    refine .ret (.inl ⟨rfl, _, ⟨hh, ?_, ?_⟩, by simp, hatn, ?_⟩)
    · intro q hq
      show s1.live q = true
      rw [← hs]
      show ((s.alloc m g).addRef _).live q = true
      rw [addRef_live]
      by_cases hqm : q = m
      · rw [hqm]
        exact update_self ..
      have hlive : s.live q = true := by
        apply hr.live_of_mem
        simp only [mem_append, mem_cons, not_mem_nil, or_false] at hq ⊢
        tauto
      exact (update_of_ne hqm ..).trans hlive
    · refine howned.congr (fun q _ => ?_) (by rw [← hs]; rfl)
      show (s1.frag q).node = _
      rw [← hs]
      by_cases hqt : q = this
      · have hkept : (s.alloc m g).frag this = s.frag this := setFrag_frag_of_ne (Ne.symm hmthis)
        rw [hqt, setFrag_frag_self, addRef_frag, hkept, ← hf]
      · rw [setFrag_frag_of_ne hqt]
    · rw [write_over hr hc (Nat.le_of_lt hlo) hin, if_pos hlo, if_pos hsplit, ← hgpiece, ← hthis]
      have hatA : ∀ q ∈ A, s1.frag q = s.frag q := fun q hq =>
        hsame q (fun hc => hA (hc ▸ hq)) fun hc => hm (by simp [← hc, hq])
      have hthis' : (s1.setHeap h).piece this = (s.setFrag this f).piece this :=
        piece_congr (hatthis.trans setFrag_frag_self.symm)
      have hm' : (s1.setHeap h).piece m = ⟨g.ofs.toNat, g.ofs.toNat + g.size.toNat, g.node⟩ := by
        rw [piece, start, Inode.stop, show (s1.setHeap h).frag m = g from hatm]
      rw [← hthis', ← hm']
      exact pieces_split hatA hatn hatB
  · rw [hatthis, hatn, ← hf, lt_def]
    exact hlo
  · rw [hatn, hatm, ← hg, lt_def, toNat_stop hr.fit]
    exact hr.size
  · intro q hq
    rw [hatm, hatB q hq, ← hg]
    exact behind_of_chain hc (by rw [toNat_stop hr.fit]; exact hsplit) hq

theorem overlapInside_spec :
    Ends (overlapInside s answer n this (s.frag n) (s.frag this))
      (Outcome answer known s (A ++ this :: B) n fn hi) := by
  have hle := (chain_around hc).2.2.le
  have hr1 := hr.markRefNormal (.inl hr.node)
  have hr2 := hr1.markRefNormal (p := (s.frag this).node) (.inr (by
    rw [owners_congr (s := s) fun q _ => by rw [markRefNormal_frag]]
    exact owners_ne_zero (by simp)))
  rw [overlapInside]
  have hfrag : ((s.markRefNormal (s.frag n).node).markRefNormal (s.frag this).node).frag
      = s.frag := by
    rw [markRefNormal_frag, markRefNormal_frag]
  have hlive : ((s.markRefNormal (s.frag n).node).markRefNormal (s.frag this).node).live
      = s.live := by
    rw [markRefNormal_live, markRefNormal_live]
  generalize (s.markRefNormal (s.frag n).node).markRefNormal (s.frag this).node = s1 at *
  have hpieces : s1.pieces (A ++ this :: B) = s.pieces (A ++ this :: B) :=
    pieces_congr fun q _ => by rw [hfrag]
  have hstart : s1.start = s.start := by
    funext q
    rw [start, start, hfrag]
  have hstop : s1.stop = s.stop := by
    funext q
    rw [Inode.stop, Inode.stop, hfrag]
  have hthis : s.stop this < 2 ^ 32 := by omega
  simp only [lt_def, toNat_stop hr.fit, toNat_stop hthis]
  rw [← hpieces] at hc
  rw [← hstart] at hlo hin
  rw [← hstop] at hin
  rw [← hfrag, ← hstop]
  apply Ends.ite
  · intro hsplit
    exact Ends.mono (splitFrag_spec hr2 hc hhi hlo hin hsplit) fun _ => Outcome.of_frag hfrag hlive
  · intro hcover
    exact .mono (shortenFrag_spec hr2 hc hhi hlo hin (not_lt.mp hcover)) fun _ =>
      Outcome.of_frag hfrag hlive

end

/-! ### In the place of a fragment -/

/-- The new fragment has taken the place of `this` and covers it. -/
theorem replaceWhole_spec
    (hhi : hi < 2 ^ 32) (hlo : s.start this = s.start n) (hcover : s.stop this ≤ s.stop n)
    (hh : RbOk (h, A ++ n :: B)) :
    Ends (jffs2ObsoleteNodeFrag (s.setHeap h) this >>= fun s => trimFollowing s n)
      (Outcome answer known s (A ++ this :: B) n fn hi) := by
  obtain ⟨-, hne, hcB⟩ := chain_around hc
  have hnd := hr.good.tree.nodup
  obtain ⟨hA, hB⟩ := notMem_of_nodup hnd
  have hnthis : n ≠ this := Ne.symm (hr.ne (by simp))
  have hnB : n ∉ B := fun hc => hr.ne (q := n) (by simp [hc]) rfl
  have howned := hr.good.owned.insert_new hr.unknown hr.null hr.node hr.frags hr.raw
  rw [show A ++ n :: this :: B = A ++ [n] ++ this :: B by simp] at howned
  rw [show A ++ n :: B = A ++ [n] ++ B by simp] at hh
  have hgone := obsolete_good (s := s.setHeap h) hh ?_ (hr.good.tree.ne_zero (by simp)) ?_
    (howned.congr (fun _ _ => rfl) rfl)
  · apply bind hgone
    rintro s1 ⟨hg1, hfrag⟩
    rw [show A ++ [n] ++ B = A ++ n :: B by simp] at hg1
    have hstop : s1.stop n = s.stop n := by
      rw [Inode.stop, Inode.stop, hfrag]
      rfl
    have hpieces : ∀ l, s1.pieces l = s.pieces l :=
      fun l => pieces_congr fun q _ => by rw [hfrag]; rfl
    have htrim := trimFollowing_spec hg1 (hpieces B ▸ hcB) (by rw [hstop]; exact hcover) hhi
      (by rw [hstop]; exact hr.fit)
    apply mono htrim
    rintro r ⟨hret, B', hg', hkeep, hother⟩
    have hatn : r.1.frag n = s.frag n := (hother n hnB).trans (by rw [hfrag]; rfl)
    refine .inl ⟨hret, A ++ n :: B', hg', by simp, hatn, ?_⟩
    have hbefore : r.1.pieces A = s.pieces A := by
      rw [← hpieces A]
      apply pieces_congr
      intro q hq
      exact hother q fun hqB => (nodup_append.mp hnd).2.2 q hq q (mem_cons_of_mem _ hqB) rfl
    rw [write_over hr hc (le_of_eq hlo) (hlo ▸ hne), if_neg (by omega), if_neg (by omega),
      pieces_append, pieces_cons, hbefore, hkeep, hstop, hpieces, piece_congr hatn, append_nil]
  · intro q hq
    apply hr.live_of_mem
    simp only [mem_append, mem_cons, not_mem_nil, or_false] at hq ⊢
    tauto
  · simp only [mem_append, mem_cons, not_mem_nil, or_false]
    intro hc
    exact hc.elim (fun hc => hc.elim hA (Ne.symm hnthis)) hB

/-- The new fragment has taken the place of `this`, and what is left of that goes behind it. -/
theorem replaceFront_spec
    (hlo : s.start this = s.start n) (hsplit : s.stop n < s.stop this)
    (hh : RbOk (h, A ++ n :: B)) :
    Ends (jffs2FragtreeInsert ((s.setHeap h).setFrag this { s.frag this with
        ofs := (s.frag this).ofs + (s.frag n).size, size := (s.frag this).size - (s.frag n).size })
        this n >>= fun s =>
      some (s, (0 : Int))) (Outcome answer known s (A ++ this :: B) n fn hi) := by
  obtain ⟨-, hne, hcB⟩ := chain_around hc
  obtain ⟨hA, hB⟩ := notMem_of_nodup hr.good.tree.nodup
  have hnthis : n ≠ this := Ne.symm (hr.ne (by simp))
  let old := s.frag this
  have hofs : old.ofs = (s.frag n).ofs := eq_of_toNat_eq hlo
  have hnstop : s.stop n = (s.frag n).ofs.toNat + (s.frag n).size.toNat := rfl
  have htstop : s.stop this = (s.frag n).ofs.toNat + old.size.toNat := by rw [Inode.stop, hofs]
  have hsize : (old.size - (s.frag n).size).toNat = s.stop this - s.stop n := by
    rw [toNat_sub_of_le (by rw [le_def]; omega)]
    omega
  rw [hofs]
  generalize hf : NodeFrag.mk old.node (old.size - (s.frag n).size)
    ((s.frag n).ofs + (s.frag n).size) = f
  let s1 := (s.setHeap h).setFrag this f
  have hstop := toNat_stop hr.fit
  have hpiece : s1.piece this = ⟨s.stop n, s.stop this, old.node⟩ := by
    rw [piece_setFrag_self, ← hf]
    simp only [hstop, hsize]
    rw [Nat.add_sub_cancel' (Nat.le_of_lt hsplit)]
  have hatn : s1.frag n = s.frag n := setFrag_frag_of_ne hnthis
  have hatB : ∀ q ∈ B, s1.frag q = s.frag q := fun q hq =>
    setFrag_frag_of_ne fun hc => hB (hc ▸ hq)
  have hfresh : Fresh (A ++ n :: B) this := by
    refine ⟨hr.good.tree.ne_zero (by simp), hr.good.tree.aligned (by simp), ?_⟩
    rw [mem_append, mem_cons]
    intro hc
    exact hc.elim hA fun hc => hc.elim (Ne.symm hnthis) hB
  have hins := jffs2FragtreeInsert_spec (s := s1) hh hfresh ?_ ?_
  · apply bind hins
    rintro _ ⟨h', rfl, hh'⟩
    have howned := hr.good.owned.insert_new hr.unknown hr.null hr.node hr.frags hr.raw
    refine .ret (.inl ⟨rfl, A ++ n :: this :: B,
      ⟨hh', ?_, howned.congr (fun q _ => ?_) rfl⟩, by simp, hatn, ?_⟩)
    · intro q hq
      apply hr.live_of_mem
      simp only [mem_append, mem_cons] at hq ⊢
      tauto
    · show (s1.frag q).node = _
      by_cases hqt : q = this
      · rw [hqt, setFrag_frag_self, ← hf]
      · rw [setFrag_frag_of_ne hqt]
        rfl
    · show s1.pieces (A ++ n :: this :: B) = _
      rw [write_over hr hc (le_of_eq hlo) (hlo ▸ hne), if_neg (by omega), if_pos hsplit,
        pieces_append, pieces_cons, pieces_cons, pieces_setFrag hA, pieces_setFrag hB, hpiece,
        piece_congr hatn, append_nil]
      rfl
  · rw [hatn, setFrag_frag_self, ← hf, lt_def, hstop]
    exact hr.size
  · intro q hq
    rw [setFrag_frag_self, hatB q hq, ← hf]
    exact behind_of_chain hc (by rw [hstop]; exact hsplit) hq

theorem overlapStart_spec (hhi : hi < 2 ^ 32) (hlo : s.start this = s.start n) :
    Ends (overlapStart s n this (s.frag n) (s.frag this))
      (Outcome answer known s (A ++ this :: B) n fn hi) := by
  have hthis : s.stop this < 2 ^ 32 := lt_of_le_of_lt (chain_around hc).2.2.le hhi
  rw [overlapStart]
  apply Ends.bind (rbReplaceNode_order hr.good.tree hr.fresh)
  intro h hh
  simp only [le_def, toNat_stop hr.fit, toNat_stop hthis]
  apply Ends.ite
  · intro hcover
    exact replaceWhole_spec hr hc hhi hlo hcover hh
  · intro hsplit
    exact replaceFront_spec hr hc hlo (not_le.mp hsplit) hh

end

/-! ### The whole call -/

theorem markSamePage_frag : (markSamePage s this lastend f).frag = s.frag := by
  rw [markSamePage]
  split
  · rw [markRefNormal_frag, markRefNormal_frag]
  · rfl

theorem markSamePage_live : (markSamePage s this lastend f).live = s.live := by
  rw [markSamePage]
  split
  · rw [markRefNormal_live, markRefNormal_live]
  · rfl

theorem Ready.markSamePage (hr : Ready known s order n fn) (hthis : lastend ≠ 0 → this ∈ order) :
    Ready known (markSamePage s this lastend (s.frag n)) order n fn := by
  rw [Jffs2.markSamePage]
  split
  · have hmem := hthis (And.left ‹_›)
    exact (hr.markRefNormal (.inr (owners_ne_zero hmem))).markRefNormal (.inl hr.node)
  · exact hr

/-- **A fragment is added.** -/
theorem jffs2AddFragToFragtree_spec (hr : Ready known s order n fn)
    (hc : Chain 0 (s.pieces order) hi) (hhi : hi < 2 ^ 32) :
    Ends (jffs2AddFragToFragtree s answer n) (Outcome answer known s order n fn hi) := by
  have hofs : (s.frag n).ofs.toNat = s.start n := rfl
  rw [jffs2AddFragToFragtree, loadFrag_eq hr.fresh.1]
  simp only [Option.bind_eq_bind, Option.bind_some, hr.node, loadDnode_eq hr.null, hr.ofs,
    jffs2LookupNodeFrag_spec hr.good.tree hc hhi, hofs]
  by_cases hend : hi ≤ s.start n
  · rw [seek_end hc hend]
    have hlast := lastend_eq hr.good.tree hc hhi
    generalize hthis : order.getLast?.getD 0 = this at *
    generalize (if this = 0 then (0 : BitVec 32) else _) = lastend at *
    have hmem : lastend ≠ 0 → this ∈ order := by
      intro h0
      cases hlist : order.getLast? with
      | none =>
        rw [getLast?_eq_none_iff] at hlist
        subst hlist
        have hzero : lastend.toNat = (0 : BitVec 32).toNat := hlast.trans hc.symm
        exact absurd (eq_of_toNat_eq hzero) h0
      | some x =>
        rw [hlist, Option.getD_some] at hthis
        exact hthis ▸ mem_of_getLast? hlist
    have hpieces : (markSamePage s this lastend (s.frag n)).pieces order = s.pieces order :=
      pieces_congr fun q _ => by rw [markSamePage_frag]
    have hstart : (markSamePage s this lastend (s.frag n)).start n = s.start n := by
      rw [start, markSamePage_frag, start]
    rw [if_pos (by rw [le_def, hlast]; exact hend), ← hthis]
    rw [← hthis] at hmem hpieces hstart
    apply Ends.mono (noOverlappingNode_spec (hr.markSamePage hmem) (hpieces ▸ hc) hlast
      (hstart ▸ hend))
    intro r
    exact Outcome.of_frag markSamePage_frag markSamePage_live
  · obtain ⟨A, this, B, rfl, hlo, hin, hseek⟩ := seek_found 0 hc (zero_le _) (not_le.mp hend)
    have hthis0 : this ≠ 0 := hr.good.tree.ne_zero (by simp)
    have hthis : s.stop this < 2 ^ 32 := lt_of_le_of_lt (chain_around hc).2.2.le hhi
    rw [hseek, if_neg hthis0, if_neg (by rw [le_def, toNat_stop hthis]; exact not_le.mpr hin),
      loadFrag_eq hthis0]
    apply Ends.ite
    · intro hlt
      exact overlapInside_spec hr hc hhi hlt hin
    · intro hge
      exact overlapStart_spec hr hc hhi (le_antisymm hlo (not_lt.mp hge))

/-- A fragment of the tree and its node share a page with a neighbour. -/
theorem Good.markNeighbour (hg : Good known s order) (hn : n ∈ order) (hq : q ∈ order) :
    let s' := (s.markRefNormal (s.frag n).node).markRefNormal (s.frag q).node
    Good known s' order ∧ s'.frag = s.frag := by
  refine ⟨(hg.markRefNormal fun _ => owners_ne_zero hn).markRefNormal fun _ => ?_, ?_⟩
  · rw [owners_congr (s := s) fun q _ => by rw [markRefNormal_frag]]
    exact owners_ne_zero hq
  · rw [markRefNormal_frag, markRefNormal_frag]

theorem markPrev_spec (hg : Good known s order) (hc : Chain 0 (s.pieces order) hi) (hn : n ∈ order)
    (hnode : (s.frag n).node = fn) :
    Ends (markPrev s n fn) fun s' => Good known s' order ∧ s'.frag = s.frag := by
  rw [markPrev, loadFrag_eq (hg.tree.ne_zero hn)]
  apply Ends.ite
  · intro _
    exact Ends.ret ⟨hg, rfl⟩
  intro hpage
  -- a fragment that does not start at 0 is not the first
  obtain ⟨A, B, rfl⟩ := append_of_mem hn
  rcases eq_nil_or_concat A with rfl | ⟨A, q, rfl⟩
  · refine absurd ?_ hpage
    have hzero : (s.frag n).ofs = 0 := eq_of_toNat_eq hc.1
    rw [hzero]
    decide
  have hq : q ∈ A.concat q ++ n :: B := by simp
  have hprev : rbPrev s.heap n = some q := by
    rw [rbPrev_spec hg.tree]
    simp
  rw [hprev]
  simp only [Option.bind_eq_bind, Option.bind_some, loadFrag_eq (hg.tree.ne_zero hq),
    markRefNormal_frag]
  subst hnode
  exact .ret (hg.markNeighbour hn hq)

theorem markNext_spec (hg : Good known s order) (hn : n ∈ order) (hnode : (s.frag n).node = fn) :
    Ends (markNext s n fn) fun s' => Good known s' order ∧ s'.frag = s.frag := by
  rw [markNext, loadFrag_eq (hg.tree.ne_zero hn)]
  apply Ends.ite
  · intro _
    exact Ends.ret ⟨hg, rfl⟩
  intro _
  obtain ⟨A, B, rfl⟩ := append_of_mem hn
  rw [rbNext_spec hg.tree]
  cases B with
  | nil => exact .ret ⟨hg, rfl⟩
  | cons q B =>
    have hq : q ∈ A ++ n :: q :: B := by simp
    simp only [head?_cons, Option.getD_some, Option.bind_eq_bind, Option.bind_some,
      if_neg (hg.tree.ne_zero hq), loadFrag_eq (hg.tree.ne_zero hq), markRefNormal_frag]
    subst hnode
    exact .ret (hg.markNeighbour hn hq)

/-- A call gets the first fragment it asks for, wants a second one and does not get it. -/
def Inode.Refuses (s : Inode) (order : List Ptr) (answer answer' : Option Ptr)
    (ofs stop : Nat) : Prop :=
  ∃ n, answer = some n ∧ s.Free n ∧ s.Wants order ofs stop ∧ ∀ x, answer' = some x →
    s.Free x → x = n

/-- What a call to add `fn` comes to: nothing to add, the file with the new piece, or the file as it
was. -/
def AddOutcome (answer answer' : Option Ptr) (known : Known) (s : Inode) (order : List Ptr)
    (fn : Ptr) (hi : Nat) (r : Inode × Int) : Prop :=
  ((s.dnode fn).size = 0 ∧ r = (s, 0)) ∨
  ((s.dnode fn).size ≠ 0 ∧ r.2 = 0 ∧ ∃ order', Good (known.add fn) r.1 order' ∧
    r.1.pieces order' = write (s.dnode fn).ofs.toNat
    ((s.dnode fn).ofs.toNat + (s.dnode fn).size.toNat) fn
      (fill 0 hi (s.dnode fn).ofs.toNat (s.pieces order))) ∨
  ((s.dnode fn).size ≠ 0 ∧ r = (s, -ENOMEM)) ∨
  ((s.dnode fn).size ≠ 0 ∧ r.2 = -ENOMEM ∧ Good known r.1 order ∧
    r.1.pieces order = s.pieces order ∧ s.Refuses order answer answer' (s.dnode fn).ofs.toNat
      ((s.dnode fn).ofs.toNat + (s.dnode fn).size.toNat))

/-- **A data node is added.** -/
theorem jffs2AddFullDnodeToInode_spec (answer answer' : Option Ptr) (hg : Good known s order)
    (hc : Chain 0 (s.pieces order) hi) (hhi : hi < 2 ^ 32) (h0 : fn ≠ 0) (hfn : ¬ known fn)
    (hraw : (s.dnode fn).raw ≠ .obsolete)
    (hfit : (s.dnode fn).ofs.toNat + (s.dnode fn).size.toNat < 2 ^ 32) :
    Ends (jffs2AddFullDnodeToInode s answer answer' fn)
      (AddOutcome answer answer' known s order fn hi) := by
  let d := s.dnode fn
  let f : NodeFrag := ⟨fn, d.size, d.ofs⟩
  rw [jffs2AddFullDnodeToInode, loadDnode_eq h0]
  apply Ends.ite
  · intro hsize
    exact Ends.ret (Or.inl ⟨hsize, rfl⟩)
  intro hsize
  rcases newFragment_cases s answer fn d.ofs d.size with ⟨hnone, -⟩ | ⟨n, hanswer, hfree, hsome⟩
  · rw [hnone]
    exact .ret (.inr (.inr (.inl ⟨hsize, rfl⟩)))
  obtain ⟨hn0, hnal, hnlive⟩ := hfree
  rw [hsome]
  have hnmem := hg.notMem hnlive
  have hatn : (s.alloc n f).frag n = f :=
    setFrag_frag_self
  have hpieces := pieces_alloc (s := s) (f := f) hnmem
  have hg1 := hg.alloc (f := f) hnlive
  have hlive : (s.alloc n f).live n = true := update_self ..
  have hframe : ∀ q ∈ order, (s.alloc n f).frag q = s.frag q := fun q hq =>
    setFrag_frag_of_ne fun hc => hnmem (hc ▸ hq)
  have hother : ∀ q, q ≠ n → (s.alloc n f).live q = s.live q := fun q hq => update_of_ne hq ..
  generalize s.alloc n f = s1 at *
  have hstart : s1.start n = d.ofs.toNat := by rw [start, hatn]
  have hstop : s1.stop n = d.ofs.toNat + d.size.toNat := by rw [Inode.stop, hatn]
  have hlt : s1.start n < s1.stop n := by
    have hpos : d.size.toNat ≠ 0 := fun hc => hsize (eq_of_toNat_eq hc)
    omega
  have hr : Ready known (s1.setDnode fn { d with frags := 1 }) order n fn := by
    constructor
    · exact ⟨hg1.tree, hg1.live, hg1.owned.setDnode hfn⟩
    · exact ⟨hn0, hnal, hnmem⟩
    · exact hlive
    · exact congrArg NodeFrag.node hatn
    · rw [setDnode_self]
      exact (congrArg NodeFrag.ofs hatn).symm
    · rw [setDnode_self]
    · rw [setDnode_self]
      exact hraw
    · exact h0
    · exact hfn
    · exact hlt
    · exact hstop ▸ hfit
  apply Ends.bind (jffs2AddFragToFragtree_spec hr (hpieces ▸ hc) hhi)
  rintro ⟨s2, ret⟩ hout
  rcases hout with ⟨hret, order', hg2, hmem, hfrag, hwrite⟩ | ⟨hret, hg2, hsame, hwants, hfree⟩
  · obtain rfl : ret = 0 := hret
    have hchain : Chain 0 (s2.pieces order') (max (s1.stop n) (max hi (s1.start n))) :=
      hwrite ▸ ((hpieces ▸ hc).fill.write (zero_le _) (le_max_right ..) hlt)
    have hnode : (s2.frag n).node = fn := by
      rw [hfrag]
      exact hr.node
    show Ends (if (0 : Int) ≠ 0 then _ else _) _
    rw [if_neg (not_not.mpr rfl)]
    apply Ends.bind (markPrev_spec hg2 hchain hmem hnode)
    rintro s3 ⟨hg3, hfrag3⟩
    apply Ends.bind (markNext_spec hg3 hmem (hfrag3 ▸ hnode))
    rintro s4 ⟨hg4, hfrag4⟩
    refine .ret (.inr (.inl ⟨hsize, rfl, order', hg4, ?_⟩))
    rw [pieces_congr (s := s2) fun q _ => by rw [hfrag4, hfrag3]]
    rw [← hpieces, ← hstop, ← hstart]
    exact hwrite
  · obtain rfl : ret = -ENOMEM := hret
    show Ends (if -ENOMEM ≠ 0 then _ else _) _
    rw [if_pos (by decide)]
    refine .ret (.inr (.inr (.inr
      ⟨hsize, rfl, hg2, hsame.trans hpieces, n, hanswer, ⟨hn0, hnal, hnlive⟩, ?_, ?_⟩)))
    · rw [← hstop, ← hstart]
      exact hwants.congr hframe
    · intro x hx hxfree
      by_contra hne
      exact hfree x hx ⟨hxfree.1, hxfree.2.1, (hother x hne).trans hxfree.2.2⟩

end SilanKernel.Jffs2
