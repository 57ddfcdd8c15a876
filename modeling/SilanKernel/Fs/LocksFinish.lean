import SilanKernel.Fs.LocksScan

/-!
# SilanKernel.Fs.LocksFinish

`__posix_lock_file` **after the loop**: the new lock is put into the list and the locks at the two
ends of its range are cut.
-/

namespace SilanKernel.Locks

open List Memory

variable {n : Inode} {A B P S pre lo mo rest Mc : List Cell} {mid g : List Lock} {all : List Ptr}
  {r k : Lock} {p rq newFl newFl2 request left : Ptr} {ra rb : Int} {s : Scan}

/-! ### The steps -/

/-- A copy of a lock, made outside of the list. -/
theorem locksCopyLock_spec (hh : Holds n cells) (hp0 : p ≠ 0) (h0 : newFl ≠ 0)
    (hnew : newFl ∉ ptrs cells) :
    Ends (locksCopyLock n newFl p) fun n' =>
      Holds n' cells ∧ (n'.mem newFl).toLock = (n.mem p).toLock ∧ ∀ z, z ≠ newFl →
        n'.mem z = n.mem z := by
  have hupdate := update_off hh h0 hnew fun g => { n.mem p with flNext := g.flNext }
  refine .bind_eq (load_eq hp0) (.mono hupdate fun n' ⟨hh', hmem, hframe⟩ => ⟨hh', ?_, hframe⟩)
  rw [hmem]

theorem insertNew_spec (hh : Holds s.inode (A ++ B)) (hbefore : s.before = slotAfter A)
    (hreq0 : s.request ≠ 0) (hreq : s.request ∉ ptrs (A ++ B))
    (hr : (s.inode.mem s.request).toLock = r) (h0 : newFl ≠ 0) (hnew : newFl ∉ ptrs (A ++ B))
    (hne : newFl ≠ s.request) :
    Ends (insertNew s newFl) fun n' =>
      Holds n' (A ++ (newFl, r) :: B) ∧ (n'.mem s.request).toLock = r := by
  refine .bind (locksCopyLock_spec hh hreq0 h0 hnew) fun n1 ⟨hh1, hmem1, hframe1⟩ => ?_
  rw [hbefore]
  have hk : (n1.mem newFl).toLock = r := hmem1.trans hr
  refine .mono (locksInsertLock_spec hh1 h0 hnew hk) fun n2 ⟨hh2, hframe2⟩ => ⟨hh2, ?_⟩
  rw [hframe2 s.request, hframe1 s.request (Ne.symm hne), hr]
  simp only [ptrs, map_append, map_cons, mem_append, mem_cons, not_or] at hreq ⊢
  exact ⟨hreq.1, Ne.symm hne, hreq.2⟩

theorem cutLeft_spec (hh : Holds n (A ++ lo ++ B)) (hone : lo.length ≤ 1)
    (hleft : left = headOr lo 0) (hreq0 : request ≠ 0) (hstart : (n.mem request).flStart = ra) :
    Ends (cutLeft n request left) fun n' =>
      Holds n' (A ++ lo.map (fun c => (c.1, cutEnd ra c.2)) ++ B) := by
  rw [cutLeft, hleft]
  rcases nil_or_singleton hone with rfl | ⟨c, rfl⟩
  · exact ⟨n, if_pos rfl, hh⟩
  rw [append_assoc, singleton_append] at hh
  obtain ⟨h0, -⟩ := hh.load (p := c.1) (k := c.2)
  refine .ite (fun hc => absurd hc h0) fun _ => .bind_eq (load_eq hreq0) ?_
  rw [hstart, map_singleton, append_assoc, singleton_append]
  exact .mono (update_spec hh (cutEnd ra c.2) fun _ => rfl) fun n' hn' => hn'.1

theorem cutOld_plain (hh : Holds n (A ++ lo ++ B)) (hone : lo.length ≤ 1)
    (hleft : s.left = headOr lo 0) (hright : s.right = 0) (hreq0 : s.request ≠ 0)
    (hstart : (n.mem s.request).flStart = ra) :
    Ends (cutOld n s newFl2) fun (n', ret) =>
      ret = 0 ∧ Holds n' (A ++ lo.map (fun c => (c.1, cutEnd ra c.2)) ++ B) := by
  rw [cutOld]
  refine .bind_eq (a := (n, s.left)) (if_pos hright) ?_
  exact .bind (cutLeft_spec hh hone hleft hreq0 hstart) fun n' hn' => .ret ⟨rfl, hn'⟩

theorem cutOld_right (hh : Holds n (A ++ lo ++ (Mc ++ (p, k) :: B))) (hone : lo.length ≤ 1)
    (hleft : s.left = headOr lo 0) (hright : s.right = p) (hreq0 : s.request ≠ 0)
    (hrp : s.request ≠ p) (hstart : (n.mem s.request).flStart = ra)
    (hend : (n.mem s.request).flEnd = rb) :
    Ends (cutOld n s newFl2) fun (n', ret) => ret = 0 ∧ Holds n'
      (A ++ lo.map (fun c => (c.1, cutEnd ra c.2)) ++ (Mc ++ (p, cutBegin rb k) :: B)) := by
  have hcells : ∀ x : Lock, A ++ lo ++ (Mc ++ (p, x) :: B) = (A ++ lo ++ Mc) ++ (p, x) :: B := by
    simp
  have hsplit := hh
  rw [hcells] at hsplit
  obtain ⟨hp0, -⟩ := hsplit.load
  have hlp : s.left ≠ s.right := by
    rw [hleft, hright]
    rcases nil_or_singleton hone with rfl | ⟨c, rfl⟩
    · exact Ne.symm hp0
    · rintro rfl
      exact hsplit.notMem.1 (by simp [headOr])
  have hcut : Ends (cutRight n s newFl2) fun r => r.2 = s.left ∧
      Holds r.1 ((A ++ lo ++ Mc) ++ (p, cutBegin rb k) :: B) ∧ ∀ z, z ≠ p →
      r.1.mem z = n.mem z := by
    rw [cutRight, hright]
    refine .ite (fun hc => absurd hc hp0) fun _ => .bind_eq (load_eq hreq0) ?_
    refine .ite (fun hc => absurd (hc.trans hright.symm) hlp) fun _ => ?_
    rw [hend]
    exact .bind (update_spec hsplit (cutBegin rb k) fun _ => rfl) fun n1 hn1 => .ret ⟨rfl, hn1⟩
  rw [cutOld]
  refine .bind hcut ?_
  rintro ⟨n1, left⟩ ⟨rfl, hh1, hframe1⟩
  rw [← hcells] at hh1
  have hstart1 : (n1.mem s.request).flStart = ra := by rw [hframe1 _ hrp, hstart]
  exact .bind (cutLeft_spec hh1 hone hleft hreq0 hstart1) fun n' hn' => .ret ⟨rfl, hn'⟩

theorem cutOld_split (hh : Holds n (A ++ (Mc ++ (p, k) :: B))) (hbefore : s.before = slotAfter A)
    (hleft : s.left = p) (hright : s.right = p) (hreq0 : s.request ≠ 0) (hrp : s.request ≠ p)
    (hstart : (n.mem s.request).flStart = ra) (hend : (n.mem s.request).flEnd = rb)
    (h0 : newFl2 ≠ 0) (hnew : newFl2 ∉ ptrs (A ++ (Mc ++ (p, k) :: B))) (hne : newFl2 ≠ s.request)
    (hreq : s.request ∉ ptrs (A ++ (Mc ++ (p, k) :: B))) :
    Ends (cutOld n s newFl2) fun (n', ret) => ret = 0 ∧
      Holds n' (A ++ [(newFl2, cutEnd ra k)] ++ (Mc ++ (p, cutBegin rb k) :: B)) := by
  have hcells : ∀ x : Lock, A ++ (Mc ++ (p, x) :: B) = (A ++ Mc) ++ (p, x) :: B := by simp
  have hsplit := hh
  rw [hcells] at hsplit
  obtain ⟨hp0, hpmem⟩ := hsplit.load
  have hcells' : ∀ x y : Lock, A ++ (newFl2, x) :: (Mc ++ (p, y) :: B) =
      (A ++ (newFl2, x) :: Mc) ++ (p, y) :: B := by simp
  have hcut : Ends (cutRight n s newFl2) fun r => r.2 = newFl2 ∧
      Holds r.1 (A ++ [(newFl2, k)] ++ (Mc ++ (p, cutBegin rb k) :: B)) ∧
        (r.1.mem s.request).flStart = ra := by
    rw [cutRight, hright, hleft]
    refine .ite (fun hc => absurd hc hp0) fun _ => .bind_eq (load_eq hreq0) ?_
    rw [if_pos rfl, hend]
    refine .bind (locksCopyLock_spec hh hp0 h0 hnew) ?_
    rintro n1 ⟨hh1, hmem1, hframe1⟩
    have hk : (n1.mem newFl2).toLock = k := by rw [hmem1, hpmem]
    rw [hbefore]
    refine .bind (locksInsertLock_spec hh1 h0 hnew hk) ?_
    rintro n2 ⟨hh2, hframe2⟩
    rw [hcells'] at hh2
    refine .bind (update_spec hh2 (cutBegin rb k) fun _ => rfl) ?_
    rintro n3 ⟨hh3, hframe3⟩
    refine .ret ⟨rfl, ?_, ?_⟩
    · rw [← hcells'] at hh3
      rwa [append_assoc, singleton_append]
    · rw [hframe3 _ hrp, hframe2, hframe1 _ (Ne.symm hne), hstart]
      simp only [ptrs, map_append, map_cons, mem_append, mem_cons, not_or] at hreq ⊢
      exact ⟨hreq.1, Ne.symm hne, hreq.2⟩
  rw [cutOld]
  refine .bind hcut ?_
  rintro ⟨n1, left⟩ ⟨rfl, hh1, hstart1⟩
  refine .bind (cutLeft_spec hh1 (by simp) rfl hreq0 hstart1) fun n' hn' => .ret ⟨rfl, hn'⟩

/-! ### The ways out of the loop -/

/-- The list `g` of the owner with the request put in. -/
def Recasted (r : Lock) (g g' : List Lock) : Prop :=
  ∃ ra rb pre X post L M R, Recast r.flType r.flStart r.flEnd ra rb pre X post L M R ∧
    g = pre ++ X ++ post ∧ g' = pre ++ L ++ M ++ R ++ post ∧
    ∀ k ∈ M, k.flPosix = true ∧ k.flOwner = r.flOwner

/-- Success with the request put in, or an error with the list as it was. -/
def Finished (r : Lock) (g : List Lock) (P S : List Cell) (res : Inode × Int) : Prop :=
  ∃ G, Holds res.1 (P ++ G ++ S) ∧ (res.2 = 0 ∧ Recasted r g (locks G) ∨ res.2 ≠ 0 ∧ locks G = g)

theorem newLock_one (hs : k.flStart = ra) (he : k.flEnd = rb) (ht : k.flType = r.flType)
    (hu : r.flType ≠ .unlck) : NewLock r.flType ra rb [k] := by
  refine ⟨fun l hl => ?_, by simp, by simpa using hu⟩
  obtain rfl := mem_singleton.mp hl
  exact ⟨hs, he, ht⟩

theorem newLock_none (hu : r.flType = .unlck) : NewLock r.flType ra rb [] :=
  ⟨nofun, by simp, by simpa using hu⟩

theorem Finished.of_recast {pre post : List Lock} {res : Inode × Int}
    (hrecast : Recast r.flType r.flStart r.flEnd ra rb pre X post L M R) (hg : g = pre ++ X ++ post)
    (hG : locks G = pre ++ L ++ M ++ R ++ post)
    (hM : ∀ k ∈ M, k.flPosix = true ∧ k.flOwner = r.flOwner) (hret : res.2 = 0)
    (hh : Holds res.1 (P ++ G ++ S)) : Finished r g P S res :=
  ⟨G, hh, .inl ⟨hret, ra, rb, pre, X, post, L, M, R, hrecast, hg, hG, hM⟩⟩

/-- What is still to be done once the loop is over: the new lock is in the list, there is none
because the request is to unlock, or there is none yet. The last field is the case that nothing of
the owner was in the range of an unlock. -/
structure Leaves (r : Lock) (rq : Ptr) (g : List Lock) (P S : List Cell) (s : Scan)
    (A mo B : List Cell) (ra rb : Int) : Prop where
  holds : Holds s.inode (A ++ mo ++ B)
  request0 : s.request ≠ 0
  start_eq : (s.inode.mem s.request).flStart = ra
  end_eq : (s.inode.mem s.request).flEnd = rb
  present : mo ≠ [] → s.added = true ∧ NewLock r.flType ra rb (locks mo) ∧
    ∀ k ∈ locks mo, k.flPosix = true ∧ k.flOwner = r.flOwner
  absent : mo = [] → s.before = slotAfter A ∧ s.request = rq ∧ (s.inode.mem rq).toLock = r ∧
    (s.added = true → r.flType = .unlck)
  kept : s.added = false → r.flType ≠ .unlck → ∃ G, A ++ B = P ++ G ++ S ∧ locks G = g
  idle : s.added = false → r.flType = .unlck → ∃ G, A ++ B = P ++ G ++ S ∧ locks G = g ∧
    Recasted r g g

/-- The part after the loop, from what the cuts at the ends do. -/
theorem Leaves.finish_spec (hl : Leaves r rq g P S s A mo B ra rb) (hout : rq ∉ ptrs (A ++ B))
    (hnew : newFl ≠ 0 → newFl ∉ ptrs (A ++ B) ∧ newFl ≠ rq)
    (hposix : r.flPosix = true) (henough : ¬(s.right ≠ 0 ∧ s.left = s.right ∧ newFl2 = 0))
    (hcut : ∀ n Mc, Mc = mo ∨ newFl ≠ 0 ∧ mo = [] ∧ Mc = [(newFl, r)] → Holds n (A ++ Mc ++ B) →
      NewLock r.flType ra rb (locks Mc) →
      (∀ k ∈ locks Mc, k.flPosix = true ∧ k.flOwner = r.flOwner) → (n.mem s.request).flStart = ra →
      (n.mem s.request).flEnd = rb → Ends (cutOld n s newFl2) (Finished r g P S)) :
    Ends (finish s newFl newFl2) (Finished r g P S) := by
  rw [finish, if_neg henough]
  by_cases hadded : s.added = true
  · rw [if_pos hadded]
    by_cases hmo : mo = []
    · have hu := (hl.absent hmo).2.2.2 hadded
      refine hcut s.inode mo (.inl rfl) hl.holds ?_ ?_ hl.start_eq hl.end_eq
      · rw [hmo]
        exact newLock_none hu
      · simp [hmo]
    · obtain ⟨-, hM, hown⟩ := hl.present hmo
      exact hcut s.inode mo (.inl rfl) hl.holds hM hown hl.start_eq hl.end_eq
  obtain rfl : mo = [] := by
    by_contra hmo
    exact hadded (hl.present hmo).1
  obtain ⟨hbefore, hreq, hmem, -⟩ := hl.absent rfl
  have hadded : s.added = false := Bool.not_eq_true _ ▸ hadded
  have hh : Holds s.inode (A ++ B) := by simpa using hl.holds
  rw [hadded, if_neg Bool.false_ne_true]
  refine .bind_eq (load_eq hl.request0) ?_
  rw [hreq, hmem]
  refine .ite (fun hu => .ret ?_) fun hu => ?_
  · -- Nothing of the owner is in the range: the list is as it should be.
    obtain ⟨G, hG, hg, hsame⟩ := hl.idle hadded hu
    rw [hG] at hh
    refine ⟨G, hh, ?_⟩
    by_cases hex : r.flExists = true
    · exact .inr ⟨by rw [if_pos hex]; exact (by decide : -ENOENT ≠ 0), hg⟩
    · exact .inl ⟨if_neg hex, hg ▸ hsame⟩
  obtain ⟨G, hG, hg⟩ := hl.kept hadded hu
  refine .ite (fun _ => .ret ⟨G, hG ▸ hh, .inr ⟨(by decide : -ENOLCK ≠ 0), hg⟩⟩) fun h0 => ?_
  obtain ⟨hfresh, hne⟩ := hnew h0
  have hins := insertNew_spec hh hbefore hl.request0 (hreq ▸ hout)
    (hreq ▸ hmem) h0 hfresh (hreq ▸ hne)
  refine .bind hins fun n1 ⟨hh1, hr1⟩ => ?_
  have hrange : (n1.mem s.request).flStart = ra ∧ (n1.mem s.request).flEnd = rb := by
    rw [← hl.start_eq, ← hl.end_eq, hreq, hmem, ← hreq, hr1]
    exact ⟨rfl, rfl⟩
  have hr : r.flStart = ra ∧ r.flEnd = rb := by
    rw [← hl.start_eq, ← hl.end_eq, hreq, hmem]
    exact ⟨rfl, rfl⟩
  refine hcut n1 [(newFl, r)] (.inr ⟨h0, rfl, rfl⟩) (by simpa using hh1)
    (newLock_one hr.1 hr.2 rfl hu) ?_ hrange.1 hrange.2
  intro k hk
  obtain rfl := mem_singleton.mp hk
  exact ⟨hposix, rfl⟩

/-- The invariant of the loop says where the new lock is. -/
theorem At.present (ha : At r rq g all P S s pre lo mo rest mid ra rb) (hmo : mo ≠ []) :
    s.added = true ∧ NewLock r.flType ra rb (locks mo) ∧
      ∀ k ∈ locks mo, k.flPosix = true ∧ k.flOwner = r.flOwner := by
  rcases ha.request_at with ⟨rfl, -⟩ | ⟨m, rfl, hs, he, ht, ho, hp, hadded, -, hu⟩
  · exact absurd rfl hmo
  · refine ⟨hadded, newLock_one hs he ht hu, fun k hk => ?_⟩
    obtain rfl := mem_singleton.mp hk
    exact ⟨hp, ho⟩

theorem At.absent (ha : At r rq g all P S s pre lo [] rest mid ra rb) :
    s.before = slotAfter (P ++ pre ++ lo) ∧ s.request = rq ∧ (s.inode.mem rq).toLock = r ∧
      (s.added = true ↔ r.flType = .unlck ∧ (lo ≠ [] ∨ mid ≠ [])) ∧
      (r.flType ≠ .unlck → mid = []) := by
  rcases ha.request_at with ⟨-, hreq, hmem, -, -, hadded, hmid⟩ | ⟨m, hmo, -⟩
  · exact ⟨by simpa using ha.before_eq, hreq, hmem, hadded, hmid⟩
  · exact absurd hmo (by simp)

variable (hrq : rq ≠ 0) (hout : rq ∉ all) (hposix : r.flPosix = true)
  (hnew : newFl ≠ 0 → newFl ∉ all ∧ newFl ≠ rq)

section

variable (ha : At r rq g all P S s pre lo mo rest mid ra rb)

include ha

/-- A request for a lock that has no lock yet: the list is as it was. -/
theorem At.kept (hadded : s.added = false) (hu : r.flType ≠ .unlck) : mo = [] ∧ mid = [] := by
  by_cases hmo : mo = []
  · subst hmo
    exact ⟨rfl, ha.absent.2.2.2.2 hu⟩
  · exact absurd (ha.present hmo).1 (by simp [hadded])

/-- The cells around the new lock are cells of the list. -/
theorem At.mem_all :
    ∀ z ∈ ptrs (P ++ pre ++ lo ++ (rest ++ S)), z ∈ all :=
  fun z hz => ha.sub z (by simp at hz ⊢; tauto)

include hrq hout hposix hnew in
theorem finish_plain
    (hrest : ∀ k ∈ locks rest, rb < k.flStart ∧ (k.flType = r.flType → rb + 1 < k.flStart)) :
    Ends (finish s newFl newFl2) (Finished r g P S) := by
  obtain ⟨hreq0, cur, hcur, -, -, hcs, hce⟩ := ha.request hrq
  have hone : lo.length ≤ 1 := by simpa using ha.pieces.cut_one
  have hsub := ha.mem_all
  have hleaves : Leaves r rq g P S s (P ++ pre ++ lo) mo (rest ++ S) ra rb := by
    refine ⟨ha.holds, hreq0, by rw [hcur, hcs], by rw [hcur, hce], ha.present, ?_, ?_, ?_⟩
    · rintro rfl
      obtain ⟨hbefore, hreq, hmem, hadded, -⟩ := ha.absent
      exact ⟨hbefore, hreq, hmem, fun h => (hadded.mp h).1⟩
    · intro hadded hu
      obtain ⟨-, rfl⟩ := ha.kept hadded hu
      exact ⟨pre ++ lo ++ rest, by simp, by simpa using ha.orig⟩
    intro hadded hu
    have hmo : mo = [] := by
      by_contra hmo
      exact absurd (ha.present hmo).1 (by simp [hadded])
    subst hmo
    have hnone := ha.absent.2.2.2.1
    rw [hadded] at hnone
    simp only [Bool.false_eq_true, hu, true_and, false_iff, not_or, not_not] at hnone
    obtain ⟨rfl, rfl⟩ := hnone
    have horig : locks (pre ++ rest) = g := by simpa using ha.orig
    refine ⟨pre ++ rest, by simp, horig, ra, rb, _, _, _, _, _, _,
      ha.pieces.recast (newLock_none hu) hrest, ?_, ?_, nofun⟩
    · rw [← horig]
      simp
    · rw [← horig]
      simp
  refine hleaves.finish_spec (fun h => hout (hsub rq h)) (fun h0 => ?_) hposix
    (fun hc => hc.1 ha.right_eq) fun n Mc _ hh hM hown hstart _ => ?_
  · exact ⟨fun h => (hnew h0).1 (hsub newFl h), (hnew h0).2⟩
  rw [append_assoc _ Mc] at hh
  refine .mono (cutOld_plain hh hone ha.left_eq ha.right_eq hreq0 hstart) ?_
  rintro ⟨n', ret⟩ ⟨hret, hn'⟩
  refine Finished.of_recast (ha.pieces.recast hM hrest) (by simpa using ha.orig.symm)
    (G := pre ++ lo.map (fun c => (c.1, cutEnd ra c.2)) ++ Mc ++ rest) (by simp) hown hret ?_
  simpa using hn'

end

section

variable (ha : At r rq g all P S s pre lo mo ((p, k) :: rest) mid ra rb)

include ha

/-- An exit at a lock that goes on behind the range: an unlock always has something to do. -/
theorem At.leaves_cut (hrq : rq ≠ 0) (hinode : s'.inode = s.inode)
    (hrequest : s'.request = s.request) (hbefore : s'.before = s.before)
    (hadded : s'.added = (s.added || decide (r.flType = .unlck))) :
    Leaves r rq g P S s' (P ++ pre ++ lo) mo ((p, k) :: rest ++ S) ra rb := by
  obtain ⟨hreq0, cur, hcur, -, -, hcs, hce⟩ := ha.request hrq
  refine ⟨hinode ▸ ha.holds, hrequest ▸ hreq0, ?_, ?_, ?_, ?_, ?_, ?_⟩
  · rw [hinode, hrequest, hcur, hcs]
  · rw [hinode, hrequest, hcur, hce]
  · intro hmo
    obtain ⟨h, hM⟩ := ha.present hmo
    exact ⟨by rw [hadded, h, Bool.true_or], hM⟩
  · rintro rfl
    obtain ⟨hb, hreq, hmem, hadd, -⟩ := ha.absent
    refine ⟨hbefore.trans hb, hrequest.trans hreq, hinode ▸ hmem, fun h => ?_⟩
    rw [hadded, Bool.or_eq_true, decide_eq_true_eq] at h
    exact h.elim (fun h => (hadd.mp h).1) id
  · intro hfalse hu
    rw [hadded, Bool.or_eq_false_iff] at hfalse
    obtain ⟨-, rfl⟩ := ha.kept hfalse.1 hu
    exact ⟨pre ++ lo ++ (p, k) :: rest, by simp, by simpa using ha.orig⟩
  · intro hfalse hu
    simp [hadded, hu] at hfalse

/-- The new lock is not the lock at the right end. -/
theorem At.request_ne (hout : rq ∉ all) : s.request ≠ p := by
  rintro rfl
  rcases ha.request_at with ⟨rfl, hreq, -⟩ | ⟨m, rfl, -⟩
  · exact hout (ha.sub rq (by simp [hreq]))
  · have hnodup := ha.holds.nodup
    simp [nodup_append] at hnodup

/-- The lock at the right end is not the one at the left end. -/
theorem At.left_ne : s.left ≠ p := by
  have hh := ha.holds
  have hleft := ha.left_eq
  rw [cons_append] at hh
  rcases lo with - | ⟨c, lo⟩
  · exact fun hc => hh.load.1 (hc.symm.trans hleft)
  · intro hc
    have hmem : p ∈ ptrs (P ++ pre ++ c :: lo ++ mo) := by simp [← hc, hleft, headOr]
    exact hh.notMem.1 hmem

include hrq hout hposix hnew in
theorem finish_right (ht : k.flType ≠ r.flType) (hs : ra ≤ k.flStart) (hs' : k.flStart ≤ rb)
    (he : rb < k.flEnd) :
    Ends (finish { s with added := s.added || decide (r.flType = .unlck), right := p } newFl newFl2)
      (Finished r g P S) := by
  obtain ⟨hreq0, -⟩ := ha.request hrq
  have hone : lo.length ≤ 1 := by simpa using ha.pieces.cut_one
  have hsub := ha.mem_all
  have hleaves : Leaves r rq g P S
      { s with added := s.added || decide (r.flType = .unlck), right := p } (P ++ pre ++ lo) mo
      ((p, k) :: rest ++ S) ra rb := ha.leaves_cut hrq rfl rfl rfl rfl
  have hpieces : Pieces r (locks pre) (locks lo) mid (k :: locks rest) ra rb := by
    simpa using ha.pieces
  refine hleaves.finish_spec (fun h => hout (hsub rq h)) (fun h0 => ?_) hposix
    (fun hc => ha.left_ne hc.2.1) fun n Mc _ hh hM hown hstart hend => ?_
  · exact ⟨fun h => (hnew h0).1 (hsub newFl h), (hnew h0).2⟩
  rw [append_assoc _ Mc, cons_append] at hh
  refine .mono (cutOld_right hh hone ha.left_eq rfl hreq0 (ha.request_ne hout) hstart hend) ?_
  rintro ⟨n', ret⟩ ⟨hret, hn'⟩
  refine Finished.of_recast (hpieces.recast_right hM ht hs hs' he) (by simpa using ha.orig.symm)
    (G := pre ++ lo.map (fun c => (c.1, cutEnd ra c.2)) ++ Mc ++ (p, cutBegin rb k) :: rest)
    (by simp) hown hret ?_
  simpa using hn'

end

include hrq hout hposix hnew

theorem finish_split (ha : At r rq g all P S s pre [] [] ((p, k) :: rest) [] ra rb)
    (ht : k.flType ≠ r.flType) (hs : k.flStart < ra) (he : rb < k.flEnd)
    (hnew2 : newFl2 ≠ 0 → newFl2 ∉ all ∧ newFl2 ≠ rq) (hne : newFl ≠ 0 → newFl2 ≠ newFl) :
    Ends (finish { s with added := s.added || decide (r.flType = .unlck), left := p, right := p }
      newFl newFl2) (Finished r g P S) := by
  obtain ⟨hreq0, -⟩ := ha.request hrq
  have hsub := ha.mem_all
  by_cases h2 : newFl2 = 0
  · -- No structure for the second half: nothing is done.
    have hp0 : p ≠ 0 := by
      have hh := ha.holds
      rw [cons_append] at hh
      exact hh.load.1
    rw [finish, if_pos ⟨hp0, rfl, h2⟩]
    refine .ret ⟨pre ++ (p, k) ::
      rest, by simpa using ha.holds, .inr ⟨(by decide : -ENOLCK ≠ 0), ?_⟩⟩
    simpa using ha.orig
  obtain ⟨hbefore, hreq, -⟩ := ha.absent
  have hleaves : Leaves r rq g P S
      { s with added := s.added || decide (r.flType = .unlck), left := p, right := p }
      (P ++ pre ++ []) [] ((p, k) :: rest ++ S) ra rb := ha.leaves_cut hrq rfl rfl rfl rfl
  have hpieces : Pieces r (locks pre) [] [] (k :: locks rest) ra rb := by simpa using ha.pieces
  refine hleaves.finish_spec (fun h => hout (hsub rq h)) (fun h0 => ?_) hposix
    (fun hc => h2 hc.2.2) fun n Mc hMc hh hM hown hstart hend => ?_
  · exact ⟨fun h => (hnew h0).1 (hsub newFl h), (hnew h0).2⟩
  rw [append_nil, append_assoc _ Mc, cons_append] at hh
  have hcells : ∀ z, (newFl ≠ 0 → z ≠ newFl) → z ∉ all →
      z ∉ ptrs (P ++ pre ++ (Mc ++ (p, k) :: (rest ++ S))) := by
    intro z hz hall hmem
    have hz' : z ∉ ptrs Mc := by
      rcases hMc with rfl | ⟨h0, -, rfl⟩
      · simp
      · simpa using hz h0
    refine hall (hsub z ?_)
    simp only [ptrs, map_append, mem_append] at hmem hz' ⊢
    rcases hmem with h | h | h
    · exact .inl (.inl h)
    · exact absurd h hz'
    · exact .inr (by simpa [or_assoc] using h)
  refine .mono (cutOld_split hh (by simpa using hbefore) rfl rfl hreq0 (ha.request_ne hout)
    hstart hend h2 (hcells newFl2 hne (hnew2 h2).1) (hreq ▸ (hnew2 h2).2)
    (hcells s.request ?_ (hreq ▸ hout))) ?_
  · exact fun h0 => hreq ▸ Ne.symm (hnew h0).2
  · rintro ⟨n', ret⟩ ⟨hret, hn'⟩
    refine Finished.of_recast (hpieces.recast_split hM ht hs he) (by simpa using ha.orig.symm)
      (G := pre ++ (newFl2, cutEnd ra k) :: (Mc ++ (p, cutBegin rb k) :: rest))
      (by simp) hown hret ?_
    simpa using hn'

/-- The part of `__posix_lock_file` after the loop. -/
theorem finish_spec (hexit : Exit r rq g all P S s)
    (hnew2 : newFl2 ≠ 0 → newFl2 ∉ all ∧ newFl2 ≠ rq) (hne : newFl ≠ 0 → newFl2 ≠ newFl) :
    Ends (finish s newFl newFl2) (Finished r g P S) := by
  cases hexit with
  | plain ha hrest => exact finish_plain hrq hout hposix hnew ha hrest
  | right ha ht hs hs' he => exact finish_right hrq hout hposix hnew ha ht hs hs' he
  | split ha ht hs he => exact finish_split hrq hout hposix hnew ha ht hs he hnew2 hne

end SilanKernel.Locks
