import SilanKernel.Fs.LocksFinish

/-!
# SilanKernel.Fs.LocksSound

**Correctness of `__posix_lock_file`**: it keeps the list of locks of an inode well formed, and it
changes the type of the lock an owner has at an offset exactly as the request says.
-/

namespace SilanKernel.Locks

open List Memory

/-! ### Well-formed lists -/

/-- The POSIX locks are behind the other locks, and those of one owner follow each other. -/
def Contiguous (l : List Lock) : Prop :=
  ∃ (others : List Lock) (groups : List (List Lock)), l = others ++ groups.flatten ∧
    (∀ k ∈ others, k.flPosix = false) ∧
    (∀ g ∈ groups, ∃ o, ∀ k ∈ g, k.flPosix = true ∧ k.flOwner = o) ∧
    groups.Pairwise fun g g' => ∀ k ∈ g, ∀ k' ∈ g', k.flOwner ≠ k'.flOwner

structure WellFormed (l : List Lock) : Prop where
  contiguous : Contiguous l
  valid : ∀ k ∈ l, k.flPosix = true → Valid k
  /-- The locks of one owner are sorted and disjoint, and two of one type do not touch. -/
  sorted : l.Pairwise fun k k' =>
    k.flPosix = true → k'.flPosix = true → k.flOwner = k'.flOwner → Before k k'
  /-- No offset has a write lock and a lock of another owner. -/
  shared : ∀ k ∈ l, ∀ k' ∈ l, k.flPosix = true → k'.flPosix = true → k.flOwner ≠ k'.flOwner →
    ∀ x, k.flStart ≤ x → x ≤ k.flEnd → k'.flStart ≤ x → x ≤ k'.flEnd →
      k.flType ≠ .wrlck ∧ k'.flType ≠ .wrlck

/-- `k` is a POSIX lock of the owner `o` on the offset `x`. -/
def covers (o : Ptr) (x : Int) (k : Lock) : Bool :=
  k.flPosix && (k.flOwner == o) && decide (k.flStart ≤ x ∧ x ≤ k.flEnd)

/-- The type of lock that the owner `o` has on the offset `x`. -/
def lockAt (l : List Lock) (o : Ptr) (x : Int) : LockType :=
  match l.find? (covers o x) with
  | some k => k.flType
  | none => .unlck

variable {n : Inode} {l P G G' S : List Lock} {o : Ptr} {x : Int} {t : LockType} {r : Lock}

/-! ### One owner -/

/-- The list around the locks of the owner `o`. -/
structure Around (o : Ptr) (P G S : List Lock) : Prop where
  before : ∀ k ∈ P, k.flPosix = true → k.flOwner ≠ o
  own : ∀ k ∈ G, k.flPosix = true ∧ k.flOwner = o
  after : ∀ k ∈ S, k.flPosix = true ∧ k.flOwner ≠ o
  first : G = [] → S = []

theorem Contiguous.around (hl : Contiguous l) (o : Ptr) :
    ∃ P G S, l = P ++ G ++ S ∧ Around o P G S ∧
      ∀ G', (∀ k ∈ G', k.flPosix = true ∧ k.flOwner = o) → Contiguous (P ++ G' ++ S) := by
  obtain ⟨others, groups, rfl, hothers, howner, hapart⟩ := hl
  have hsymm : ∀ {g1 g2 : List Lock}, (∀ k1 ∈ g1, ∀ k2 ∈ g2, k1.flOwner ≠ k2.flOwner) →
      ∀ k1 ∈ g2, ∀ k2 ∈ g1, k1.flOwner ≠ k2.flOwner := fun h k1 hk1 k2 hk2 =>
      Ne.symm (h k2 hk2 k1 hk1)
  -- the locks of the owner, of which there may be none, and the other groups
  obtain ⟨ga, g, gb, hflat, hsub, hnil, hgo, hother⟩ : ∃ ga g gb,
      groups.flatten = ga.flatten ++ g ++ gb.flatten ∧ (ga ++ gb).Sublist groups ∧
      (g = [] → gb = []) ∧
      (∀ k ∈ g, k.flPosix = true ∧ k.flOwner = o) ∧ ∀ g' ∈ ga ++ gb, ∀ k ∈ g', k.flOwner ≠ o := by
    by_cases hex : ∃ g ∈ groups, ∃ k ∈ g, k.flOwner = o
    · obtain ⟨g, hg, k, hk, hko⟩ := hex
      obtain ⟨ga, gb, rfl⟩ := append_of_mem hg
      rw [pairwise_middle hsymm, pairwise_cons] at hapart
      refine ⟨ga, g, gb, by simp, (sublist_cons_self g gb).append_left ga,
        fun h => absurd hk (by simp [h]), ?_, ?_⟩
      · intro k' hk'
        obtain ⟨o', ho'⟩ := howner g hg
        exact ⟨(ho' k' hk').1, by rw [(ho' k' hk').2, ← (ho' k hk).2, hko]⟩
      · exact fun g' hg' k' hk' => hko ▸ Ne.symm (hapart.1 g' hg' k hk k' hk')
    · push Not at hex
      exact ⟨groups, [], [], by simp, by simp, fun _ => rfl, nofun, by simpa using hex⟩
  refine ⟨others ++ ga.flatten, g,
    gb.flatten, by
    simp [hflat], ⟨fun k hk hp => ?_, hgo, fun k hk => ?_, fun h => ?_⟩, fun G' hG' =>
      ⟨others, ga ++ G' :: gb, by simp, hothers, fun g' hg' => ?_, ?_⟩⟩
  · rcases mem_append.mp hk with hk | hk
    · exact absurd hp (by simp [hothers k hk])
    · obtain ⟨g', hg', hk⟩ := mem_flatten.mp hk
      exact hother g' (mem_append_left _ hg') k hk
  · obtain ⟨g', hg', hk⟩ := mem_flatten.mp hk
    replace hg' := mem_append_right ga hg'
    obtain ⟨o', ho'⟩ := howner g' (hsub.subset hg')
    exact ⟨(ho' k hk).1, hother g' hg' k hk⟩
  · rw [hnil h]
    rfl
  · rcases mem_cons.mp (perm_middle.mem_iff.mp hg') with rfl | hg'
    · exact ⟨o, hG'⟩
    · exact howner g' (hsub.subset hg')
  · rw [pairwise_middle hsymm, pairwise_cons]
    refine ⟨fun g' hg' k1 hk1 k2 hk2 => ?_, hapart.sublist hsub⟩
    rw [(hG' k1 hk1).2]
    exact Ne.symm (hother g' hg' k2 hk2)

/-! ### The map of an owner -/

@[simp] theorem covers_iff :
    covers o x k = true ↔ k.flPosix = true ∧ k.flOwner = o ∧ k.flStart ≤ x ∧ x ≤ k.flEnd := by
  simp [covers, and_assoc]

theorem find?_covers_none (hl : ∀ k ∈ l, k.flPosix = true → k.flOwner ≠ o) :
    l.find? (covers o x) = none := by
  rw [find?_eq_none]
  intro k hk hc
  rw [covers_iff] at hc
  exact hl k hk hc.1 hc.2.1

/-- The locks of another owner do not matter. -/
theorem lockAt_other (hG : ∀ k ∈ G, k.flPosix = true ∧ k.flOwner = o) (hne : o' ≠ o) :
    lockAt (P ++ G ++ S) o' x = lockAt (P ++ S) o' x := by
  have hnone : G.find? (covers o' x) = none := find?_covers_none fun k hk _ =>
    (hG k hk).2 ▸ Ne.symm hne
  rw [lockAt, lockAt, find?_append, find?_append, find?_append, hnone, Option.or_none]

theorem lockAt_around (ha : Around o P G S) (G' : List Lock) : lockAt (P ++ G' ++ S) o x =
    lockAt G' o x := by
  rw [lockAt, lockAt, find?_append, find?_append, find?_covers_none ha.before,
    find?_covers_none fun k hk _ => (ha.after k hk).2, Option.none_or, Option.or_none]

theorem lockAt_of_held (hG : ∀ k ∈ G, k.flPosix = true ∧ k.flOwner = o)
    (hsorted : G.Pairwise Before) (hheld : Held G x t) : lockAt G o x = t := by
  obtain ⟨k, hk, hs, he, ht⟩ := hheld
  rw [lockAt]
  split
  next k' hk' =>
    have hprop := covers_iff.mp (find?_some hk')
    exact Held.unique hsorted ⟨k', mem_of_find?_eq_some hk', hprop.2.2.1, hprop.2.2.2, rfl⟩
      ⟨k, hk, hs, he, ht⟩
  next hnone =>
    rw [find?_eq_none] at hnone
    exact absurd (covers_iff.mpr ⟨(hG k hk).1, (hG k hk).2, hs, he⟩) (hnone k hk)

theorem lockAt_of_not_held (hnot : ∀ t, ¬ Held G x t) : lockAt G o x = .unlck := by
  rw [lockAt]
  split
  next k' hk' =>
    have hprop := covers_iff.mp (find?_some hk')
    exact absurd ⟨k', mem_of_find?_eq_some hk', hprop.2.2.1, hprop.2.2.2, rfl⟩ (hnot k'.flType)
  next => rfl

/-- The map of the owner with the request put in. -/
theorem lockAt_recasted (hrec : Recasted r G G')
    (hG : ∀ k ∈ G, k.flPosix = true ∧ k.flOwner = r.flOwner)
    (hG' : ∀ k ∈ G', k.flPosix = true ∧ k.flOwner = r.flOwner) (hsorted : G.Pairwise Before)
    (hsorted' : G'.Pairwise Before) (hvalid : ∀ k ∈ G, Valid k) :
    lockAt G' r.flOwner x =
      if r.flStart ≤ x ∧ x ≤ r.flEnd then r.flType else lockAt G r.flOwner x := by
  obtain ⟨ra, rb, pre, X, post, L, M, R, hr, rfl, rfl, -⟩ := hrec
  have hheld : ∀ t, _ := fun t => hr.held (x := x) (t := t) hsorted hvalid
  by_cases hx : r.flStart ≤ x ∧ x ≤ r.flEnd
  · simp only [if_pos hx] at hheld ⊢
    by_cases hu : r.flType = .unlck
    · rw [hu]
      exact lockAt_of_not_held fun t ht => ((hheld t).mp ht).2 hu
    · exact lockAt_of_held hG' hsorted' ((hheld _).mpr ⟨rfl, hu⟩)
  · simp only [if_neg hx] at hheld ⊢
    by_cases hex : ∃ t, Held (pre ++ X ++ post) x t
    · obtain ⟨t, ht⟩ := hex
      rw [lockAt_of_held hG hsorted ht, lockAt_of_held hG' hsorted' ((hheld t).mpr ht)]
    · rw [lockAt_of_not_held fun t ht => hex ⟨t, ht⟩,
        lockAt_of_not_held fun t ht => hex ⟨t, (hheld t).mp ht⟩]

/-! ### The whole list -/

theorem WellFormed.own_sorted (hw : WellFormed (P ++ G ++ S))
    (hG : ∀ k ∈ G, k.flPosix = true ∧ k.flOwner = o) : G.Pairwise Before := by
  have hs := (pairwise_append.mp (pairwise_append.mp hw.sorted).1).2.1
  refine hs.imp_of_mem fun {k k'} hk hk' h => h (hG k hk).1 (hG k' hk').1 ?_
  rw [(hG k hk).2, (hG k' hk').2]

/-- A list in which the locks of one owner are others: they have to be in order, and on each offset
they have no lock that another owner's lock stands against. -/
theorem WellFormed.replace (hw : WellFormed (P ++ G ++ S)) (ha : Around o P G S)
    (hcont : Contiguous (P ++ G' ++ S)) (hG' : ∀ k ∈ G', Valid k ∧ k.flOwner = o)
    (hsorted : G'.Pairwise Before)
    (hshared : ∀ k ∈ P ++ S, k.flPosix = true → ∀ x t, k.flStart ≤ x → x ≤ k.flEnd → Held G' x t →
      k.flType ≠ .wrlck ∧ t ≠ .wrlck) : WellFormed (P ++ G' ++ S) := by
  have hmem : ∀ {k}, k ∈ P ++ G' ++ S → k ∈ G' ∨ k ∈ P ++ S := fun hk => by
    simp only [mem_append] at hk ⊢
    tauto
  have hold : ∀ {k}, k ∈ P ++ S → k ∈ P ++ G ++ S := fun hk => by
    simp only [mem_append] at hk ⊢
    tauto
  refine ⟨hcont, fun k hk hp => ?_, ?_, fun k hk k' hk' hp hp' hne x hs he hs' he' => ?_⟩
  · exact (hmem hk).elim (fun h => (hG' k h).1) fun h => hw.valid k (hold h) hp
  · have hs := hw.sorted
    simp only [pairwise_append, mem_append] at hs ⊢
    obtain ⟨⟨hP, -, -⟩, hS, hPS⟩ := hs
    refine ⟨⟨hP, hsorted.imp fun h _ _ _ => h, fun k hk k' hk' hp _ ho => ?_⟩, hS,
      fun k hk k' hk' hp _ ho => ?_⟩
    · exact absurd (ho.trans (hG' k' hk').2) (ha.before k hk hp)
    · rcases hk with hk | hk
      · exact hPS k (.inl hk) k' hk' hp (ha.after k' hk').1 ho
      · exact absurd (ho.symm.trans (hG' k hk).2) (ha.after k' hk').2
  · rcases hmem hk with h | h <;> rcases hmem hk' with h' | h'
    · exact absurd ((hG' k h).2.trans (hG' k' h').2.symm) hne
    · exact (hshared k' h' hp' x k.flType hs' he' ⟨k, h, hs, he, rfl⟩).symm
    · exact hshared k h hp x k'.flType hs he ⟨k', h', hs', he', rfl⟩
    · exact hw.shared k (hold h) k' (hold h') hp hp' hne x hs he hs' he'

/-- The request is put into the list: what the search for a conflict has found out keeps offsets
from being locked against each other. -/
theorem WellFormed.recasted (hw : WellFormed (P ++ G ++ S)) (ha : Around r.flOwner P G S)
    (hcont : ∀ G', (∀ k ∈ G', k.flPosix = true ∧ k.flOwner = r.flOwner) → Contiguous (P ++ G' ++ S))
    (hrec : Recasted r G G') (hstart : 0 ≤ r.flStart) (hend : r.flEnd ≤ OFFSET_MAX)
    (hfree : r.flType ≠ .unlck → ∀ k ∈ P ++ G ++ S, k.flPosix = true →
      posixLocksConflict r k = false) :
    WellFormed (P ++ G' ++ S) ∧ ∀ o x, lockAt (P ++ G' ++ S) o x =
      if o = r.flOwner ∧ r.flStart ≤ x ∧ x ≤ r.flEnd then r.flType
      else lockAt (P ++ G ++ S) o x := by
  have hsorted := hw.own_sorted ha.own
  have hvalid : ∀ k ∈ G, Valid k := fun k hk => hw.valid k (by simp [hk]) (ha.own k hk).1
  have hnew : (∀ k ∈ G', Valid k ∧ k.flOwner = r.flOwner) ∧ G'.Pairwise Before ∧ ∀ x t,
      Held G' x t ↔ if r.flStart ≤ x ∧ x ≤ r.flEnd then t = r.flType ∧ r.flType ≠ .unlck else
      Held G x t := by
    obtain ⟨ra, rb, pre, X, post, L, M, R, hr, rfl, rfl, hM⟩ := hrec
    exact ⟨hr.valid (fun k hk => ⟨hvalid k hk, (ha.own k hk).2⟩) hstart hend hM,
      hr.pairwise hsorted, fun x t => hr.held hsorted hvalid⟩
  obtain ⟨hvalid', hsorted', hheld⟩ := hnew
  have hown' : ∀ k ∈ G', k.flPosix = true ∧ k.flOwner = r.flOwner := fun k hk =>
    ⟨(hvalid' k hk).1.2.2.2.2, (hvalid' k hk).2⟩
  refine ⟨hw.replace ha (hcont G' hown') hvalid' hsorted' fun k hk hp x t hs he ht => ?_,
    fun o x => ?_⟩
  · have hne : k.flOwner ≠ r.flOwner := (mem_append.mp hk).elim (fun h => ha.before k h hp)
      fun h => (ha.after k h).2
    have hk' : k ∈ P ++ G ++ S := by
      simp only [mem_append] at hk ⊢
      tauto
    rw [hheld x t] at ht
    split at ht
    next hx =>
      obtain ⟨rfl, hu⟩ := ht
      have hc := hfree hu k hk' hp
      have hoverlap : locksOverlap r k = true := by
        simp only [locksOverlap, ge_iff_le, Bool.and_eq_true, decide_eq_true_eq]
        omega
      simpa [posixLocksConflict, hp, posixSameOwner, Ne.symm hne, hoverlap, locksConflict] using hc
    next =>
      obtain ⟨l, hl, hls, hle, rfl⟩ := ht
      refine hw.shared k hk' l (by simp [hl]) hp (ha.own l hl).1 ?_ x hs he hls hle
      rwa [(ha.own l hl).2]
  · by_cases ho : o = r.flOwner
    · subst ho
      rw [lockAt_around ha, lockAt_around ha, lockAt_recasted hrec ha.own hown' hsorted
        hsorted' hvalid]
      simp
    · rw [lockAt_other hown' ho, if_neg fun h => ho h.1, lockAt_other ha.own ho]

/-! ### The call -/

variable {cells Pc Gc Sc : List Cell} {rq newFl newFl2 : Ptr}

/-- The loop begins at the locks of the owner, with nothing behind it. -/
theorem At.start (hh : Holds n (Pc ++ Gc ++ Sc)) (hr : (n.mem rq).toLock = r)
    (hrange : r.flStart ≤ r.flEnd) (hsorted : (locks Gc).Pairwise Before)
    (hown : ∀ k ∈ locks Gc, Valid k ∧ k.flOwner = r.flOwner) :
    At r rq (locks Gc) (ptrs (Pc ++ Gc ++ Sc)) Pc Sc (Scan.start n rq (slotAfter Pc)) [] [] [] Gc []
      r.flStart r.flEnd where
  holds := by simpa [Scan.start] using hh
  before_eq := by simp [Scan.start]
  left_eq := rfl
  right_eq := rfl
  pieces :=
    { order := by simpa using hsorted
      valid := fun k hk => (hown k (by simpa using hk)).1.2.1
      range := ⟨le_refl _, hrange, le_refl _⟩
      pre_before := nofun
      cut := nofun
      cut_one := by simp
      inside := nofun
      melted := fun x hs he hx => absurd ⟨hs, he⟩ hx }
  owner c hc := by
    obtain ⟨hv, ho⟩ := hown c.2 (mem_map_of_mem hc)
    exact ⟨ho, hv.2.2.2.1, hv.2.2.2.2⟩
  request_at := .inl ⟨rfl, rfl, hr, rfl, rfl, by simp [Scan.start], fun _ => rfl⟩
  sub z hz := by simpa using hz
  orig := by simp

theorem scan_spec (hh : Holds n (Pc ++ Gc ++ Sc)) (hw : WellFormed (locks (Pc ++ Gc ++ Sc)))
    (ha : Around r.flOwner (locks Pc) (locks Gc) (locks Sc)) (hrq : rq ≠ 0)
    (hout : rq ∉ ptrs (Pc ++ Gc ++ Sc)) (hr : (n.mem rq).toLock = r) (hposix : r.flPosix = true)
    (hrange : r.flStart ≤ r.flEnd) (hnew : newFl ≠ 0 → newFl ∉ ptrs (Pc ++ Gc ++ Sc) ∧ newFl ≠ rq)
    (hnew2 : newFl2 ≠ 0 → newFl2 ∉ ptrs (Pc ++ Gc ++ Sc) ∧ newFl2 ≠ rq)
    (hne : newFl ≠ 0 → newFl2 ≠ newFl) :
    Ends ((skipOthers loopBound n r .head).bind fun before =>
        (ownerLoop loopBound (Scan.start n rq before)).bind fun s => finish s newFl newFl2)
      (Finished r (locks Gc) Pc Sc) := by
  have hlength := hh.length_lt
  simp only [length_append] at hlength
  have hall : Holds n ([] ++ Pc ++ (Gc ++ Sc)) := by simpa using hh
  have hskip : skipOthers loopBound n r .head = some (slotAfter Pc) := by
    refine skipOthers_spec hall (ha.before) (fun c hc => ?_) (by omega)
    rcases Gc with - | ⟨d, Gc⟩
    · obtain rfl := map_eq_nil_iff.mp (ha.first rfl)
      exact absurd hc (by simp)
    · obtain rfl : d = c := by simpa using hc
      exact ha.own d.2 (by simp)
  have hlocks : locks (Pc ++ Gc ++ Sc) = locks Pc ++ locks Gc ++ locks Sc := by simp
  rw [hlocks] at hw
  have hstart := At.start hh hr hrange (hw.own_sorted ha.own) fun k hk =>
    ⟨hw.valid k (by simp only [mem_append]; tauto) (ha.own k hk).1, (ha.own k hk).2⟩
  have hS : ∀ c ∈ Sc.head?, c.2.flOwner ≠ r.flOwner := fun c hc =>
    (ha.after c.2 (mem_map_of_mem (mem_of_mem_head? hc))).2
  refine .bind_eq hskip (.bind (ownerLoop_spec hrq hout hS hstart (by omega)) fun s hs => ?_)
  exact finish_spec hrq hout hposix hnew hs hnew2 hne

/-- **`__posix_lock_file` is correct.** The list stays well formed; a call that returns 0 without
`FL_ACCESS` gives the owner the requested type in the range and changes nothing else, and any other
call changes no lock. -/
theorem posixLockFile_spec (hh : Holds n cells) (hw : WellFormed (locks cells)) (hrq : rq ≠ 0)
    (hout : rq ∉ ptrs cells) (hr : (n.mem rq).toLock = r) (hposix : r.flPosix = true)
    (hrange : 0 ≤ r.flStart ∧ r.flStart ≤ r.flEnd ∧ r.flEnd ≤ OFFSET_MAX)
    (hnew : newFl ≠ 0 → newFl ∉ ptrs cells ∧ newFl ≠ rq)
    (hnew2 : newFl2 ≠ 0 → newFl2 ∉ ptrs cells ∧ newFl2 ≠ rq) (hne : newFl ≠ 0 → newFl2 ≠ newFl)
    (deadlock : Bool) :
    Ends (posixLockFile n rq newFl newFl2 deadlock) fun (n', ret) =>
      ∃ cells', Holds n' cells' ∧ WellFormed (locks cells') ∧ ∀ o x, lockAt (locks cells') o x =
        if ret = 0 ∧ r.flAccess = false ∧ o = r.flOwner ∧ r.flStart ≤ x ∧ x ≤ r.flEnd then r.flType
        else lockAt (locks cells) o x := by
  rw [posixLockFile]
  refine .bind_eq (load_eq hrq) ?_
  rw [hr]
  have hconflict : Ends (if r.flType = .unlck then some 0 else
      findConflict loopBound n r n.iFlock) fun p =>
      p = 0 → r.flType ≠ .unlck → ∀ k ∈ locks cells, k.flPosix = true →
        posixLocksConflict r k = false := by
    refine .ite (fun hu => .ret fun _ h => absurd hu h) fun _ => ?_
    rw [hh.first]
    have hlength := hh.length_lt
    exact .mono (findConflict_spec hh.seg (by omega)) fun p hp h0 _ => hp h0
  refine .bind hconflict fun fl hfl => ?_
  refine .ite (fun _ => .ret ?_) fun h0 => .ite (fun hacc => .ret ?_) fun hacc => ?_
  · have hret : (if (!r.flSleep) = true then -EAGAIN else if deadlock = true then -EDEADLK
        else FILE_LOCK_DEFERRED) ≠ 0 := by
      split
      · decide
      · split <;> decide
    exact ⟨cells, hh, hw, fun o x => (if_neg fun h => hret h.1).symm⟩
  · refine ⟨cells, hh, hw, fun o x => (if_neg fun h => ?_).symm⟩
    exact absurd hacc (by simp [h.2.1])
  obtain ⟨P, G, S, hsplit, ha, hcont⟩ := hw.contiguous.around r.flOwner
  obtain ⟨PG, Sc, rfl, hPG, rfl⟩ := map_eq_append_iff.mp hsplit
  obtain ⟨Pc, Gc, rfl, rfl, rfl⟩ := map_eq_append_iff.mp hPG
  have hfree := hfl (by simpa using h0)
  refine .mono (scan_spec hh hw ha hrq hout hr hposix hrange.2.1 ?_ ?_ ?_) ?_
  · intro h
    split at h
    next hal => rw [if_pos hal]; exact hnew h
    next => exact absurd rfl h
  · intro h
    split at h
    next hal => rw [if_pos hal]; exact hnew2 h
    next => exact absurd rfl h
  · intro h
    split at h
    next hal => rw [if_pos hal, if_pos hal]; exact hne h
    next => exact absurd rfl h
  · rintro ⟨n', ret⟩ ⟨Gc', hh', hcase⟩
    refine ⟨Pc ++ Gc' ++ Sc, hh', ?_⟩
    have hlocks : ∀ G, locks (Pc ++ G ++ Sc) = locks Pc ++ locks G ++ locks Sc := by simp
    rw [hlocks] at hw hfree
    simp only [hlocks]
    rcases hcase with ⟨hret, hrec⟩ | ⟨hret, hsame⟩
    · obtain ⟨hw', hmap⟩ := hw.recasted ha hcont hrec hrange.1 hrange.2.2 hfree
      refine ⟨hw', fun o x => ?_⟩
      rw [hmap]
      have hacc' : r.flAccess = false := by simpa using hacc
      simp [hacc', show ret = 0 from hret]
    · rw [hsame]
      exact ⟨hw, fun o x => (if_neg fun h => hret h.1).symm⟩

/-- A read lock of one owner on the offsets 0 to 9, and one of another on 5 to 19. -/
def twoReaders : List Cell :=
  [(1, ⟨7, .rdlck, 0, 9, true, false, false, false⟩),
    (2, ⟨8, .rdlck, 5, 19, true, false, false, false⟩)]

/-- The first owner asks for a write lock on the offsets 2 to 4. -/
def writeRequest : Lock := ⟨7, .wrlck, 2, 4, true, false, false, false⟩

def twoReadersInode : Inode where
  iFlock := 1
  mem p := if p = 1 then ⟨⟨7, .rdlck, 0, 9, true, false, false, false⟩, 2⟩
    else if p = 2 then ⟨⟨8, .rdlck, 5, 19, true, false, false, false⟩, 0⟩
    else ⟨writeRequest, 0⟩

theorem twoReaders_wellFormed : WellFormed (locks twoReaders) := by
  refine ⟨⟨[], [[⟨7, .rdlck, 0, 9, true, false, false, false⟩],
    [⟨8, .rdlck, 5, 19, true, false, false, false⟩]], rfl, nofun, ?_, ?_⟩, ?_, ?_, ?_⟩
  · intro g hg
    rcases mem_cons.mp hg with rfl | hg
    · exact ⟨7, by simp⟩
    · obtain rfl := mem_singleton.mp hg
      exact ⟨8, by simp⟩
  · simp
  · simp [twoReaders, Valid, OFFSET_MAX]
  · simp [twoReaders]
  · simp [twoReaders]

theorem posixLockFile_twoReaders : Ends (posixLockFile twoReadersInode 3 4 5 false) fun (n', ret) =>
      ∃ cells', Holds n' cells' ∧ WellFormed (locks cells') ∧ ∀ o x, lockAt (locks cells') o x =
        if ret = 0 ∧ writeRequest.flAccess = false ∧ o = writeRequest.flOwner ∧
          writeRequest.flStart ≤ x ∧ x ≤ writeRequest.flEnd then writeRequest.flType
        else lockAt (locks twoReaders) o x := by
  have hh : Holds twoReadersInode twoReaders :=
    ⟨rfl, ⟨by decide, rfl, by decide, rfl, trivial⟩, by decide⟩
  exact posixLockFile_spec hh twoReaders_wellFormed (by decide) (by decide) rfl rfl (by decide)
    (fun _ => by decide) (fun _ => by decide) (fun _ => by decide) false

end SilanKernel.Locks
