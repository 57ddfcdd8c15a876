import SilanKernel.Data.Run
import SilanKernel.Fs.Locks

/-!
# SilanKernel.Fs.LocksList

The lock list of an inode **in memory**.

`Holds n cells` says that the list has these locks at these addresses, in this order. A slot of the
C code is the place between two parts of the list: `slotAfter pre` is the one after the locks
`pre`. Each operation on the list gets one lemma in these terms; what it does not touch is in
the lemma too, since `request` may be a lock outside of the list.
-/

namespace SilanKernel.Locks

open List Memory

/-- A lock and where it is. -/
abbrev Cell := Ptr × Lock

abbrev ptrs (cells : List Cell) : List Ptr := cells.map Prod.fst

/-- The locks of a list, in order. -/
abbrev locks (cells : List Cell) : List Lock := cells.map Prod.snd

/-- The address of the first lock, or `next` if there is none. -/
def headOr (cells : List Cell) (next : Ptr) : Ptr :=
  match cells with
  | [] => next
  | c :: _ => c.1

/-- The memory has these locks in a row, with `next` behind the last one. -/
def IsSeg (mem : Mem FileLock) : List Cell → Ptr → Prop
  | [], _ => True
  | c :: cells, next => c.1 ≠ 0 ∧ mem c.1 = ⟨c.2, headOr cells next⟩ ∧ IsSeg mem cells next

/-- **The list of the inode** in memory. -/
structure Holds (n : Inode) (cells : List Cell) : Prop where
  first : n.iFlock = headOr cells 0
  seg : IsSeg n.mem cells 0
  nodup : (ptrs cells).Nodup

/-- The slot behind the locks `pre`. -/
def slotAfter (pre : List Cell) : Slot :=
  match pre.getLast? with
  | none => .head
  | some c => .next c.1

variable {n : Inode} {mem : Mem FileLock} {pre rest : List Cell} {p next v : Ptr} {k : Lock}
  {c : Cell}

@[simp] theorem slotAfter_concat : slotAfter (pre ++ [c]) = .next c.1 := by
  rw [slotAfter, getLast?_concat]

theorem headOr_append : headOr (pre ++ rest) next = headOr pre (headOr rest next) := by
  cases pre <;> rfl

theorem isSeg_append : IsSeg mem (pre ++ rest) next ↔
    IsSeg mem pre (headOr rest next) ∧ IsSeg mem rest next := by
  induction pre with
  | nil => exact (and_iff_right trivial).symm
  | cons c pre ih =>
    rw [cons_append, IsSeg, IsSeg, ih, headOr_append]
    simp only [and_assoc]

theorem IsSeg.frame (hs : IsSeg mem cells next) (hmem : ∀ z ∈ ptrs cells, mem' z = mem z) :
    IsSeg mem' cells next := by
  induction cells with
  | nil => trivial
  | cons c cells ih =>
    obtain ⟨h0, hc, hs⟩ := hs
    refine ⟨h0, (hmem c.1 mem_cons_self).trans hc, ih hs fun z hz => ?_⟩
    exact hmem z (mem_cons_of_mem _ hz)

theorem Holds.load (hh : Holds n (pre ++ (p, k) :: rest)) :
    p ≠ 0 ∧ n.mem p = ⟨k, headOr rest 0⟩ := by
  obtain ⟨h0, hmem, -⟩ := (isSeg_append.mp hh.seg).2
  exact ⟨h0, hmem⟩

theorem Holds.notMem (hh : Holds n (pre ++ (p, k) :: rest)) : p ∉ ptrs pre ∧ p ∉ ptrs rest := by
  have hnd := hh.nodup
  rw [ptrs, map_append, map_cons, nodup_middle, nodup_cons, mem_append, not_or] at hnd
  exact hnd.1

theorem Holds.frame (hh : Holds n cells) (hmem : ∀ z ∈ ptrs cells, mem' z = n.mem z) :
    Holds { n with mem := mem' } cells :=
  ⟨hh.first, hh.seg.frame hmem, hh.nodup⟩

theorem Holds.length_lt (hh : Holds n cells) : cells.length + 2 < loopBound := by
  have hlt := length_lt_loopBound hh.nodup
  rwa [length_map] at hlt

/-! ### Slots -/

theorem read_spec (hh : Holds n (pre ++ rest)) : n.read (slotAfter pre) = some (headOr rest 0) := by
  rcases eq_nil_or_concat pre with rfl | ⟨pre, c, rfl⟩
  · exact congrArg some hh.first
  rw [concat_eq_append] at hh ⊢
  rw [append_assoc, singleton_append] at hh
  obtain ⟨h0, hmem⟩ := hh.load
  rw [slotAfter_concat, Inode.read, load_eq h0, hmem]
  rfl

theorem write_spec (hfirst : n.iFlock = headOr pre next) (hseg : IsSeg n.mem pre next)
    (hnd : (ptrs pre).Nodup) :
    Ends (n.write (slotAfter pre) v) fun n' =>
      n'.iFlock = headOr pre v ∧ IsSeg n'.mem pre v ∧ ∀ z, z ∉ ptrs pre → n'.mem z = n.mem z := by
  rcases eq_nil_or_concat pre with rfl | ⟨pre, c, rfl⟩
  · exact ⟨_, rfl, rfl, trivial, fun _ _ => rfl⟩
  rw [concat_eq_append] at *
  obtain ⟨hpre, h0, hmem, -⟩ := isSeg_append.mp hseg
  rw [ptrs, map_append, nodup_append] at hnd
  have hc : c.1 ∉ ptrs pre := fun hc => hnd.2.2 c.1 hc c.1 (by simp) rfl
  rw [slotAfter_concat, Inode.write, modify_eq h0]
  refine ⟨_, rfl, ?_, isSeg_append.mpr ⟨hpre.frame (put_off hc _), h0, ?_, trivial⟩, fun z hz => ?_⟩
  · rw [hfirst, headOr_append, headOr_append]
    rfl
  · exact put_self.trans (by rw [hmem]; rfl)
  · refine put_of_ne fun hzc => hz ?_
    rw [hzc]
    simp

/-! ### Changes to a lock -/

/-- An assignment to fields of a lock in the list. -/
theorem update_spec (hh : Holds n (pre ++ (p, k) :: rest)) (k' : Lock)
    (hf : ∀ next, f ⟨k, next⟩ = ⟨k', next⟩) :
    Ends (n.update p f) fun n' =>
      Holds n' (pre ++ (p, k') :: rest) ∧ ∀ z, z ≠ p → n'.mem z = n.mem z := by
  obtain ⟨h0, hmem⟩ := hh.load
  obtain ⟨hpre, hrest⟩ := hh.notMem
  obtain ⟨hs, -, -, hs'⟩ := isSeg_append.mp hh.seg
  rw [Inode.update, modify_eq h0]
  refine ⟨_, rfl, ⟨?_, isSeg_append.mpr ⟨hs.frame (put_off hpre _), h0, ?_,
    hs'.frame (put_off hrest _)⟩, ?_⟩, fun z hz => put_of_ne hz⟩
  · have hfirst := hh.first
    rw [headOr_append] at hfirst ⊢
    exact hfirst
  · rw [hmem, hf]
    exact put_self
  · have hnd := hh.nodup
    rw [ptrs, map_append, map_cons] at hnd ⊢
    exact hnd

/-- An assignment to fields of a lock outside of the list. -/
theorem update_off (hh : Holds n cells) (h0 : p ≠ 0) (hp : p ∉ ptrs cells)
    (f : FileLock → FileLock) :
    Ends (n.update p f) fun n' =>
      Holds n' cells ∧ n'.mem p = f (n.mem p) ∧ ∀ z, z ≠ p → n'.mem z = n.mem z := by
  rw [Inode.update, modify_eq h0]
  exact ⟨_, rfl, hh.frame (put_off hp _), put_self, fun z hz => put_of_ne hz⟩

/-! ### Insertion and removal -/

theorem locksDeleteLock_spec (hh : Holds n (pre ++ (p, k) :: rest)) :
    Ends (locksDeleteLock n (slotAfter pre)) fun n' =>
      Holds n' (pre ++ rest) ∧ ∀ z, z ∉ ptrs (pre ++ (p, k) :: rest) → n'.mem z = n.mem z := by
  obtain ⟨h0, hmem⟩ := hh.load
  obtain ⟨hpre, hrest⟩ := hh.notMem
  obtain ⟨hs, -, -, hs'⟩ := isSeg_append.mp hh.seg
  have hnd := hh.nodup
  rw [ptrs, map_append, map_cons, nodup_middle, nodup_cons] at hnd
  have hndpre := (nodup_append.mp hnd.2).1
  have hfirst := hh.first
  rw [headOr_append] at hfirst
  rw [locksDeleteLock]
  refine .bind_eq (read_spec hh) (.bind_eq (load_eq h0) ?_)
  rw [show headOr ((p, k) :: rest) 0 = p from rfl, hmem]
  refine .bind (write_spec hfirst hs hndpre) fun n1 ⟨hfirst1, hs1, hframe1⟩ => ?_
  rw [Inode.update, modify_eq h0]
  refine ⟨_, rfl, ⟨?_, isSeg_append.mpr ⟨hs1.frame (put_off hpre _), ?_⟩, ?_⟩, fun z hz => ?_⟩
  · rw [headOr_append]
    exact hfirst1
  · refine hs'.frame fun z hz => ?_
    have hzp : z ≠ p := fun hc => hrest (hc ▸ hz)
    have hzpre : z ∉ ptrs pre := fun hc => (nodup_append.mp hnd.2).2.2 z hc z hz rfl
    exact (put_of_ne hzp).trans (hframe1 z hzpre)
  · rw [ptrs, map_append]
    exact hnd.2
  · rw [ptrs, map_append, map_cons, mem_append, mem_cons, not_or, not_or] at hz
    exact (put_of_ne hz.2.1).trans (hframe1 z hz.1)

theorem locksInsertLock_spec (hh : Holds n (pre ++ rest)) (h0 : p ≠ 0) (hp : p ∉ ptrs (pre ++ rest))
    (hk : (n.mem p).toLock = k) :
    Ends (locksInsertLock n (slotAfter pre) p) fun n' =>
      Holds n' (pre ++ (p, k) :: rest) ∧
        ∀ z, z ∉ ptrs (pre ++ (p, k) :: rest) → n'.mem z = n.mem z := by
  obtain ⟨hs, hs'⟩ := isSeg_append.mp hh.seg
  have hnd := hh.nodup
  rw [ptrs, map_append] at hnd hp
  rw [mem_append, not_or] at hp
  have hnd' := nodup_append.mp hnd
  have hfirst := hh.first
  rw [headOr_append] at hfirst
  rw [locksInsertLock]
  refine .bind_eq (read_spec hh) ?_
  rw [Inode.update, modify_eq h0]
  refine .bind_eq rfl ?_
  refine .mono (write_spec hfirst (hs.frame (put_off hp.1 _)) hnd'.1) fun n1 h1 => ?_
  obtain ⟨hfirst1, hs1, hframe1⟩ := h1
  refine ⟨⟨?_, isSeg_append.mpr ⟨hs1, h0, ?_, ?_⟩, ?_⟩, fun z hz => ?_⟩
  · rw [headOr_append]
    exact hfirst1
  · rw [hframe1 p hp.1]
    exact put_self.trans (by rw [hk])
  · refine hs'.frame fun z hz => ?_
    have hzp : z ≠ p := fun hc => hp.2 (hc ▸ hz)
    rw [hframe1 z fun hc => hnd'.2.2 z hc z hz rfl]
    exact put_of_ne hzp
  · rw [ptrs, map_append, map_cons, nodup_middle, nodup_cons, mem_append, not_or]
    exact ⟨hp, hnd⟩
  · rw [ptrs, map_append, map_cons, mem_append, mem_cons, not_or, not_or] at hz
    rw [hframe1 z hz.1]
    exact put_of_ne hz.2.1

/-! ### Searches -/

theorem findConflict_spec (hs : IsSeg n.mem cells 0) (hfuel : cells.length < fuel) :
    Ends (findConflict fuel n r (headOr cells 0)) fun p =>
      p = 0 → ∀ k ∈ locks cells, k.flPosix → posixLocksConflict r k = false := by
  induction fuel generalizing cells with
  | zero => omega
  | succ fuel ih =>
    cases cells with
    | nil => exact ⟨0, rfl, fun _ k hk => absurd hk not_mem_nil⟩
    | cons c cells =>
      obtain ⟨h0, hmem, hs⟩ := hs
      rw [findConflict, headOr, if_neg h0]
      refine .bind_eq (load_eq h0) ?_
      rw [hmem]
      refine .ite (fun _ => .ret fun hc => absurd hc h0) fun hno => ?_
      rw [length_cons] at hfuel
      refine .mono (ih hs (by omega)) fun p hp hp0 k hk hposix => ?_
      rcases mem_cons.mp hk with rfl | hk
      · simpa [hposix] using hno
      · exact hp hp0 k hk hposix

theorem skipOthers_spec (hh : Holds n (pre ++ cells ++ rest))
    (hskip : ∀ k ∈ locks cells, k.flPosix → k.flOwner ≠ r.flOwner)
    (hstop : ∀ c ∈ rest.head?, c.2.flPosix ∧ c.2.flOwner = r.flOwner)
    (hfuel : cells.length < fuel) :
    skipOthers fuel n r (slotAfter pre) = some (slotAfter (pre ++ cells)) := by
  induction fuel generalizing pre cells with
  | zero => omega
  | succ fuel ih =>
    have hread := hh
    rw [append_assoc] at hread
    rw [skipOthers, read_spec hread, Option.bind_some]
    cases cells with
    | nil =>
      cases rest with
      | nil => exact (if_pos rfl).trans (by rw [append_nil])
      | cons c rest =>
        obtain ⟨h0, hmem⟩ := hread.load (k := c.2) (p := c.1)
        obtain ⟨hposix, howner⟩ := hstop c rfl
        rw [nil_append, headOr, if_neg h0, load_eq h0, Option.bind_some, hmem, if_neg, append_nil]
        simp [hposix, posixSameOwner, howner]
    | cons c cells =>
      obtain ⟨h0, hmem⟩ := hread.load (k := c.2) (p := c.1)
      rw [cons_append, headOr, if_neg h0, load_eq h0, Option.bind_some, hmem, if_pos]
      · rw [length_cons] at hfuel
        have hmove : Holds n (pre ++ [c] ++ cells ++ rest) := by simpa using hh
        have hrest := ih hmove (fun k hk => hskip k (mem_cons_of_mem _ hk)) (by omega)
        rwa [slotAfter_concat, append_assoc, singleton_append] at hrest
      · have hc := hskip c.2 mem_cons_self
        cases hp : c.2.flPosix with
        | false => rfl
        | true => simpa [posixSameOwner] using Ne.symm (hc hp)

end SilanKernel.Locks
