import SilanKernel.Fs.LocksList
import SilanKernel.Fs.LocksRange

/-!
# SilanKernel.Fs.LocksScan

The loop of `__posix_lock_file` over the **locks of the owner**, in memory.

The list is `P`, the locks of the owner and `S` throughout. The locks of the owner the loop has
passed are `pre` and `lo`, and the new lock `mo` if one of them has become that: `request` then
points to it, and it is always the last one before the cursor. `At` has this and the facts of
`Pieces` about the ranges; each turn of the loop moves one lock, and `Exit` lists the ways out.
-/

namespace SilanKernel.Locks

open List Memory

variable {n : Inode} {P S pre lo mo rest : List Cell} {mid g : List Lock} {all : List Ptr}
  {r m k : Lock} {p rq : Ptr} {ra rb : Int} {s : Scan}

/-! ### Merging two locks -/

/-- The lock with this range. -/
def Lock.withRange (k : Lock) (start stop : Int) : Lock :=
  { k with flStart := start, flEnd := stop }

/-- Both locks get the range of both. `I m k` says of the memory that the request is `m` and the
lock of the list is `k`. -/
theorem mergeRanges_spec {I : Lock → Lock → Inode → Prop}
    (hp : ∀ {n m k} k' {f}, I m k n → (∀ next, f ⟨k, next⟩ = ⟨k', next⟩) →
      Ends (n.update p f) (I m k'))
    (hq : ∀ {n m k} m' {f}, I m k n → (∀ next, f ⟨m, next⟩ = ⟨m', next⟩) →
      Ends (n.update q f) (I m' k)) (hI : I m k n) (hs : r.flStart = m.flStart)
    (he : r.flEnd = m.flEnd) :
    Ends (mergeRanges n q p k r) (I (m.withRange (min m.flStart k.flStart) (max m.flEnd k.flEnd))
      (k.withRange (min m.flStart k.flStart) (max m.flEnd k.flEnd))) := by
  rw [mergeRanges, mergeStarts, hs]
  refine .bind (R := I { m with flStart := min m.flStart k.flStart }
    { k with flStart := min m.flStart k.flStart }) ?_ fun n1 hI1 => ?_
  · refine .ite (fun hlt => ?_) fun hle => ?_
    · rw [min_eq_left (by omega)]
      exact hp _ hI fun _ => rfl
    · rw [min_eq_right (by omega)]
      exact hq _ hI fun _ => rfl
  · rw [mergeEnds, he]
    refine .ite (fun hlt => ?_) fun hle => ?_
    · rw [max_eq_left (by omega)]
      exact hp _ hI1 fun _ => rfl
    · rw [max_eq_right (by omega)]
      exact hq _ hI1 fun _ => rfl

/-- The request is the lock before in the list. -/
theorem mergeRanges_in (hh : Holds n (A ++ (q, m) :: (p, k) :: B)) (hs : r.flStart = m.flStart)
    (he : r.flEnd = m.flEnd) :
    Ends (mergeRanges n q p k r) fun n' =>
      Holds n' (A ++ (q, m.withRange (min m.flStart k.flStart) (max m.flEnd k.flEnd)) ::
        (p, k.withRange (min m.flStart k.flStart) (max m.flEnd k.flEnd)) :: B) := by
  refine mergeRanges_spec (I := fun m k n => Holds n (A ++ (q, m) :: (p, k) :: B))
    (fun k' _ hh hf => ?_)
    (fun m' _ hh hf => .mono (update_spec hh m' hf) fun _ hn => hn.1) hh hs he
  rw [append_cons] at hh ⊢
  exact .mono (update_spec hh k' hf) fun _ hn => hn.1

/-- The request is outside of the list. -/
theorem mergeRanges_off (hh : Holds n (A ++ (p, k) :: B)) (hq0 : q ≠ 0)
    (hq : q ∉ ptrs (A ++ (p, k) :: B)) :
    Ends (mergeRanges n q p k m) fun n' =>
      Holds n' (A ++ (p, k.withRange (min m.flStart k.flStart) (max m.flEnd k.flEnd)) :: B) :=
  mergeRanges_spec (I := fun _ k n => Holds n (A ++ (p, k) :: B))
    (fun k' _ hh hf => .mono (update_spec hh k' hf) fun _ hn => hn.1)
    (fun _ f hh _ => .mono (update_off hh hq0 (by simpa using hq) f) fun _ hn => hn.1) hh rfl rfl

/-! ### The state of the loop -/

/-- Where `request` points: to the structure of the caller, as it was, or to the lock of the list
that has become the new one. -/
def RequestAt (r : Lock) (rq : Ptr) (s : Scan) (lo mo : List Cell) (mid : List Lock) (ra rb : Int) :
    Prop :=
  (mo = [] ∧ s.request = rq ∧ (s.inode.mem rq).toLock = r ∧ ra = r.flStart ∧ rb = r.flEnd ∧
      (s.added = true ↔ r.flType = .unlck ∧ (lo ≠ [] ∨ mid ≠ [])) ∧
      (r.flType ≠ .unlck → mid = [])) ∨
    ∃ m, mo = [(s.request, m)] ∧ m.flStart = ra ∧ m.flEnd = rb ∧ m.flType = r.flType ∧
      m.flOwner = r.flOwner ∧ m.flPosix = true ∧ s.added = true ∧ mid ≠ [] ∧ r.flType ≠ .unlck

structure At (r : Lock) (rq : Ptr) (g : List Lock) (all : List Ptr) (P S : List Cell) (s : Scan)
    (pre lo mo rest : List Cell) (mid : List Lock) (ra rb : Int) : Prop where
  holds : Holds s.inode (P ++ pre ++ lo ++ mo ++ (rest ++ S))
  before_eq : s.before = slotAfter (P ++ pre ++ lo ++ mo)
  left_eq : s.left = headOr lo 0
  right_eq : s.right = 0
  pieces : Pieces r (locks pre) (locks lo) mid (locks rest) ra rb
  owner : ∀ c ∈ rest, c.2.flOwner = r.flOwner ∧ c.2.flType ≠ .unlck ∧ c.2.flPosix = true
  request_at : RequestAt r rq s lo mo mid ra rb
  sub : ∀ z ∈ ptrs (P ++ pre ++ lo ++ mo ++ (rest ++ S)), z ∈ all
  orig : locks pre ++ locks lo ++ mid ++ locks rest = g

/-- The record `request` points to. -/
theorem At.request (ha : At r rq g all P S s pre lo mo rest mid ra rb) (hrq : rq ≠ 0) :
    s.request ≠ 0 ∧ ∃ cur : Lock, (s.inode.mem s.request).toLock = cur ∧ cur.flOwner = r.flOwner ∧
      cur.flType = r.flType ∧ cur.flStart = ra ∧ cur.flEnd = rb := by
  rcases ha.request_at with ⟨-, hreq, hmem, hra, hrb, -⟩ | ⟨m, rfl, hs, he, ht, ho, -⟩
  · rw [hreq]
    exact ⟨hrq, r, hmem, rfl, rfl, hra.symm, hrb.symm⟩
  · have hh := ha.holds
    rw [append_assoc, singleton_append] at hh
    obtain ⟨h0, hmem⟩ := hh.load
    exact ⟨h0, m, by rw [hmem], ho, ht, hs, he⟩

/-- The ways out of the loop: no lock of the owner meets the range any more, or one goes on behind
the range, or one has the range in its middle. -/
inductive Exit (r : Lock) (rq : Ptr) (g : List Lock) (all : List Ptr)
    (P S : List Cell) : Scan → Prop
  | plain {s : Scan} {pre lo mo rest : List Cell} {mid : List Lock} {ra rb : Int}
      (ha : At r rq g all P S s pre lo mo rest mid ra rb)
      (hrest : ∀ k ∈ locks rest, rb < k.flStart ∧ (k.flType = r.flType → rb + 1 < k.flStart)) :
      Exit r rq g all P S s
  | right {s : Scan} {pre lo mo rest : List Cell} {mid : List Lock} {ra rb : Int}
      {p : Ptr} {k : Lock} (ha : At r rq g all P S s pre lo mo ((p, k) :: rest) mid ra rb)
      (ht : k.flType ≠ r.flType) (hs : ra ≤ k.flStart) (hs' : k.flStart ≤ rb) (he : rb < k.flEnd) :
      Exit r rq g all P S { s with added := s.added || decide (r.flType = .unlck), right := p }
  | split {s : Scan} {pre rest : List Cell} {ra rb : Int} {p : Ptr} {k : Lock}
      (ha : At r rq g all P S s pre [] [] ((p, k) :: rest) [] ra rb) (ht : k.flType ≠ r.flType)
      (hs : k.flStart < ra) (he : rb < k.flEnd) :
      Exit r rq g all P S { s with
        added := s.added || decide (r.flType = .unlck), left := p, right := p }

/-- What a turn at the lock `p` leads to. -/
def TurnOk (r : Lock) (rq : Ptr) (g : List Lock) (all : List Ptr) (P S : List Cell) (p : Ptr)
    (rest : List Cell) :
    Turn → Prop
  | .next s => ∃ pre lo mo mid ra rb,
      At r rq g all P S { s with before := .next p } pre lo mo rest mid ra rb
  | .again s => ∃ pre lo mo mid ra rb, At r rq g all P S s pre lo mo rest mid ra rb
  | .leave s => Exit r rq g all P S s

theorem ptrs_move (x y : Lock) : ptrs (A ++ [(p, x)] ++ B) = ptrs (A ++ (p, y) :: B) := by simp

section

variable (ha : At r rq g all P S s pre lo mo ((p, k) :: rest) mid ra rb) {cur : Lock}

include ha

/-- The lock is before the range: it goes to `pre`. -/
theorem At.skip (hk : k.flEnd < ra)
    (hgap : k.flType = r.flType → k.flEnd + 1 < ra) : TurnOk r rq g all P S p rest (.next s) := by
  obtain ⟨hlo, hmid, hpieces⟩ := ha.pieces.skip hk hgap
  obtain rfl : lo = [] := map_eq_nil_iff.mp hlo
  subst hmid
  rcases ha.request_at with ⟨rfl, hreq, hmem, hra, hrb, hadded, -⟩ | ⟨m, -, -, -, -, -,
    -, -, hne, -⟩
  · have hcells : P ++ pre ++ [] ++ [] ++ ((p, k) :: rest ++ S) =
        P ++ (pre ++ [(p, k)]) ++ [] ++ [] ++ (rest ++ S) := by simp
    refine ⟨pre ++ [(p, k)], [], [], [], ra, rb, ?_, ?_, ha.left_eq, ha.right_eq, ?_,
      fun c hc => ?_, ?_, ?_, by simpa using ha.orig⟩
    · rw [← hcells]
      exact ha.holds
    · simp [← append_assoc]
    · simpa using hpieces
    · exact ha.owner c (mem_cons_of_mem _ hc)
    · exact .inl ⟨rfl, hreq, hmem, hra, hrb, by simpa using hadded, fun _ => rfl⟩
    · rw [← hcells]
      exact ha.sub
  · exact absurd rfl hne

theorem At.owner_rest : ∀ c ∈ rest, c.2.flOwner = r.flOwner ∧ c.2.flType ≠ .unlck ∧
    c.2.flPosix = true :=
  fun c hc => ha.owner c (mem_cons_of_mem _ hc)

/-- The lock becomes the new one, `k'`. -/
theorem At.becomes (hmo : mo = []) (hh : Holds n (P ++ pre ++ lo ++ mo ++ (p, k') :: (rest ++ S)))
    (hpieces : Pieces r (locks pre) (locks lo) (mid ++ [k]) (locks rest) k'.flStart k'.flEnd)
    (ht : k'.flType = r.flType) (ho : k'.flOwner = k.flOwner) (hp : k'.flPosix = k.flPosix)
    (hu : r.flType ≠ .unlck) :
    TurnOk r rq g all P S p rest (.next { s with inode := n, request := p, added := true }) := by
  subst hmo
  obtain ⟨howner, -, hposix⟩ := ha.owner (p, k) mem_cons_self
  refine ⟨pre, lo, [(p, k')], mid ++ [k], _, _, ?_, ?_, ha.left_eq, ha.right_eq, hpieces,
    ha.owner_rest, .inr ⟨k', rfl, rfl, rfl, ht, ho.trans howner, hp.trans hposix, rfl, by simp, hu⟩,
    ?_, by simpa using ha.orig⟩
  · rw [append_nil] at hh
    rwa [append_assoc, singleton_append]
  · rw [slotAfter_concat]
  · intro z hz
    refine ha.sub z ?_
    rw [ptrs_move _ k] at hz
    rwa [append_nil]

variable (hout : rq ∉ all) (hcs : cur.flStart = ra) (hce : cur.flEnd = rb)

include hout hcs hce

/-- The lock has the requested type and touches the range. -/
theorem At.merge (hrq : rq ≠ 0) (ht : k.flType = r.flType) (hlo : ¬ k.flEnd < ra - 1)
    (hhi : ¬ k.flStart - 1 > rb) :
    Ends ((mergeRanges s.inode s.request p k cur).bind fun n =>
      if s.added then
        (locksDeleteLock n s.before).bind fun n => some (.again { s with inode := n })
      else some (.next { s with inode := n, request := p, added := true }))
      (TurnOk r rq g all P S p rest) := by
  have hpieces := ha.pieces.merge ht hlo hhi
  have hunlck : r.flType ≠ .unlck := fun hc => (ha.owner (p, k) mem_cons_self).2.1 (ht.trans hc)
  rcases ha.request_at with ⟨rfl, hreq, hmem, hra, hrb, hadded, hmid⟩ | ⟨m, rfl, hs, he, hmt, hmo,
    hmp, hadded, -, -⟩
  · have hadded' : s.added = false := by
      rw [← Bool.not_eq_true, hadded]
      exact fun hc => hunlck hc.1
    have hsub : rq ∉ ptrs (P ++ pre ++ lo ++ [] ++ ((p, k) :: (rest ++ S))) :=
      fun hc => hout (ha.sub rq hc)
    rw [hreq]
    refine .bind (mergeRanges_off (m := cur) ha.holds hrq hsub) fun n1 hh1 => ?_
    rw [hadded']
    rw [hcs, hce] at hh1
    exact .ret (ha.becomes rfl hh1 hpieces ht rfl rfl hunlck)
  · have hh := ha.holds
    rw [append_assoc, singleton_append, cons_append] at hh
    have hms : cur.flStart = m.flStart := hcs.trans hs.symm
    have hme : cur.flEnd = m.flEnd := hce.trans he.symm
    refine .bind (mergeRanges_in hh hms hme) fun n1 hh1 => ?_
    rw [hs, he] at hh1
    rw [hadded]
    have hbefore : s.before = slotAfter (P ++ pre ++ lo ++
        [(s.request, m.withRange (min ra k.flStart) (max rb k.flEnd))]) := by
      rw [ha.before_eq, slotAfter_concat, slotAfter_concat]
    have hcells : ∀ x y : Lock, P ++ pre ++ lo ++ (s.request, x) :: (p, y) :: (rest ++ S) =
        P ++ pre ++ lo ++ [(s.request, x)] ++ (p, y) :: (rest ++ S) := by simp
    rw [hcells] at hh1
    have hdelete := locksDeleteLock_spec hh1
    rw [← hbefore] at hdelete
    refine .bind hdelete fun n2 ⟨hh2, _⟩ => ?_
    refine .ret ⟨pre, lo, _, mid ++ [k], _, _, hh2, hbefore, ha.left_eq, ha.right_eq, hpieces,
      ha.owner_rest, .inr ⟨_, rfl, rfl, rfl, hmt, hmo, hmp, rfl, by simp, hunlck⟩,
      fun z hz => ha.sub z ?_, by simpa using ha.orig⟩
    simp only [ptrs, map_append, map_cons, map_nil, mem_append, mem_cons] at hz ⊢
    tauto

theorem At.sameType_turn (hrq : rq ≠ 0) (ht : k.flType = r.flType) :
    Ends (sameType s p k cur) (TurnOk r rq g all P S p rest) := by
  rw [sameType, hcs, hce]
  refine .ite (fun hlo => .ret ?_) fun hlo => .ite (fun hhi => .ret ?_) fun hhi => ?_
  · exact ha.skip (by omega) fun _ => by omega
  · have hlt : rb + 1 < k.flStart := by omega
    exact Exit.plain ha (ha.pieces.after (Int.lt_of_le_of_lt (by omega) hlt) fun _ => hlt)
  · exact ha.merge hout hcs hce hrq ht hlo hhi

/-- The lock is within the range: it goes, or it becomes the new lock. -/
theorem At.cover (hs : ra ≤ k.flStart) (he : k.flEnd ≤ rb) (hct : cur.flType = r.flType) :
    Ends (if (s.added || decide (r.flType = .unlck)) = true then
        (locksDeleteLock s.inode s.before).bind fun n =>
          some (.again { s with inode := n, added := s.added || decide (r.flType = .unlck) })
      else replaceLock { s with added := s.added || decide (r.flType = .unlck) } p cur)
      (TurnOk r rq g all P S p rest) := by
  have hpieces := ha.pieces.cover hs he
  have hdelete := locksDeleteLock_spec ha.holds
  rw [← ha.before_eq] at hdelete
  have hsub : ∀ z ∈ ptrs (P ++ pre ++ lo ++ mo ++ (rest ++ S)), z ∈ all := fun z hz => by
    refine ha.sub z ?_
    simp only [ptrs, map_append, map_cons, mem_append, mem_cons] at hz ⊢
    tauto
  rcases ha.request_at with ⟨rfl, hreq, hmem, hra, hrb, hadded, hmid⟩ | ⟨m, rfl, hms, hme, hmt, hmo,
    hmp, hadded, -, hunlck⟩
  · by_cases hu : r.flType = .unlck
    · rw [decide_eq_true hu, Bool.or_true, if_pos rfl]
      refine .bind hdelete fun n1 ⟨hh1, hframe1⟩ => ?_
      refine .ret ⟨pre, lo, [], mid ++ [k], ra, rb, hh1, ha.before_eq, ha.left_eq, ha.right_eq,
        hpieces, ha.owner_rest, .inl ⟨rfl, hreq, ?_, hra, hrb, by simp [hu], absurd hu⟩, hsub,
        by simpa using ha.orig⟩
      rw [hframe1 rq fun hc => hout (ha.sub rq hc), hmem]
    have hadded' : s.added = false := by
      rw [← Bool.not_eq_true, hadded]
      exact fun hc => hu hc.1
    rw [decide_eq_false hu, Bool.or_false, hadded', if_neg Bool.false_ne_true, replaceLock]
    let k' : Lock := { k with flStart := cur.flStart, flEnd := cur.flEnd, flType := cur.flType }
    refine .bind (update_spec ha.holds k' fun _ => rfl) fun n1 ⟨hh1, _⟩ => ?_
    exact .ret (ha.becomes rfl hh1 (hcs ▸ hce ▸ hpieces) hct rfl rfl hu)
  · rw [hadded, Bool.true_or, if_pos rfl]
    refine .bind hdelete fun n1 ⟨hh1, _⟩ => ?_
    exact .ret ⟨pre, lo, _, mid ++ [k], ra, rb, hh1, ha.before_eq, ha.left_eq, ha.right_eq, hpieces,
      ha.owner_rest, .inr ⟨m, rfl, hms, hme, hmt, hmo, hmp, rfl, by simp, hunlck⟩, hsub,
      by simpa using ha.orig⟩

theorem At.otherType_turn (ht : k.flType ≠ r.flType) (hct : cur.flType = r.flType) :
    Ends (otherType s p k cur) (TurnOk r rq g all P S p rest) := by
  have hadded : (if r.flType = .unlck then { s with added := true } else s) =
      { s with added := s.added || decide (r.flType = .unlck) } := by
    by_cases hu : r.flType = .unlck
    · rw [if_pos hu, decide_eq_true hu, Bool.or_true]
    · rw [if_neg hu, decide_eq_false hu, Bool.or_false]
  have hra := ha.pieces.range
  rw [otherType, hcs, hce, hct]
  refine .ite (fun hlo => .ret ?_) fun hlo => .ite (fun hhi => .ret ?_) fun hhi => ?_
  · exact ha.skip hlo fun hc => absurd hc ht
  · exact Exit.plain ha (ha.pieces.after hhi fun hc => absurd hc ht)
  rw [hadded]
  by_cases hs : k.flStart < ra
  · simp only [hs, if_true]
    have hnone : lo = [] ∧ mid = [] ∧ mo = [] := by
      obtain ⟨hlo', rfl⟩ := ha.pieces.untouched hs
      refine ⟨map_eq_nil_iff.mp hlo', rfl, ?_⟩
      rcases ha.request_at with ⟨hmo, -⟩ | ⟨m, -, -, -, -, -, -, -, hne, -⟩
      · exact hmo
      · exact absurd rfl hne
    obtain ⟨rfl, rfl, rfl⟩ := hnone
    refine .ite (fun he => .ret (Exit.split ha ht hs he)) fun he => ?_
    rw [if_neg (by omega)]
    obtain ⟨-, -, hpieces⟩ := ha.pieces.cutStart ht hs (Int.not_lt.mp hlo) (Int.not_lt.mp he)
    have hcells : P ++ pre ++ [] ++ [] ++ ((p, k) :: rest ++ S) =
        P ++ pre ++ [(p, k)] ++ [] ++ (rest ++ S) := by simp
    refine .ret ⟨pre, [(p, k)], [], [], ra, rb, ?_, ?_, rfl, ha.right_eq, hpieces,
      fun c hc => ?_, ?_, ?_, by simpa using ha.orig⟩
    · rw [← hcells]
      exact ha.holds
    · rw [append_nil, slotAfter_concat]
    · exact ha.owner c (mem_cons_of_mem _ hc)
    · rcases ha.request_at with ⟨-, hreq, hmem, hra, hrb, hadded, -⟩ | ⟨m, hmo, -⟩
      · refine .inl ⟨rfl, hreq, hmem, hra, hrb, ?_, fun _ => rfl⟩
        simp at hadded
        simp [hadded]
      · exact absurd hmo nofun
    · rw [← hcells]
      exact ha.sub
  · simp only [hs, if_false]
    refine .ite (fun he => .ret ?_) fun he => ?_
    · exact Exit.right ha ht (by omega) (by omega) (by omega)
    · rw [if_pos (by omega)]
      exact ha.cover hout hcs hce (by omega) (by omega) hct

end

/-- **The loop over the locks of the owner.** -/
theorem ownerLoop_spec (hrq : rq ≠ 0) (hout : rq ∉ all)
    (hS : ∀ c ∈ S.head?, c.2.flOwner ≠ r.flOwner)
    (ha : At r rq g all P S s pre lo mo rest mid ra rb) (hfuel : rest.length < fuel) :
    Ends (ownerLoop fuel s) (Exit r rq g all P S) := by
  induction fuel generalizing s pre lo mo rest mid ra rb with
  | zero => omega
  | succ fuel ih =>
    obtain ⟨hreq0, cur, hcur, hco, hct, hcs, hce⟩ := ha.request hrq
    have hread := read_spec ha.holds
    rw [← ha.before_eq] at hread
    rw [ownerLoop, hread, Option.bind_some]
    cases rest with
    | nil =>
      have hexit : Exit r rq g all P S s := Exit.plain ha nofun
      cases S with
      | nil => exact ⟨s, if_pos rfl, hexit⟩
      | cons c S =>
        obtain ⟨h0, hmem⟩ := ha.holds.load (p := c.1) (k := c.2)
        refine .ite (fun _ => .ret hexit) fun _ => ?_
        refine .bind_eq (load_eq h0) (.bind_eq (load_eq hreq0) ?_)
        rw [show headOr ([] ++ c :: S) 0 = c.1 from rfl, hmem, hcur]
        refine .ite (fun _ => .ret hexit) (absurd ?_)
        simpa [posixSameOwner, hco] using Ne.symm (hS c rfl)
    | cons c rest =>
      obtain ⟨p, k⟩ := c
      obtain ⟨h0, hmem⟩ := ha.holds.load
      obtain ⟨howner, -, -⟩ := ha.owner (p, k) mem_cons_self
      refine .ite (fun hc => absurd hc h0) fun _ => ?_
      refine .bind_eq (load_eq h0) (.bind_eq (load_eq hreq0) ?_)
      rw [show headOr ((p, k) :: rest ++ S) 0 = p from rfl, hmem, hcur]
      refine .ite (fun hc => absurd hc ?_) fun _ => ?_
      · simp [posixSameOwner, hco, show k.flOwner = r.flOwner from howner]
      rw [length_cons] at hfuel
      have hturn : Ends (if cur.flType = k.flType then sameType s p k cur else otherType s p k cur)
          (TurnOk r rq g all P S p rest) := by
        rw [hct]
        refine .ite (fun ht => ?_) fun ht => ?_
        · exact ha.sameType_turn hout hcs hce hrq ht.symm
        · exact ha.otherType_turn hout hcs hce (Ne.symm ht) hct
      refine .bind hturn fun turn hok => ?_
      cases turn with
      | next s' =>
        obtain ⟨pre', lo', mo', mid', ra', rb', ha'⟩ := hok
        exact ih ha' (by omega)
      | again s' =>
        obtain ⟨pre', lo', mo', mid', ra', rb', ha'⟩ := hok
        exact ih ha' (by omega)
      | leave s' => exact .ret hok

end SilanKernel.Locks
