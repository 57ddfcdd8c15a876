import SilanKernel.Kernel.ResourceInsert

/-!
# SilanKernel.Kernel.ResourceRun

**The resource tree in use.**

`resSpec` says what each call does to the tree: a new resource is put among the children of some
resource, and those of them that it covers become its own children, or the tree stays as it is;
a release takes out a resource with everything below it. Every sequence of calls on a well-formed
tree follows this, and the tree in memory stays well formed.
-/

namespace SilanKernel.ResourceTree

open List Memory Forest

/-! ### What the calls do -/

/-- A root, with children sorted, disjoint and within its range, at every level. -/
def WellFormed (t : Forest) : Prop :=
  ∃ root s e kids, t = .cons root s e kids .nil ∧ s ≤ e ∧ kids.Ok s e

/-- The children of `q` are `A`, `B` and `C` in `t`; in `t'` the new resource is between `A` and
`C` and has `B` as its children, which are those it covers. -/
def Adds (t : Forest) (q new : Ptr) (s e : Nat) (B t' : Forest) : Prop :=
  ∃ path s₀ e₀ sib, ∃ A C : Forest,
    t = plug path (.cons q s₀ e₀ (A.append (B.append C)) sib) ∧
    t' = plug path (.cons q s₀ e₀ (A.append (.cons new s e B C)) sib) ∧
    (A.All fun _ e' => e' < s) ∧ (B.All fun s' e' => s ≤ s' ∧ e' ≤ e) ∧ C.All fun s' _ => e < s'

/-- `old` and everything below it is taken out. -/
def Removes (t : Forest) (old : Ptr) (t' : Forest) : Prop :=
  ∃ path s e children siblings,
    t = plug path (.cons old s e children siblings) ∧ t' = plug path siblings

/-- What a call may return and what it does. -/
def resSpec (t : Forest) (call : ResCall) (ret : Int) (t' : Forest) : Prop :=
  match call with
  | .request root new r =>
    ret = 0 ∧ Adds t root new r.start r.end_ .nil t' ∨ ret = -EBUSY ∧ t' = t
  | .insert _ new r =>
    ret = 0 ∧ (∃ q B, Adds t q new r.start r.end_ B t') ∨ ret = -EBUSY ∧ t' = t
  | .insertExpandToFit _ new r =>
    (∃ q s e B, s ≤ r.start ∧ r.end_ ≤ e ∧ Adds t q new s e B t') ∨ t' = t
  | .release old => ret = 0 ∧ Removes t old t'

/-- The caller hands over a resource outside of the tree without children, and a resource of the
tree to put it below; only resources below the root are released. -/
def ResCall.Legal (t : Forest) : ResCall → Prop
  | .request root new r => root ∈ t.nodes ∧ new ≠ 0 ∧ new ∉ t.nodes ∧ r.child = 0
  | .insert parent new r => parent ∈ t.nodes ∧ new ≠ 0 ∧ new ∉ t.nodes ∧ r.child = 0
  | .insertExpandToFit root new r => root ∈ t.nodes ∧ new ≠ 0 ∧ new ∉ t.nodes ∧ r.child = 0
  | .release old => old ∈ t.nodes ∧ old ≠ t.head

/-- The memory has the tree, with all its pointers, and the tree is well formed. -/
def TreeOk (h : Mem Resource) (t : Forest) : Prop := Holds h [] t ∧ WellFormed t

variable {h h' : Mem Resource} {path down skip : Path} {f B C t : Forest} {q new root : Ptr}
  {s e s' e' s₀ e₀ a b : Nat}

/-! ### The place in the tree -/

theorem append_cons (A : Forest) :
    (A.append (.cons x s e c .nil)).append f = A.append (.cons x s e c f) := by
  induction A with
  | nil => rfl
  | cons y s' e' c' sib' _ ihs => rw [append, append, ihs, append]

theorem Siblings.append (hs : Siblings skip) : ∃ A : Forest, ∀ f, plug skip f = A.append f := by
  induction skip with
  | nil => exact ⟨.nil, fun _ => rfl⟩
  | cons fr skip ih =>
    obtain ⟨x, s, e, c, rfl⟩ := hs fr mem_cons_self
    obtain ⟨A, hA⟩ := ih fun fr hfr => hs fr (mem_cons_of_mem _ hfr)
    refine ⟨A.append (.cons x s e c .nil), fun f => ?_⟩
    rw [plug, hA, append_cons, Frame.fill]

theorem Forest.Ok.all_from (hf : f.Ok a b) : f.All fun s' _ => a ≤ s' := by
  induction f generalizing a with
  | nil => trivial
  | cons y s' e' c' sib' _ ihs =>
    obtain ⟨hlo, hse, -, -, hs⟩ := hf
    exact ⟨hlo, (ihs hs).imp fun s'' _ hs'' => by omega⟩

/-- The siblings before a resource end before it. -/
theorem Forest.Ok.all_before {A : Forest} (hf : (A.append (.cons x s e B C)).Ok a b) :
    a ≤ s ∧ A.All fun _ e' => e' < s := by
  induction A generalizing a with
  | nil => exact ⟨hf.1, trivial⟩
  | cons y s' e' c' sib' _ ihs =>
    obtain ⟨hlo, hse, -, -, hs⟩ := hf
    obtain ⟨hle, hall⟩ := ihs hs
    exact ⟨by omega, hle, hall⟩

/-- The slots of a tree: the last frame is the root. -/
def Below (root : Ptr) (s e : Nat) (path : Path) : Prop :=
  ∃ down, path = down ++ [.child root s e .nil]

theorem Below.append (hb : Below root s e path) (down : Path) : Below root s e (down ++ path) := by
  obtain ⟨rest, rfl⟩ := hb
  exact ⟨down ++ rest, (append_assoc ..).symm⟩

theorem Below.plug_eq (hb : Below root s e path) :
    ∃ kids, plug path f = .cons root s e kids .nil := by
  obtain ⟨down, rfl⟩ := hb
  exact ⟨plug down f, plug_append down⟩

theorem up_ne (hp : IsPath h (down ++ [.child root s e .nil]) x) :
    up (down ++ [.child root s e .nil]) ≠ 0 := by
  induction down generalizing x with
  | nil => exact hp.1
  | cons fr down ih =>
    cases fr with
    | child y s' e' sib' => exact hp.1
    | sibling y s' e' c' => exact ih hp.2.2.2

/-- The cursor goes to the children of a resource. -/
theorem exists_below (hx : p ∈ (Forest.cons root s e c .nil).nodes) :
    ∃ s₀ e₀ sib path c', Below root s e (.child p s₀ e₀ sib :: path) ∧
      plug (.child p s₀ e₀ sib :: path) c' = .cons root s e c .nil := by
  rw [nodes, mem_cons, nodes, append_nil] at hx
  rcases hx with rfl | hx
  · exact ⟨s, e, .nil, [], c, ⟨[], rfl⟩, rfl⟩
  · obtain ⟨path, s₀, e₀, c', sib, rfl⟩ := exists_plug hx
    exact ⟨s₀, e₀, sib, path ++ [.child root s e .nil], c', ⟨.child p s₀ e₀ sib :: path, rfl⟩,
      plug_append (.child p s₀ e₀ sib :: path)⟩

/-- **The new resource in its place**: the tree is well formed and has nothing else new. -/
theorem adds_ok (hok : (plug path (B.append C)).Ok s₀ e₀) (hbelow : Below root s₀ e₀ path)
    (hroom : Room path s e) (hB : B.All fun s' e' => s ≤ s' ∧ e' ≤ e) (hC : From (e + 1) C)
    (hh : Holds h' path (.cons new s e B C)) :
    TreeOk h' (plug path (.cons new s e B C)) ∧
      Adds (plug path (B.append C)) (up path) new s e B (plug path (.cons new s e B C)) := by
  rw [ok_plug] at hok
  obtain ⟨hse, hbounds⟩ := hroom
  obtain ⟨hlo, hhi⟩ := hbounds s₀ e₀
  have hok' : (plug path (.cons new s e B C)).Ok s₀ e₀ :=
    ok_plug.mpr ⟨hok.1, hok.2.insert hlo hse hhi hB hC⟩
  refine ⟨⟨holds_plug.mp hh, ?_⟩, ?_⟩
  · obtain ⟨kids, hkids⟩ := hbelow.plug_eq (f := .cons new s e B C)
    rw [hkids] at hok' ⊢
    exact ⟨root, s₀, e₀, kids, rfl, hok'.2.1, hok'.2.2.2.1⟩
  have hup : up path ≠ 0 := by
    obtain ⟨down, rfl⟩ := hbelow
    exact up_ne hh.around
  obtain ⟨skip, q, s1, e1, sib1, rest, rfl, hskip⟩ := exists_split hup
  obtain ⟨A, hA⟩ := hskip.append
  rw [hskip.up_append, plug_append, plug_append, hA, hA]
  rw [plug_append, hA, ok_plug] at hok'
  refine ⟨rest, s1, e1, sib1, A, C, rfl, rfl, hok'.2.all_before.2, hB, ?_⟩
  exact (hok'.2.of_append.2.2.2.2).all_from

/-! ### `__insert_resource` -/

/-- The new resource is in its place among the resources below `p`. -/
def Placed (h' : Mem Resource) (below : Path) (c : Forest) (new : Ptr) (s e : Nat) : Prop :=
  ∃ down, ∃ B C : Forest, plug down (B.append C) = c ∧ Room (down ++ below) s e ∧
    (B.All fun s' e' => s ≤ s' ∧ e' ≤ e) ∧ From (e + 1) C ∧
    Holds h' (down ++ below) (.cons new s e B C)

/-- A resource below `p` that the range covers in part only. -/
def Crosses (c : Forest) (x : Ptr) (s e : Nat) : Prop :=
  ∃ down s' e' c' sib', plug down (.cons x s' e' c' sib') = c ∧ (s' < s ∨ e < e')

theorem insertResourceConflict_spec (hp : below = .child p s₀ e₀ sib :: path) (hh : Holds h below c)
    (hbelow : Below root a b below) (hnew : Ready h (plug below c) new s e) :
    Ends (insertResourceConflict h p new) fun (h', r) =>
      r = p ∧ h' = h ∧ Out s₀ e₀ s e ∨ r = 0 ∧ Placed h' below c new s e ∨
        h' = h ∧ ¬ Out s₀ e₀ s e ∧ Crosses c r s e := by
  have hfuel : c.nodes.length < loopBound := by
    have := hh.length_lt
    omega
  rw [insertResourceConflict]
  refine .bind (descend_spec hp hh hnew hfuel) ?_
  rintro ⟨h1, r | ⟨q, first⟩⟩ hd
  · rcases hd with ⟨rfl, rfl, hout⟩ | ⟨rfl, down, f, hf, hroom, hfrom, hh1⟩
    · exact .ret (.inl ⟨rfl, rfl, hout⟩)
    · exact .ret (.inr (.inl ⟨rfl, down, .nil, f, hf, hroom, trivial, hfrom, hh1⟩))
  obtain ⟨hsame, hin, down, s', e', c', sib', rfl, hroom, rfl⟩ := hd
  obtain rfl : h1 = h := hsame
  have hmove : Holds h1 (down ++ below) (.cons first s' e' c' sib') := (holds_append down).mpr hh
  have hfuel' : (Forest.cons first s' e' c' sib').nodes.length < loopBound := by
    have := hmove.length_lt
    omega
  refine .bind (coverLoop_spec hmove.forest nofun hnew.ne_zero hnew.start_eq hnew.end_eq hfuel') ?_
  rintro (y | y) hy
  · obtain ⟨pre, s1, e1, c1, sib1, hplug, hpart⟩ := hy
    refine .ret (.inr (.inr ⟨rfl, hin, pre ++ down, s1, e1, c1, sib1, ?_, hpart⟩))
    rw [plug_append, hplug]
  obtain ⟨B, C, happ, hB, rfl, hall, hfrom⟩ := hy
  have hfirst : first = B.head := (congrArg head happ).symm.trans (head_append hB)
  have hplug : plug (down ++ below) (B.append C) = plug below
      (plug down (.cons first s' e' c' sib')) := by
    rw [happ, plug_append]
  rw [← happ] at hmove
  rw [← hplug] at hnew
  have hup : up (down ++ below) ≠ 0 := by
    obtain ⟨rest, hrest⟩ := hbelow.append down
    rw [hrest] at hmove ⊢
    exact up_ne hmove.around
  rw [hfirst]
  refine .bind (adopt_spec hmove hB hup hnew) fun h2 hh2 => ?_
  refine .ret (.inr (.inl ⟨rfl, down, B, C, ?_, hroom, hall, hfrom, hh2⟩))
  rw [happ, hfirst]

/-! ### `insert_resource_expand_to_fit` -/

/-- How many resources the range does not cover. -/
def uncovered (s e : Nat) : Forest → Nat
  | .nil => 0
  | .cons _ s' e' c sib =>
    (if s ≤ s' ∧ e' ≤ e then 0 else 1) + uncovered s e c + uncovered s e sib

theorem uncovered_le_length : uncovered s e f ≤ f.nodes.length := by
  induction f with
  | nil => exact Nat.le_refl _
  | cons x s' e' c sib ihc ihs =>
    rw [uncovered, nodes, length_cons, length_append]
    split <;> omega

theorem uncovered_anti (hs : s' ≤ s) (he : e ≤ e') : uncovered s' e' f ≤ uncovered s e f := by
  induction f with
  | nil => exact Nat.le_refl _
  | cons x s1 e1 c sib ihc ihs =>
    rw [uncovered, uncovered]
    split
    · omega
    · rw [if_neg (by omega)]
      omega

theorem uncovered_plug_lt (hs : s' ≤ s) (he : e ≤ e') (hlt : uncovered s' e' f < uncovered s e f) :
    uncovered s' e' (plug down f) < uncovered s e (plug down f) := by
  induction down generalizing f with
  | nil => exact hlt
  | cons fr down ih =>
    refine ih ?_
    cases fr with
    | child x s1 e1 sib =>
      have hsib : uncovered s' e' sib ≤ uncovered s e sib := uncovered_anti hs he
      rw [Frame.fill, uncovered, uncovered]
      split <;> split <;> omega
    | sibling x s1 e1 c =>
      have hc : uncovered s' e' c ≤ uncovered s e c := uncovered_anti hs he
      rw [Frame.fill, uncovered, uncovered]
      split <;> split <;> omega

theorem PathOk.bounds (hp : PathOk a b down) : a ≤ lo a down ∧ hi b down ≤ b := by
  induction down with
  | nil => exact ⟨Nat.le_refl _, Nat.le_refl _⟩
  | cons fr down ih =>
    cases fr with
    | child x s1 e1 sib =>
      obtain ⟨hlo, hse, hhi, -, hp⟩ := hp
      have := ih hp
      exact ⟨by rw [lo]; omega, by rw [hi]; omega⟩
    | sibling x s1 e1 c =>
      obtain ⟨hlo, hse, hhi, -, hp⟩ := hp
      have := ih hp
      exact ⟨by rw [lo]; omega, this.2⟩

theorem ready_put (hne : new ≠ 0) (hnew : new ∉ t.nodes) (hchild : r.child = 0) :
    Ready (put h new r) t new r.start r.end_ :=
  ⟨hne, hnew, by rw [put_self], by rw [put_self], by rw [put_self]; exact hchild⟩

/-- **The loop ends**: each turn makes the range cover one more of the resources below `p`. -/
theorem expandLoop_spec (hp : below = .child p s₀ e₀ sib :: path) (hh : Holds h below c)
    (hbelow : Below root a b below) (hok : c.Ok s₀ e₀) (hnew : Ready h (plug below c) new s e)
    (hfuel : uncovered s e c < fuel) :
    Ends (expandLoop fuel h p new) fun h' =>
      h' = h ∧ Out s₀ e₀ s e ∨ ∃ s1 e1, s1 ≤ s ∧ e ≤ e1 ∧ Placed h' below c new s1 e1 := by
  induction fuel generalizing h s e with
  | zero => omega
  | succ fuel ih =>
    rw [expandLoop]
    refine .bind (insertResourceConflict_spec hp hh hbelow hnew) ?_
    rintro ⟨h1, x⟩ (⟨rfl, rfl, hout⟩ | ⟨rfl, hplaced⟩ | ⟨rfl, hin, down, s', e', c',
      sib', rfl, hpart⟩)
    · exact .ite (fun _ => .ret (.inl ⟨rfl, hout⟩)) (absurd (.inr rfl))
    · refine .ite (fun _ => .ret (.inr ⟨s, e, le_refl s, le_refl e, hplaced⟩)) fun hc => ?_
      exact absurd (.inl rfl) hc
    have hmove : Holds h1 (down ++ below) (.cons x s' e' c' sib') := (holds_append down).mpr hh
    obtain ⟨hx0, hmem, -, -⟩ := hmove.forest
    have hxp : x ≠ p := by
      rintro rfl
      refine (nodup_append.mp hmove.nodup).2.2 x mem_cons_self x ?_ rfl
      rw [pathNodes_append, hp]
      exact mem_append_right _ mem_cons_self
    refine .ite (fun hc => absurd hc ?_) fun _ => ?_
    · simp only [hx0, hxp, or_self, not_false_eq_true]
    rw [expandOver]
    refine .bind (.bind_eq (load_eq hx0) ⟨_, modify_eq hnew.ne_zero _, rfl⟩) ?_
    rintro h2 rfl
    rw [hnew.start_eq, hnew.end_eq, hmem]
    -- The conflicting resource lies within `p`, and so does the new range.
    have hrange : s₀ ≤ s' ∧ e' ≤ e₀ := by
      obtain ⟨hp, hlo, -, hhi, -⟩ := ok_plug.mp hok
      have hbounds := hp.bounds
      omega
    generalize hs1 : (if s' < s then s' else s) = s1
    generalize he1 : (if e < e' then e' else e) = e1
    have hs : s1 ≤ s ∧ s1 ≤ s' ∧ s₀ ≤ s1 := by
      simp only [Out, not_or] at hin
      split at hs1 <;> omega
    have he : e ≤ e1 ∧ e' ≤ e1 ∧ e1 ≤ e₀ := by
      simp only [Out, not_or] at hin
      split at he1 <;> omega
    have hless : uncovered s1 e1 (plug down (.cons x s' e' c' sib')) <
        uncovered s e (plug down (.cons x s' e' c' sib')) := by
      refine uncovered_plug_lt hs.1 he.1 ?_
      have hc' : uncovered s1 e1 c' ≤ uncovered s e c' := uncovered_anti hs.1 he.1
      have hsib' : uncovered s1 e1 sib' ≤ uncovered s e sib' := uncovered_anti hs.1 he.1
      rw [uncovered, uncovered, if_pos ⟨hs.2.1, he.2.1⟩, if_neg (by omega)]
      omega
    refine .mono (ih (hh.frame (put_off hnew.notMem _))
      (ready_put hnew.ne_zero hnew.notMem hnew.child_eq) (Nat.lt_of_lt_of_le hless (by omega))) ?_
    rintro h3 (⟨-, hout⟩ | ⟨s2, e2, hs2, he2, hplaced⟩)
    · simp only [Out] at hout hin
      omega
    · exact .inr ⟨s2, e2, hs2.trans hs.1, he.1.trans he2, hplaced⟩

/-! ### `__release_resource` -/

/-- The resources of a chain, children apart. -/
def Forest.tops : Forest → List Ptr
  | nil => []
  | cons x _ _ _ siblings => x :: siblings.tops

theorem releaseLoop_spec (hh : Holds h (fr :: path) f) (hold : old ∈ f.tops)
    (hfuel : f.nodes.length < fuel) :
    Ends (releaseLoop fuel h old fr.slot) fun (h', ret) => ret = 0 ∧
      ∃ skip s e c sib, plug skip (.cons old s e c sib) = f ∧
      Holds h' (skip ++ fr :: path) sib := by
  induction fuel generalizing fr path f with
  | zero => omega
  | succ fuel ih =>
    cases f with
    | nil => exact absurd hold not_mem_nil
    | cons y s e c sib =>
      obtain ⟨h0, hmem, hc, hsib⟩ := hh.forest
      rw [releaseLoop, readSlot_eq hh.around, Option.bind_some, Forest.head, if_neg h0]
      refine .ite (fun hy => ?_) fun hy => ?_
      · subst hy
        have hnd := hh.nodup
        simp only [nodes, cons_append, append_assoc, nodup_cons, mem_append, not_or] at hnd
        obtain ⟨⟨-, hys, hyp⟩, hnd⟩ := hnd
        have hnd' := nodup_append.mp (nodup_append.mp hnd).2.1
        refine .bind_eq (load_eq h0) ?_
        rw [hmem]
        refine .bind (writeSlot_spec hh.around hnd'.2.1) ?_
        rintro h1 ⟨hpath1, hframe1⟩
        refine .bind_eq (modify_eq h0 _) (.ret ⟨rfl, [], s, e, c, sib, rfl, ?_⟩)
        refine ⟨hpath1.frame (put_off hyp _), hsib.frame fun z hz => ?_, (nodup_append.mp hnd).2.1⟩
        have hzy : z ≠ y := fun hc => hys (hc ▸ hz)
        rw [put_of_ne hzy, hframe1 z fun hc => hnd'.2.2 z hz z hc rfl]
      · have hmove : Holds h (.sibling y s e c :: fr :: path) sib := holds_cons.mpr hh
        have hold' : old ∈ sib.tops := (mem_cons.mp hold).resolve_left (Ne.symm hy)
        rw [nodes, length_cons, length_append] at hfuel
        refine .mono (ih hmove hold' (by omega)) ?_
        rintro ⟨h1, ret⟩ ⟨hret, skip, s', e', c', sib', rfl, hh1⟩
        refine ⟨hret, skip ++ [.sibling y s e c], s', e', c', sib', plug_append skip, ?_⟩
        rwa [append_assoc, singleton_append]

/-! ### Runs -/

theorem tops_append {A : Forest} : (A.append f).tops = A.tops ++ f.tops := by
  induction A with
  | nil => rfl
  | cons y s e c sib _ ihs => rw [append, tops, ihs, tops, cons_append]

theorem Below.of_append (hb : Below root s e (skip ++ fr :: path)) :
    Below root s e (fr :: path) := by
  obtain ⟨down, hdown⟩ := hb
  have hlast := congrArg List.getLast? hdown
  rw [getLast?_append_of_ne_nil _ (cons_ne_nil fr path), getLast?_concat] at hlast
  exact getLast?_eq_some_iff.mp hlast

theorem wellFormed_of_ok (hok : (plug path f).Ok s e) (hbelow : Below root s e path) :
    WellFormed (plug path f) := by
  obtain ⟨kids, hkids⟩ := hbelow.plug_eq (f := f)
  rw [hkids] at hok ⊢
  exact ⟨root, s, e, kids, rfl, hok.2.1, hok.2.2.2.1⟩

/-- **A release** takes out the resource and what is below it. -/
theorem release_ok (hR : TreeOk h t) (hlegal : (ResCall.release old).Legal t) :
    Ends (releaseResource h old) fun (h', ret) => ∃ t', TreeOk h' t' ∧ ret = 0 ∧
      Removes t old t' := by
  obtain ⟨hh, root, s₀, e₀, kids, rfl, hse, hok⟩ := hR
  obtain ⟨hmem, hne⟩ := hlegal
  have hok' : (Forest.cons root s₀ e₀ kids .nil).Ok s₀ e₀ :=
    ⟨le_refl _, hse, le_refl _, hok, trivial⟩
  rw [nodes, mem_cons, nodes, append_nil] at hmem
  obtain ⟨path, s, e, c, sib, rfl⟩ := exists_plug (hmem.resolve_left hne)
  have hbelow : Below root s₀ e₀ (path ++ [.child root s₀ e₀ .nil]) := ⟨path, rfl⟩
  let chain : Forest := .cons old s e c sib
  have hplug : plug (path ++ [.child root s₀ e₀ .nil]) chain =
      .cons root s₀ e₀ (plug path chain) .nil := plug_append path
  rw [← hplug] at hh hok' ⊢
  generalize path ++ [.child root s₀ e₀ .nil] = path at hh hok' hbelow ⊢
  have hat := holds_plug.mpr hh
  obtain ⟨h0, hold, -, -⟩ := hat.forest
  have hup : up path ≠ 0 := by
    obtain ⟨down, rfl⟩ := hbelow
    exact up_ne hat.around
  obtain ⟨skip, q, s1, e1, sib1, rest, rfl, hskip⟩ := exists_split hup
  rw [releaseResource]
  refine .bind_eq (load_eq h0) ?_
  rw [hold, hskip.up_append, up]
  have hchain := (holds_append skip).mp hat
  have htops : old ∈ (plug skip chain).tops := by
    obtain ⟨A, hA⟩ := hskip.append
    rw [hA, tops_append]
    exact mem_append_right _ mem_cons_self
  have hfuel := hchain.length_lt
  refine .mono (releaseLoop_spec hchain htops (by omega)) ?_
  rintro ⟨h', ret⟩ ⟨hret, skip', s', e', c', sib', hsame, hh'⟩
  have hplug' : plug (skip ++ .child q s1 e1 sib1 :: rest) chain =
      plug (skip' ++ .child q s1 e1 sib1 :: rest) (.cons old s' e' c' sib') := by
    rw [plug_append, plug_append, hsame]
  rw [hplug', ok_plug] at hok'
  refine ⟨plug (skip' ++ .child q s1 e1 sib1 :: rest) sib', ⟨holds_plug.mp hh', ?_⟩, hret, ?_⟩
  · refine wellFormed_of_ok (ok_plug.mpr ⟨hok'.1, ?_⟩) (hbelow.of_append.append skip')
    obtain ⟨hlo, hse', -, -, hsib'⟩ := hok'.2
    exact hsib'.weaken (by omega)
  · exact ⟨_, s', e', c', sib', hplug', rfl⟩

/-- The resource to put the new one below, and the memory once the caller has filled that in. -/
theorem exists_at (hR : TreeOk h t) (hlegal : p ∈ t.nodes ∧ new ≠ 0 ∧ new ∉ t.nodes ∧ r.child = 0) :
    TreeOk (put h new r) t ∧ ∃ root a b s₀ e₀ sib path c,
      Below root a b (.child p s₀ e₀ sib :: path) ∧ plug (.child p s₀ e₀ sib :: path) c = t ∧
      t.Ok a b ∧ Holds (put h new r) (.child p s₀ e₀ sib :: path) c ∧
      Ready (put h new r) (plug (.child p s₀ e₀ sib :: path) c) new r.start r.end_ := by
  obtain ⟨hp, hne, hnew, hchild⟩ := hlegal
  refine ⟨⟨hR.1.frame (put_off hnew _), hR.2⟩, ?_⟩
  obtain ⟨hh, root, a, b, kids, rfl, hse, hok⟩ := hR
  obtain ⟨s₀, e₀, sib, path, c, hbelow, hplug⟩ := exists_below hp
  refine ⟨root, a, b, s₀, e₀, sib, path, c, hbelow, hplug,
    ⟨le_refl _, hse, le_refl _, hok, trivial⟩, ?_, ?_⟩
  · rw [← hplug] at hh hnew
    exact (holds_plug.mpr hh).frame (put_off hnew _)
  · rw [hplug]
    exact ready_put hne hnew hchild

theorem Placed.treeOk (hp : Placed h' below c new s e) (hok : (plug below c).Ok a b)
    (hbelow : Below root a b below) :
    ∃ q B t', TreeOk h' t' ∧ Adds (plug below c) q new s e B t' := by
  obtain ⟨down, B, C, rfl, hroom, hall, hfrom, hh⟩ := hp
  rw [← plug_append] at hok ⊢
  obtain ⟨htree, hadds⟩ := adds_ok hok (hbelow.append down) hroom hall hfrom hh
  exact ⟨_, B, _, htree, hadds⟩

theorem busy_of_ne (hx : x ≠ 0) : busy x = -EBUSY := if_neg hx

theorem request_ok (hR : TreeOk h t) (hlegal : (ResCall.request p new r).Legal t) :
    Ends (requestResourceConflict (put h new r) p new) fun (h', x) =>
      ∃ t', TreeOk h' t' ∧ resSpec t (.request p new r) (busy x) t' := by
  obtain ⟨hsame, root, a, b, s₀, e₀, sib, path, c, hbelow, rfl, hok, hh, hready⟩ :=
    exists_at hR hlegal
  refine .mono (requestResourceConflict_spec rfl hh hready) ?_
  rintro ⟨h', x⟩ (⟨hres, -⟩ | ⟨hin, skip, f', hskip, rfl,
    ⟨hx, hfrom, hh'⟩ | ⟨hres, s', e', c', sib', rfl, -⟩⟩)
  · cases hres
    exact ⟨_, hsame, .inr ⟨busy_of_ne hh.around.1, rfl⟩⟩
  · obtain rfl : x = 0 := hx
    rw [← plug_append] at hok ⊢
    obtain ⟨htree, hadds⟩ := adds_ok (B := .nil) hok (hbelow.append skip)
      ((room_child rfl hin).skipped hskip) trivial hfrom hh'
    rw [hskip.siblings.up_append] at hadds
    exact ⟨_, htree, .inl ⟨rfl, hadds⟩⟩
  · obtain rfl : h' = put h new r := hres
    exact ⟨_, hsame, .inr ⟨busy_of_ne ((holds_append skip).mpr hh).forest.1, rfl⟩⟩

theorem insert_ok (hR : TreeOk h t) (hlegal : (ResCall.insert p new r).Legal t) :
    Ends (insertResourceConflict (put h new r) p new) fun (h', x) =>
      ∃ t', TreeOk h' t' ∧ resSpec t (.insert p new r) (busy x) t' := by
  obtain ⟨hsame, root, a, b, s₀, e₀, sib, path, c, hbelow, rfl, hok, hh, hready⟩ :=
    exists_at hR hlegal
  refine .mono (insertResourceConflict_spec rfl hh hbelow hready) ?_
  rintro ⟨h', x⟩ (⟨rfl, rfl, -⟩ | ⟨rfl, hplaced⟩ | ⟨rfl, -, down, s', e', c', sib', rfl, -⟩)
  · exact ⟨_, hsame, .inr ⟨busy_of_ne hh.around.1, rfl⟩⟩
  · obtain ⟨q, B, t', htree, hadds⟩ := hplaced.treeOk hok hbelow
    exact ⟨t', htree, .inl ⟨rfl, q, B, hadds⟩⟩
  · exact ⟨_, hsame, .inr ⟨busy_of_ne ((holds_append down).mpr hh).forest.1, rfl⟩⟩

theorem insertExpandToFit_ok (hR : TreeOk h t)
    (hlegal : (ResCall.insertExpandToFit p new r).Legal t) :
    Ends (insertResourceExpandToFit (put h new r) p new) fun h' =>
      ∃ t', TreeOk h' t' ∧ resSpec t (.insertExpandToFit p new r) 0 t' := by
  obtain ⟨hsame, root, a, b, s₀, e₀, sib, path, c, hbelow, rfl, hok, hh, hready⟩ :=
    exists_at hR hlegal
  rw [insertResourceExpandToFit]
  refine .bind_eq (load_eq hlegal.2.1) (.ite (fun _ => .ret ⟨_, hsame, .inr rfl⟩) fun _ => ?_)
  have hfuel : uncovered r.start r.end_ c < loopBound := by
    have hle : uncovered r.start r.end_ c ≤ c.nodes.length := uncovered_le_length
    have := hh.length_lt
    omega
  refine .mono (expandLoop_spec rfl hh hbelow (ok_plug.mp hok).2 hready hfuel) ?_
  rintro h' (⟨rfl, -⟩ | ⟨s1, e1, hs, he, hplaced⟩)
  · exact ⟨_, hsame, .inr rfl⟩
  · obtain ⟨q, B, t', htree, hadds⟩ := hplaced.treeOk hok hbelow
    exact ⟨t', htree, .inl ⟨q, s1, e1, B, hs, he, hadds⟩⟩

/-- **A legal call** ends, does what it is for and keeps the tree. -/
theorem resStep_ok (h : Mem Resource) (t : Forest) (call : ResCall) (hR : TreeOk h t)
    (hlegal : call.Legal t) :
    ∃ h' ret t', resStep h call = some (h', ret) ∧ resSpec t call ret t' ∧ TreeOk h' t' := by
  cases call with
  | request root new r =>
    obtain ⟨⟨h', x⟩, hrun, t', htree, hspec⟩ := request_ok hR hlegal
    exact ⟨h', busy x, t', by rw [resStep, hrun]; rfl, hspec, htree⟩
  | insert parent new r =>
    obtain ⟨⟨h', x⟩, hrun, t', htree, hspec⟩ := insert_ok hR hlegal
    exact ⟨h', busy x, t', by rw [resStep, hrun]; rfl, hspec, htree⟩
  | insertExpandToFit root new r =>
    obtain ⟨h', hrun, t', htree, hspec⟩ := insertExpandToFit_ok hR hlegal
    exact ⟨h', 0, t', by rw [resStep, hrun]; rfl, hspec, htree⟩
  | release old =>
    obtain ⟨⟨h', ret⟩, hrun, t', htree, hspec⟩ := release_ok hR hlegal
    exact ⟨h', ret, t', hrun, hspec, htree⟩

/-- **Every sequence of calls on a well-formed tree** keeps it well formed, with all pointers of
the tree in memory right; every call ends and adds its resource, takes one out with what is below
it, or leaves the tree as it is. -/
theorem resource_calls_follow (h : Mem Resource) (t : Forest) (hh : Holds h [] t)
    (ht : WellFormed t) (calls : List ResCall) :
    Run.Follows (fun t call => call.Legal t) TreeOk resStep resSpec h t calls :=
  Run.follows_of_step resStep_ok ⟨hh, ht⟩ calls

/-- A root with two children. -/
def ioTree : Forest := .cons 4 0 99 (.cons 8 10 19 .nil (.cons 12 30 39 .nil .nil)) .nil

def ioMem : Mem Resource := fun p =>
  if p = 4 then ⟨0, 99, 0, 0, 8⟩ else if p = 8 then ⟨10, 19, 4, 12, 0⟩
  else if p = 12 then ⟨30, 39, 4, 0, 0⟩ else ⟨0, 0, 0, 0, 0⟩

theorem ioMem_holds : Holds ioMem [] ioTree := by
  refine ⟨trivial, ⟨by decide, rfl, ⟨by decide, rfl, trivial, by decide, rfl, trivial, trivial⟩,
    trivial⟩, ?_⟩
  decide

theorem ioTree_wellFormed : WellFormed ioTree :=
  ⟨4, 0, 99, _, rfl, by decide, by decide, by decide, by decide, trivial, by decide, by decide,
    by decide, trivial, trivial⟩

/-- A resource that covers both children, one that has to grow, and releases. -/
theorem resource_calls_follow_ioTree :
    Run.Follows (fun t call => call.Legal t) TreeOk resStep resSpec ioMem ioTree
      [.insert 4 16 ⟨5, 50, 0, 0, 0⟩, .insertExpandToFit 4 20 ⟨45, 60, 0, 0, 0⟩, .release 8] :=
  resource_calls_follow ioMem ioTree ioMem_holds ioTree_wellFormed _

/-- The root has no parent, and `release_resource` follows its null pointer. -/
theorem release_root_faults : WellFormed ioTree ∧ Holds ioMem [] ioTree ∧ (4 : Ptr) ∈ ioTree.nodes ∧
    resStep ioMem (.release 4) = none :=
  ⟨ioTree_wellFormed, ioMem_holds, by decide, rfl⟩

end SilanKernel.ResourceTree
