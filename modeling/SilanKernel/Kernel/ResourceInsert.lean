import SilanKernel.Kernel.ResourceShape

/-!
# SilanKernel.Kernel.ResourceInsert

What the **loops** of `kernel/resource.c` find and do.

The range of the new resource is `s` to `e` throughout. A loop over siblings moves the cursor over
the resources that end before `s`; a step down moves it to the children of a resource that contains
the range. The order of a tree is `Forest.Ok`, its bounds at a slot are `lo` and `hi`.
-/

namespace SilanKernel.ResourceTree

open List Memory Forest

/-! ### Order -/

theorem Forest.All.imp {P Q : Nat → Nat → Prop} {f : Forest} (hPQ : ∀ s e, P s e → Q s e)
    (hf : f.All P) : f.All Q := by
  induction f with
  | nil => trivial
  | cons y s e c sib _ ihs => exact ⟨hPQ s e hf.1, ihs hf.2⟩

/-- The resources of the chain are within `lo` and `hi`, sorted and disjoint, and so are the
children of each within its own range. -/
def Forest.Ok (lo hi : Nat) : Forest → Prop
  | nil => True
  | cons _ s e children siblings =>
    lo ≤ s ∧ s ≤ e ∧ e ≤ hi ∧ children.Ok s e ∧ siblings.Ok (e + 1) hi

/-- Where the resources in a slot may begin and end; `L` and `H` are the bounds of the whole. -/
def lo (L : Nat) : Path → Nat
  | [] => L
  | .child _ s _ _ :: _ => s
  | .sibling _ _ e _ :: _ => e + 1

def hi (H : Nat) : Path → Nat
  | [] => H
  | .child _ _ e _ :: _ => e
  | .sibling _ _ _ _ :: path => hi H path

def PathOk (L H : Nat) : Path → Prop
  | [] => True
  | .child _ s e siblings :: path =>
    lo L path ≤ s ∧ s ≤ e ∧ e ≤ hi H path ∧ siblings.Ok (e + 1) (hi H path) ∧ PathOk L H path
  | .sibling _ s e children :: path =>
    lo L path ≤ s ∧ s ≤ e ∧ e ≤ hi H path ∧ children.Ok s e ∧ PathOk L H path

variable {h : Mem Resource} {path : Path} {fr : Frame} {f B C : Forest} {p new : Ptr}
  {s e s' e' a : Nat}

/-- **The tree is in order** when the resources around a slot and those in it are. -/
theorem ok_plug : (plug path f).Ok L H ↔ PathOk L H path ∧ f.Ok (lo L path) (hi H path) := by
  induction path generalizing f with
  | nil => exact (and_iff_right trivial).symm
  | cons fr path ih =>
    rw [plug, ih]
    cases fr with
    | child y s e siblings =>
      constructor
      · rintro ⟨hp, hlo, hse, hhi, hc, hs⟩
        exact ⟨⟨hlo, hse, hhi, hs, hp⟩, hc⟩
      · rintro ⟨⟨hlo, hse, hhi, hs, hp⟩, hc⟩
        exact ⟨hp, hlo, hse, hhi, hc, hs⟩
    | sibling y s e children =>
      constructor
      · rintro ⟨hp, hlo, hse, hhi, hc, hs⟩
        exact ⟨⟨hlo, hse, hhi, hc, hp⟩, hs⟩
      · rintro ⟨⟨hlo, hse, hhi, hc, hp⟩, hs⟩
        exact ⟨hp, hlo, hse, hhi, hc, hs⟩

/-- The chain is empty or begins at `a` or later. -/
def From (a : Nat) : Forest → Prop
  | .nil => True
  | .cons _ s _ _ _ => a ≤ s

theorem Forest.Ok.from (hf : f.Ok a b) (ha : From a' f) : f.Ok a' b := by
  cases f with
  | nil => trivial
  | cons y s e' c sib => exact ⟨ha, hf.2⟩

theorem Forest.Ok.weaken (hf : f.Ok a b) (ha : a' ≤ a) : f.Ok a' b := by
  cases f with
  | nil => trivial
  | cons y s e c sib => exact ⟨ha.trans hf.1, hf.2⟩

theorem Forest.Ok.of_append (hf : (B.append C).Ok a b) : C.Ok a b := by
  induction B generalizing a with
  | nil => exact hf
  | cons y s e c sib _ ihs =>
    obtain ⟨hlo, hse, -, -, hs⟩ := hf
    exact (ihs hs).weaken (by omega)

/-- The first part of a chain, up to a resource that ends at `e` or before. -/
theorem Forest.Ok.cut (hf : (B.append C).Ok a b) (hB : B.All fun _ e' => e' ≤ e) : B.Ok a e := by
  induction B generalizing a with
  | nil => trivial
  | cons y s' e' c sib _ ihs =>
    obtain ⟨hlo, hse, -, hc, hs⟩ := hf
    exact ⟨hlo, hse, hB.1, hc, ihs hs hB.2⟩

/-- **The new resource takes in the part of a chain that it covers.** -/
theorem Forest.Ok.insert (hf : (B.append C).Ok a b) (ha : a ≤ s) (hse : s ≤ e) (hb : e ≤ b)
    (hB : B.All fun s' e' => s ≤ s' ∧ e' ≤ e) (hC : From (e + 1) C) :
    (Forest.cons new s e B C).Ok a b := by
  refine ⟨ha, hse, hb, ?_, hf.of_append.from hC⟩
  cases B with
  | nil => trivial
  | cons y s' e' c sib =>
    refine Forest.Ok.from (a := a) (Forest.Ok.cut hf ?_) hB.1.1
    exact Forest.All.imp (fun _ _ hs => hs.2) hB

/-! ### Moving over siblings -/

theorem pathNodes_append : pathNodes (skip ++ path) = pathNodes skip ++ pathNodes path := by
  induction skip with
  | nil => rfl
  | cons fr skip ih => rw [cons_append, pathNodes, ih, pathNodes, append_assoc]

/-- The cursor has moved over siblings. -/
def Siblings (skip : Path) : Prop := ∀ fr ∈ skip, ∃ x s e c, fr = .sibling x s e c

theorem siblings_nil : Siblings [] := fun _ hfr => absurd hfr not_mem_nil

/-- What does not look at siblings is the same before and after them. -/
theorem Siblings.append_eq {f : Path → α}
    (hf : ∀ x s e c path, f (.sibling x s e c :: path) = f path) (hs : Siblings skip) :
    f (skip ++ path) = f path := by
  induction skip with
  | nil => rfl
  | cons fr skip ih =>
    obtain ⟨x, s', e', c, rfl⟩ := hs fr mem_cons_self
    exact (hf ..).trans (ih fun fr' hfr' => hs fr' (mem_cons_of_mem _ hfr'))

theorem Siblings.up_append : Siblings skip → up (skip ++ path) = up path :=
  append_eq fun _ _ _ _ _ => rfl

theorem Siblings.hi_append : Siblings skip → hi H (skip ++ path) = hi H path :=
  append_eq fun _ _ _ _ _ => rfl

/-- The cursor has moved over siblings that end before `s`. -/
def Skipped (s : Nat) (skip : Path) : Prop :=
  ∀ fr ∈ skip, ∃ x s' e' c, fr = .sibling x s' e' c ∧ e' < s

theorem skipped_nil : Skipped s [] := fun _ hfr => absurd hfr not_mem_nil

theorem Skipped.snoc (hs : Skipped s skip) (he : e' < s) :
    Skipped s (skip ++ [.sibling x s' e' c]) := by
  intro fr hfr
  rcases mem_append.mp hfr with hfr | hfr
  · exact hs fr hfr
  · exact ⟨x, s', e', c, mem_singleton.mp hfr, he⟩

theorem Skipped.siblings (hs : Skipped s skip) : Siblings skip := fun fr hfr => by
  obtain ⟨x, s', e', c, rfl, -⟩ := hs fr hfr
  exact ⟨x, s', e', c, rfl⟩

theorem Skipped.lo_append (hs : Skipped s skip) (hlo : lo L path ≤ s) :
    lo L (skip ++ path) ≤ s := by
  cases skip with
  | nil => exact hlo
  | cons fr skip =>
    obtain ⟨x, s', e', c, rfl, he⟩ := hs fr mem_cons_self
    exact he

/-! ### `__request_resource` -/

/-- A resource outside of the tree, with its range filled in and without children. -/
structure Ready (h : Mem Resource) (t : Forest) (new : Ptr) (s e : Nat) : Prop where
  ne_zero : new ≠ 0
  notMem : new ∉ t.nodes
  start_eq : (h new).start = s
  end_eq : (h new).end_ = e
  child_eq : (h new).child = 0

/-- The loop ends with the new resource in the chain, or at the first resource that overlaps. -/
def Requested (h : Mem Resource) (path : Path) (f : Forest) (new : Ptr) (s e : Nat)
    (res : Mem Resource × Ptr) : Prop :=
  ∃ skip f', Skipped s skip ∧ plug skip f' = f ∧
    (res.2 = 0 ∧ From (e + 1) f' ∧ Holds res.1 (skip ++ path) (.cons new s e .nil f') ∨
      res.1 = h ∧ ∃ s' e' c sib, f' = .cons res.2 s' e' c sib ∧ s' ≤ e ∧ s ≤ e')

theorem requestLoop_spec (hh : Holds h (fr :: path) f)
    (hnew : Ready h (plug (fr :: path) f) new s e) (hfuel : f.nodes.length < fuel) :
    Ends (requestLoop fuel h (up (fr :: path)) new s e fr.slot)
      (Requested h (fr :: path) f new s e) := by
  induction fuel generalizing fr path f with
  | zero => omega
  | succ fuel ih =>
    rw [requestLoop, readSlot_eq hh.around, Option.bind_some]
    have hlink : From (e + 1) f →
        Ends ((linkBefore h (up (fr :: path)) new f.head fr.slot).bind fun h => some (h, 0))
          (Requested h (fr :: path) f new s e) := by
      intro hfrom
      refine .bind (linkBefore_spec hh hnew.ne_zero hnew.notMem hnew.child_eq) fun h1 hh1 => ?_
      rw [hnew.start_eq, hnew.end_eq] at hh1
      exact .ret ⟨[], f, skipped_nil, rfl, .inl ⟨rfl, hfrom, hh1.1⟩⟩
    cases f with
    | nil => exact .ite (fun _ => hlink trivial) (absurd (.inl rfl))
    | cons y s' e' c sib =>
      obtain ⟨h0, hmem, -, -⟩ := hh.forest
      simp only [Forest.head, hmem]
      refine .ite (fun hc => hlink (hc.resolve_left h0)) fun hc => ?_
      refine .ite (fun hskip => ?_) fun hstop => ?_
      · rw [nodes, length_cons, length_append] at hfuel
        have hmove : Holds h (.sibling y s' e' c :: fr :: path) sib := holds_cons.mpr hh
        refine .mono (ih hmove hnew (by omega)) ?_
        rintro ⟨h1, r⟩ ⟨skip, f', hs, rfl, hres⟩
        refine ⟨skip ++ [.sibling y s' e' c], f', hs.snoc hskip, plug_append skip, ?_⟩
        rwa [append_assoc, singleton_append]
      · refine .ret ⟨[], _, skipped_nil, rfl, .inr ⟨rfl, s', e', c, sib, rfl, ?_⟩⟩
        omega

theorem Holds.length_lt (hh : Holds h path f) : f.nodes.length + 2 < loopBound :=
  length_lt_loopBound (nodup_append.mp hh.nodup).1

section

variable {c sib : Forest}

/-- The range is not within that of `p`. -/
def Out (s₀ e₀ s e : Nat) : Prop := e < s ∨ s < s₀ ∨ e₀ < e

theorem requestResourceConflict_spec (hp : below = .child p s₀ e₀ sib :: path)
    (hh : Holds h below c) (hnew : Ready h (plug below c) new s e) :
    Ends (requestResourceConflict h p new) fun res =>
      res = (h, p) ∧ Out s₀ e₀ s e ∨ ¬ Out s₀ e₀ s e ∧ Requested h below c new s e res := by
  subst hp
  obtain ⟨hp0, hpmem, -, -⟩ := hh.around
  rw [requestResourceConflict]
  refine .bind_eq (load_eq hnew.ne_zero) ?_
  rw [hnew.start_eq, hnew.end_eq]
  refine .ite (fun hc => .ret (.inl ⟨rfl, .inl hc⟩)) fun hse => ?_
  refine .bind_eq (load_eq hp0) ?_
  rw [hpmem]
  refine .ite (fun hc => .ret (.inl ⟨rfl, .inr (.inl hc)⟩)) fun hlo => ?_
  refine .ite (fun hc => .ret (.inl ⟨rfl, .inr (.inr hc)⟩)) fun hhi => ?_
  have hfuel : c.nodes.length < loopBound := by
    have := hh.length_lt
    omega
  refine .mono (requestLoop_spec hh hnew hfuel) fun res hres => .inr ⟨?_, hres⟩
  rintro (hc | hc | hc)
  · exact hse hc
  · exact hlo hc
  · exact hhi hc

/-! ### `__insert_resource`, first loop -/

/-- The slot is one for resources from `s` to `e`. -/
def Room (path : Path) (s e : Nat) : Prop := s ≤ e ∧ ∀ L H, lo L path ≤ s ∧ e ≤ hi H path

theorem room_child (hp : below = .child p s₀ e₀ sib :: path) (hout : ¬ Out s₀ e₀ s e) :
    Room below s e := by
  subst hp
  simp only [Out, not_or, Nat.not_lt] at hout
  exact ⟨hout.1, fun _ _ => hout.2⟩

theorem Room.skipped (hr : Room path s e) (hs : Skipped s skip) : Room (skip ++ path) s e := by
  refine ⟨hr.1, fun L H => ⟨hs.lo_append (hr.2 L H).1, ?_⟩⟩
  rw [hs.siblings.hi_append]
  exact (hr.2 L H).2

/-- How the loop is left: the new resource is in its place, or it is not within the range of the
resource the loop began with, or the cursor is at a resource that the new one must cover. -/
def Descended (h : Mem Resource) (p : Ptr) (s₀ e₀ : Nat) (below : Path) (c : Forest) (new : Ptr)
    (s e : Nat) (res : Mem Resource × Descent) : Prop :=
  match res.2 with
  | .ret r =>
    r = p ∧ res.1 = h ∧ Out s₀ e₀ s e ∨
      r = 0 ∧ ∃ down f, plug down f = c ∧ Room (down ++ below) s e ∧ From (e + 1) f ∧
        Holds res.1 (down ++ below) (.cons new s e .nil f)
  | .stop q x =>
    res.1 = h ∧ ¬ Out s₀ e₀ s e ∧ ∃ down s' e' c' sib', plug down (.cons x s' e' c' sib') = c ∧
      Room (down ++ below) s e ∧ up (down ++ below) = q

theorem descend_spec (hp : below = .child p s₀ e₀ sib :: path) (hh : Holds h below c)
    (hnew : Ready h (plug below c) new s e) (hfuel : c.nodes.length < fuel) :
    Ends (descend fuel h p new) (Descended h p s₀ e₀ below c new s e) := by
  induction fuel generalizing p s₀ e₀ sib path below c with
  | zero => omega
  | succ fuel ih =>
    rw [descend]
    refine .bind (requestResourceConflict_spec hp hh hnew) ?_
    rintro ⟨h1, first⟩ (⟨hres, hout⟩ | ⟨hin, skip, f', hskip, rfl,
      ⟨hr, hfrom, hh1⟩ | ⟨hsame, hover⟩⟩)
    · cases hres
      exact .ite (fun _ => .ret (.inl ⟨rfl, rfl, hout⟩)) (absurd (.inr (.inl rfl)))
    · obtain rfl : first = 0 := hr
      refine .ite (fun _ => .ret (.inr ⟨rfl, skip, f', rfl, ?_, hfrom, hh1⟩)) fun hc =>
        absurd (.inl rfl) hc
      exact (room_child hp hin).skipped hskip
    obtain rfl : h1 = h := hsame
    obtain ⟨s', e', c', sib', hf', -, -⟩ := hover
    obtain rfl : f' = .cons first s' e' c' sib' := hf'
    have hmove : Holds h1 (skip ++ below) (.cons first s' e' c' sib') := (holds_append skip).mpr hh
    have hroom : Room (skip ++ below) s e := (room_child hp hin).skipped hskip
    obtain ⟨h0, hmem, -, -⟩ := hmove.forest
    have hplug : plug (.child first s' e' sib' :: (skip ++ below)) c' =
        plug below (plug skip (.cons first s' e' c' sib')) := plug_append skip
    rw [← hplug] at hnew
    have hnp : first ≠ p := by
      rintro rfl
      refine (nodup_append.mp hmove.nodup).2.2 first ?_ first ?_ rfl
      · exact mem_cons_self
      · rw [pathNodes_append, hp]
        exact mem_append_right _ mem_cons_self
    have hnn : first ≠ new := by
      rintro rfl
      exact hnew.notMem (perm_plug.mem_iff.mpr (by simp [pathNodes, Frame.nodes]))
    refine .ite (fun hc => absurd hc (by simp only [h0, hnp, hnn, or_self, not_false_eq_true]))
      fun _ => ?_
    refine .bind_eq (load_eq h0) (.bind_eq (load_eq hnew.ne_zero) ?_)
    rw [hnew.start_eq, hnew.end_eq, hmem]
    have hstop : Descended h1 p s₀ e₀ below (plug skip (.cons first s' e' c' sib')) new s e
        (h1, .stop p first) :=
      ⟨rfl, hin, skip, s', e', c', sib', rfl, hroom, hp ▸ hskip.siblings.up_append⟩
    refine .ite (fun _ => .ret hstop) fun hinside => ?_
    refine .ite (fun _ => .ret hstop) fun _ => ?_
    simp only [not_or, Nat.not_lt] at hinside
    have hlen : c'.nodes.length < fuel := by
      have hperm : (plug skip (.cons first s' e' c' sib')).nodes.Perm _ := perm_plug
      have hlen := hperm.length_eq
      simp only [nodes, length_append, length_cons] at hlen
      omega
    refine .mono (ih rfl (holds_cons.mpr hmove) hnew hlen) ?_
    -- What was found below `first` is seen from `p` again.
    have hdown : ∀ down f, plug down f = c' →
        plug (down ++ .child first s' e' sib' :: skip) f = plug skip
        (.cons first s' e' c' sib') := by
      rintro down f rfl
      exact plug_append down
    rintro ⟨h2, r | ⟨q, x⟩⟩ hd
    · rcases hd with ⟨-, -, hout⟩ | ⟨hr, down, f, hf, hroom', hfrom, hh2⟩
      · exact absurd hout (by simp only [Out]; have := hroom.1; omega)
      · refine .inr ⟨hr, _, f, hdown down f hf, ?_, hfrom, ?_⟩
        · rwa [append_assoc]
        · rwa [append_assoc]
    · obtain ⟨hsame, -, down, s'', e'', c'', sib'', hf, hroom', hup⟩ := hd
      refine ⟨hsame, hin, _, s'', e'', c'', sib'', hdown down _ hf, ?_, ?_⟩
      · rwa [append_assoc]
      · rwa [append_assoc]

end

/-! ### `__insert_resource`, second loop -/

/-- The last resource of a chain. -/
def Forest.last : Forest → Ptr
  | nil => 0
  | cons x _ _ _ nil => x
  | cons _ _ _ _ siblings => siblings.last

/-- The loop ends at a resource that the new one covers in part only, or at the last of those that
it covers. -/
def CoverResult (f : Forest) (s e : Nat) : Covered → Prop
  | .conflict y => ∃ pre s' e' c sib, plug pre (.cons y s' e' c sib) = f ∧ (s' < s ∨ e < e')
  | .last y => ∃ B C : Forest, B.append C = f ∧ B ≠ .nil ∧ B.last = y ∧
      (B.All fun s' e' => s ≤ s' ∧ e' ≤ e) ∧ From (e + 1) C

theorem coverLoop_spec (hf : IsForest h p f) (hne : f ≠ .nil) (hnew : new ≠ 0)
    (hs : (h new).start = s) (he : (h new).end_ = e) (hfuel : f.nodes.length < fuel) :
    Ends (coverLoop fuel h new f.head) (CoverResult f s e) := by
  induction fuel generalizing f with
  | zero => omega
  | succ fuel ih =>
    cases f with
    | nil => exact absurd rfl hne
    | cons y s' e' c sib =>
      obtain ⟨h0, hmem, -, hsib⟩ := hf
      rw [Forest.head, coverLoop]
      refine .bind_eq (load_eq h0) (.bind_eq (load_eq hnew) ?_)
      rw [hs, he, hmem]
      refine .ite (fun hc => .ret ⟨[], s', e', c, sib, rfl, hc⟩) fun hin => ?_
      simp only [not_or, Nat.not_lt] at hin
      have hlast : From (e + 1) sib → CoverResult (.cons y s' e' c sib) s e (.last y) :=
        fun hfrom => ⟨.cons y s' e' c .nil, sib, rfl, by simp, rfl, ⟨hin, trivial⟩, hfrom⟩
      cases sib with
      | nil => exact .ite (fun _ => .ret (hlast trivial)) (absurd rfl)
      | cons z s'' e'' c' sib' =>
        have hz := hsib.1
        refine .ite (fun hc => absurd hc hz) fun _ => .bind_eq (load_eq hz) ?_
        simp only [Forest.head, hsib.2.1]
        refine .ite (fun hc => .ret (hlast hc)) fun _ => ?_
        simp only [Forest.nodes, length_cons, length_append] at hfuel
        have hlen : (Forest.cons z s'' e'' c' sib').nodes.length < fuel := by
          simp only [Forest.nodes, length_cons, length_append]
          omega
        refine .mono (ih hsib (by simp) hlen) fun r hr => ?_
        cases r with
        | conflict w =>
          obtain ⟨pre, s1, e1, c1, sib1, hplug, hpart⟩ := hr
          refine ⟨pre ++ [.sibling y s' e' c], s1, e1, c1, sib1, ?_, hpart⟩
          rw [plug_append, hplug]
          rfl
        | last w =>
          obtain ⟨B, C, happ, hB, hlast, hall, hfrom⟩ := hr
          refine ⟨.cons y s' e' c B,
            C, by rw [Forest.append, happ], by simp, ?_, ⟨hin, hall⟩, hfrom⟩
          cases B with
          | nil => exact absurd rfl hB
          | cons => exact hlast

/-! ### `__insert_resource`, adoption -/

theorem nodes_append : (B.append C).nodes = B.nodes ++ C.nodes := by
  induction B with
  | nil => rfl
  | cons y s e c sib _ ihs => simp [append, nodes, ihs]

theorem head_append (hB : B ≠ .nil) : (B.append C).head = B.head := by
  cases B with
  | nil => exact absurd rfl hB
  | cons => rfl

theorem last_mem (hB : B ≠ .nil) : B.last ∈ B.nodes := by
  induction B with
  | nil => exact absurd rfl hB
  | cons y s e c sib _ ihs =>
    cases sib with
    | nil => exact mem_cons_self
    | cons => exact mem_cons_of_mem _ (mem_append_right _ (ihs nofun))

theorem IsForest.of_append (hf : IsForest h p (B.append C)) : IsForest h p C := by
  induction B with
  | nil => exact hf
  | cons y s e c sib _ ihs => exact ihs hf.2.2.2

section

variable (hf : IsForest h p (B.append C)) (hB : B ≠ .nil)

include hf hB

theorem IsForest.last_ne : B.last ≠ 0 := by
  induction B with
  | nil => exact absurd rfl hB
  | cons y s e c sib _ ihs =>
    cases sib with
    | nil => exact hf.1
    | cons => exact ihs hf.2.2.2 nofun

theorem IsForest.last_sibling : (h B.last).sibling = C.head := by
  induction B with
  | nil => exact absurd rfl hB
  | cons y s e c sib _ ihs =>
    cases sib with
    | nil =>
      obtain ⟨-, hmem, -, -⟩ := hf
      rw [Forest.last, hmem]
      rfl
    | cons => exact ihs hf.2.2.2 nofun

/-- The chain is cut after `B`. -/
theorem IsForest.cut (hnd : B.nodes.Nodup) :
    IsForest (put h B.last { h B.last with sibling := 0 }) p B := by
  induction B with
  | nil => exact absurd rfl hB
  | cons y s e c sib _ ihs =>
    obtain ⟨h0, hmem, hc, hsib⟩ := hf
    simp only [nodes, nodup_cons, mem_append, not_or, nodup_append] at hnd
    obtain ⟨⟨hyc, hys⟩, -, hnds, hcs⟩ := hnd
    cases sib with
    | nil =>
      refine ⟨h0, ?_, hc.frame (put_off hyc _), trivial⟩
      rw [Forest.last, put_self, hmem]
      rfl
    | cons z s' e' c' sib' =>
      have hlast := last_mem (B := .cons z s' e' c' sib') (by simp)
      have hylast : y ≠ (Forest.cons z s' e' c' sib').last :=
        fun hcy => hys (by rwa [← hcy] at hlast)
      refine ⟨h0, (put_of_ne hylast).trans hmem, hc.frame fun w hw => ?_, ihs hsib (by simp) hnds⟩
      exact put_of_ne (hcs w hw _ hlast)

end

theorem adoptLoop_spec (hf : IsForest h p B) (hnd : B.nodes.Nodup) (hfuel : B.nodes.length < fuel) :
    Ends (adoptLoop fuel h new B.head) fun h' =>
      IsForest h' new B ∧ ∀ z, z ∉ B.nodes → h' z = h z := by
  induction fuel generalizing h B with
  | zero => omega
  | succ fuel ih =>
    cases B with
    | nil => exact ⟨h, if_pos rfl, trivial, fun _ _ => rfl⟩
    | cons y s e c sib =>
      obtain ⟨h0, hmem, hc, hsib⟩ := hf
      simp only [nodes, nodup_cons, mem_append, not_or, nodup_append] at hnd
      obtain ⟨⟨hyc, hys⟩, -, hnds, hcs⟩ := hnd
      simp only [nodes, length_cons, length_append] at hfuel
      rw [Forest.head, adoptLoop, if_neg h0]
      refine .bind_eq (modify_eq h0 _) (.bind_eq (load_eq h0) ?_)
      rw [put_self, hmem]
      refine .mono (ih (hsib.frame (put_off hys _)) hnds (by omega)) ?_
      rintro h1 ⟨hsib1, hframe1⟩
      refine ⟨⟨h0, ?_, ?_, hsib1⟩, fun z hz => ?_⟩
      · rw [hframe1 y hys, put_self]
      · refine hc.frame fun z hz => ?_
        have hzy : z ≠ y := fun hc => hyc (hc ▸ hz)
        rw [hframe1 z fun hcz => hcs z hz z hcz rfl, put_of_ne hzy]
      · simp only [nodes, mem_cons, mem_append, not_or] at hz
        rw [hframe1 z hz.2.2, put_of_ne hz.1]

/-- A path below a resource: siblings before the slot, then the parent. -/
theorem exists_split (hup : up path ≠ 0) :
    ∃ skip q s e sib rest, path = skip ++ .child q s e sib :: rest ∧ Siblings skip := by
  induction path with
  | nil => exact absurd rfl hup
  | cons fr path ih =>
    cases fr with
    | child q s e sib => exact ⟨[], q, s, e, sib, path, rfl, siblings_nil⟩
    | sibling x s' e' c =>
      obtain ⟨skip, q, s, e, sib, rest, rfl, hskip⟩ := ih hup
      refine ⟨.sibling x s' e' c :: skip, q, s, e, sib, rest, rfl, fun fr hfr => ?_⟩
      rcases mem_cons.mp hfr with rfl | hfr
      · exact ⟨x, s', e', c, rfl⟩
      · exact hskip fr hfr

/-- What the slot at the end of a path points to; `hole` is what the slot at its start does. -/
def top : Path → Ptr → Ptr
  | [], hole => hole
  | .child x _ _ _ :: path, _ => top path x
  | .sibling x _ _ _ :: path, _ => top path x

theorem IsPath.of_append (hp : IsPath h (skip ++ path) hole) : IsPath h path (top skip hole) := by
  induction skip generalizing hole with
  | nil => exact hp
  | cons fr skip ih =>
    cases fr with
    | child x s e sib => exact ih hp.2.2.2
    | sibling x s e c => exact ih hp.2.2.2

theorem top_append : top (skip ++ path) hole = top path (top skip hole) := by
  induction skip generalizing hole with
  | nil => rfl
  | cons fr skip ih => cases fr <;> exact ih

/-- The walk along the siblings, to the one before `first`. -/
theorem prevLoop_spec (hskip : Siblings skip)
    (hp : IsPath h (skip ++ .sibling x s e c :: path) first)
    (hfirst : first ∉ pathNodes skip) (hfuel : skip.length < fuel) :
    ∃ y, prevLoop fuel h x first = some y ∧
      (skip ++ .sibling x s e c :: path).head?.map Frame.slot = some (.sibling y) := by
  induction skip using List.reverseRecOn generalizing x s e c path fuel with
  | nil =>
    obtain ⟨h0, hmem, -, -⟩ := hp
    obtain ⟨fuel, rfl⟩ : ∃ k, fuel = k + 1 := ⟨fuel - 1, by omega⟩
    refine ⟨x, ?_, rfl⟩
    rw [prevLoop, load_eq h0, Option.bind_some, hmem, if_pos rfl]
  | append_singleton skip fr ih =>
    obtain ⟨y, s', e', c', rfl⟩ := hskip fr (by simp)
    obtain ⟨fuel, rfl⟩ : ∃ k, fuel = k + 1 := ⟨fuel - 1, by omega⟩
    obtain ⟨h0, hmem, -, -⟩ := hp.of_append
    rw [top_append] at hmem
    have hne : y ≠ first := by
      rintro rfl
      exact hfirst (by simp [pathNodes_append, pathNodes, Frame.nodes])
    rw [append_assoc, singleton_append] at hp
    rw [pathNodes_append, mem_append, not_or] at hfirst
    rw [length_append, length_singleton] at hfuel
    obtain ⟨z, hz, hslot⟩ := ih (fun fr hfr => hskip fr (by simp [hfr])) hp hfirst.1
      (show skip.length < fuel by omega)
    refine ⟨z, ?_, ?_⟩
    · rw [prevLoop, load_eq h0, Option.bind_some, hmem]
      exact (if_neg hne).trans hz
    · rwa [append_assoc, singleton_append]

theorem slotOf_spec (hp : IsPath h (fr :: path) first) (hup : up (fr :: path) ≠ 0)
    (hfirst : first ∉ pathNodes (fr :: path)) (hlen : (fr :: path).length < loopBound) :
    slotOf h (up (fr :: path)) first = some fr.slot := by
  obtain ⟨skip, q, s, e, sib, rest, heq, hskip⟩ := exists_split hup
  rw [heq, hskip.up_append, up, slotOf]
  rw [heq] at hp hfirst hlen
  obtain ⟨hq0, hqmem, -, -⟩ := hp.of_append
  rw [load_eq hq0, Option.bind_some, hqmem]
  rcases eq_nil_or_concat skip with rfl | ⟨skip, last, rfl⟩
  · obtain rfl : fr = .child q s e sib := (List.cons.inj heq).1
    exact if_pos rfl
  rw [concat_eq_append] at heq hskip hp hfirst hlen ⊢
  obtain ⟨x, s', e', c, rfl⟩ := hskip last (by simp)
  rw [pathNodes_append, pathNodes_append, mem_append, mem_append, not_or, not_or] at hfirst
  rw [append_assoc, singleton_append] at heq hp hlen
  have hne : x ≠ first := by
    rintro rfl
    exact hfirst.1.2 (by simp [pathNodes, Frame.nodes])
  rw [top_append]
  refine (if_neg hne).trans ?_
  rw [length_append] at hlen
  obtain ⟨y, hy, hslot⟩ := prevLoop_spec (fun fr hfr => hskip fr (by simp [hfr])) hp hfirst.1.1
    (show skip.length < loopBound by omega)
  rw [← heq] at hslot
  refine (congrArg (Option.bind · _) hy).trans ?_
  exact hslot.symm

theorem length_le_pathNodes : path.length ≤ (pathNodes path).length := by
  induction path with
  | nil => exact Nat.le_refl _
  | cons fr path ih =>
    rw [pathNodes, length_append, length_cons]
    cases fr <;> rw [Frame.nodes, length_cons] <;> omega

/-- **The new resource takes the place of the siblings it covers**, which become its children. -/
theorem adopt_spec (hh : Holds h path (B.append C)) (hB : B ≠ .nil) (hup : up path ≠ 0)
    (hnew : Ready h (plug path (B.append C)) new s e) :
    Ends (adopt h (up path) new B.head B.last) fun h' => Holds h' path (.cons new s e B C) := by
  obtain ⟨fr, path, rfl⟩ := exists_cons_of_ne_nil (ne_of_apply_ne up hup)
  have hnewmem := hnew.notMem
  rw [perm_plug.mem_iff, nodes_append, mem_append, mem_append, not_or, not_or] at hnewmem
  obtain ⟨⟨hnB, hnC⟩, hnp⟩ := hnewmem
  have hnd := hh.nodup
  rw [nodes_append] at hnd
  have hnd' := hnd
  simp only [nodup_append, mem_append] at hnd
  obtain ⟨⟨hndB, -, hBC⟩, hndp, hBCp⟩ := hnd
  have hlast := last_mem hB
  have hlast0 := hh.forest.last_ne hB
  have hln : B.last ≠ new := fun hc => hnB (hc ▸ hlast)
  rw [adopt]
  refine .bind_eq (load_eq hlast0) (.bind_eq (modify_eq hnew.ne_zero _) ?_)
  rw [hh.forest.last_sibling hB, hnew.start_eq, hnew.end_eq]
  generalize hh1 : put h new ⟨s, e, up (fr :: path), C.head, B.head⟩ = h1
  have hnew1 : h1 new = ⟨s, e, up (fr :: path), C.head, B.head⟩ := by rw [← hh1, put_self]
  have hother1 : ∀ z, z ≠ new → h1 z = h z := fun z hz => by rw [← hh1, put_of_ne hz]
  refine .bind_eq (modify_eq hlast0 _) ?_
  have hforest1 : IsForest h1 (up (fr :: path)) (B.append C) := by
    refine hh.forest.frame fun z hz => hother1 z ?_
    rintro rfl
    rw [nodes_append, mem_append] at hz
    exact hz.elim hnB hnC
  have hfuel : B.nodes.length < loopBound := by
    have := length_lt_loopBound hndB
    omega
  refine .bind (adoptLoop_spec (hforest1.cut hB hndB) hndB hfuel) fun h3 ⟨hB3, hframe3⟩ => ?_
  have hother3 : ∀ z, z ≠ new → z ∉ B.nodes → h3 z = h z := fun z hz hzB => by
    have hzl : z ≠ B.last := fun hc => hzB (by rwa [hc])
    rw [hframe3 z hzB, put_of_ne hzl, hother1 z hz]
  have hpath3 : IsPath h3 (fr :: path) B.head := by
    have haround := hh.around
    rw [head_append hB] at haround
    refine haround.frame fun z hz => hother3 z (fun hc => hnp (hc ▸ hz)) fun hc => ?_
    exact hBCp z (.inl hc) z hz rfl
  have hfirst : B.head ∉ pathNodes (fr :: path) := fun hc => by
    refine hBCp B.head (.inl ?_) B.head hc rfl
    cases B with
    | nil => exact absurd rfl hB
    | cons => exact mem_cons_self
  have hlen : (fr :: path).length < loopBound := by
    have := length_lt_loopBound hndp
    have hle : (fr :: path).length ≤ (pathNodes (fr :: path)).length := length_le_pathNodes
    omega
  refine .bind_eq (slotOf_spec hpath3 hup hfirst hlen) ?_
  refine .mono (writeSlot_spec hpath3 hndp) fun h4 ⟨hpath4, hframe4⟩ => ?_
  refine ⟨hpath4, ⟨hnew.ne_zero, ?_, ?_, ?_⟩, ?_⟩
  · rw [hframe4 new hnp, hframe3 new hnB, put_of_ne (Ne.symm hln), hnew1]
  · exact hB3.frame fun z hz => hframe4 z fun hc => hBCp z (.inl hz) z hc rfl
  · refine hh.forest.of_append.frame fun z hz => ?_
    rw [hframe4 z fun hc => hBCp z (.inr hz) z hc rfl,
      hother3 z (fun hc => hnC (hc ▸ hz)) fun hc => hBC z hc z hz rfl]
  · simp only [nodes, cons_append, nodup_cons, mem_append, not_or]
    exact ⟨⟨⟨hnB, hnC⟩, hnp⟩, hnd'⟩

end SilanKernel.ResourceTree
