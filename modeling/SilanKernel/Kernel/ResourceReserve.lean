import SilanKernel.Kernel.ResourceRun

/-!
# SilanKernel.Kernel.ResourceReserve

`reserve_region_with_split` of `kernel/resource.c`: **the gaps of a range are taken**.

`kzalloc` takes a resource from a list of free ones and fails on the empty list; `kfree` puts it
back. A range that sticks out of the root conflicts with the root itself. The part outside is then
tried again, with the same conflict and the same bounds, so that the recursion does not end.
-/

namespace SilanKernel.ResourceTree

open List Memory Option

/-- `__reserve_region_with_split`; the flag says whether every `kzalloc` has succeeded. -/
def reserveRegionWithSplit (root : Ptr) :
    Nat → Mem Resource → List Ptr → Nat → Nat → Option (Mem Resource × List Ptr × Bool)
  | 0, _, _, _, _ => none
  | _ + 1, h, [], _, _ => some (h, [], false)
  | fuel + 1, h, res :: pool, start, end_ =>
    (requestResourceConflict (put h res ⟨start, end_, 0, 0, 0⟩) root res).bind fun (h, conflict) =>
      if conflict = 0 then some (h, pool, true)
      else
        (load h conflict).bind fun c =>
          if c.start ≤ start ∧ end_ ≤ c.end_ then some (h, res :: pool, true)
          else
            (if start < c.start then
              reserveRegionWithSplit root fuel h (res :: pool) start (c.start - 1)
            else some (h, res :: pool, true)).bind fun (h, pool, left) =>
              (load h conflict).bind fun c =>
                if c.end_ < end_ then
                  (reserveRegionWithSplit root fuel h pool (c.end_ + 1) end_).map
                    fun (h, pool, right) => (h, pool, left && right)
                else some (h, pool, left)

/-- The resources of the chain, each with its range and what is below it. -/
def Forest.kids : Forest → List (Ptr × Nat × Nat × Forest)
  | .nil => []
  | .cons x s e children siblings => (x, s, e, children) :: siblings.kids

/-- A resource of the chain covers the address. -/
def Forest.Covers (f : Forest) (a : Nat) : Prop := ∃ x s e c, (x, s, e, c) ∈ f.kids ∧ s ≤ a ∧ a ≤ e

/-- The free resources are different ones outside of the tree. -/
def Free (t : Forest) (pool : List Ptr) : Prop := pool.Nodup ∧ ∀ x ∈ pool, x ≠ 0 ∧ x ∉ t.nodes

theorem kids_append (A : Forest) : (A.append f).kids = A.kids ++ f.kids := by
  induction A with
  | nil => rfl
  | cons y s' e' c' sib' _ ihs => rw [Forest.append, Forest.kids, ihs, Forest.kids, cons_append]

theorem IsForest.kid (hf : IsForest h p f) (hk : (x, s, e, c) ∈ f.kids) :
    x ≠ 0 ∧ (h x).start = s ∧ (h x).end_ = e := by
  induction f with
  | nil => cases hk
  | cons y s' e' c' sib' _ ihs =>
    obtain ⟨h0, hmem, -, hsib⟩ := hf
    rcases mem_cons.mp hk with heq | hk
    · cases heq
      exact ⟨h0, by rw [hmem], by rw [hmem]⟩
    · exact ihs hsib hk

/-- A request for a range inside of `root`: one child more, or one that overlaps. -/
theorem requestResourceConflict_kids (hP : P = .child root s₀ e₀ sib :: path) (hh : Holds h P kids)
    (hok : kids.Ok s₀ e₀) (hnew : Ready h (plug P kids) new s e) (hlo : s₀ ≤ s) (hse : s ≤ e)
    (hhi : e ≤ e₀) :
    Ends (requestResourceConflict h root new) fun (h', conflict) =>
      conflict = 0 ∧ (∃ kids', Holds h' P kids' ∧ kids'.Ok s₀ e₀ ∧ kids.kids <+ kids'.kids ∧
        (new, s, e, .nil) ∈ kids'.kids ∧
        ∀ z ∈ (plug P kids').nodes, z = new ∨ z ∈ (plug P kids).nodes) ∨
      h' = h ∧ ∃ s' e' c, (conflict, s', e', c) ∈ kids.kids ∧ s' ≤ e ∧ s ≤ e' := by
  subst hP
  refine .mono (requestResourceConflict_spec rfl hh hnew) ?_
  rintro ⟨h1, x⟩ (⟨-, hout⟩ | ⟨-, skip, f', hskip, rfl, hres⟩)
  · unfold Out at hout
    omega
  obtain ⟨A, hA⟩ := hskip.siblings.append
  rcases hres with ⟨h0, hfrom, hh'⟩ | ⟨hsame, s', e', c, sib', rfl, hle⟩
  · refine .inl ⟨h0, plug skip (.cons new s e .nil f'), (holds_append skip).mp hh', ?_, ?_, ?_, ?_⟩
    · have hlo' : lo s₀ (skip ++ []) ≤ s := hskip.lo_append hlo
      have hhi' : hi e₀ (skip ++ []) = e₀ := hskip.siblings.hi_append
      rw [append_nil] at hlo' hhi'
      rw [ok_plug] at hok ⊢
      exact ⟨hok.1, Forest.Ok.insert (B := .nil) hok.2 hlo' hse (hhi.trans hhi'.ge) trivial hfrom⟩
    · rw [hA, hA, kids_append, kids_append]
      exact (sublist_cons_self ..).append_left _
    · simp [hA, kids_append, Forest.kids]
    · intro z hz
      rw [← plug_append, perm_plug.mem_iff] at hz ⊢
      simpa [Forest.nodes] using hz
  · exact .inr ⟨hsame, s', e', c, by simp [hA, kids_append, Forest.kids], hle⟩

/-- The tree has only more children of `root`, and these cover `[s, b)` if no `kzalloc` has
failed. -/
def Reserved (P : Path) (s₀ e₀ : Nat) (kids : Forest) (s b : Nat)
    (r : Mem Resource × List Ptr × Bool) : Prop :=
  ∃ kids', Holds r.1 P kids' ∧ kids'.Ok s₀ e₀ ∧ Free (plug P kids') r.2.1 ∧
    kids.kids <+ kids'.kids ∧ (r.2.2 = true → ∀ a, s ≤ a → a < b → kids'.Covers a)

theorem reserveRegionWithSplit_spec (hP : P = .child root s₀ e₀ sib :: path) (hh : Holds h P kids)
    (hok : kids.Ok s₀ e₀) (hpool : Free (plug P kids) pool) (hlo : s₀ ≤ s) (hse : s ≤ e)
    (hhi : e ≤ e₀) (hfuel : e - s < fuel) :
    Ends (reserveRegionWithSplit root fuel h pool s e) (Reserved P s₀ e₀ kids s (e + 1)) := by
  induction fuel generalizing h pool kids s e with
  | zero => omega
  | succ fuel ih =>
    cases pool with
    | nil => exact .ret ⟨kids, hh, hok, hpool, .refl _, nofun⟩
    | cons res pool =>
      obtain ⟨hres0, hres⟩ := hpool.2 res mem_cons_self
      have hh1 := hh.frame (put_off hres ⟨s, e, 0, 0, 0⟩)
      have hready : Ready (put h res ⟨s, e, 0, 0, 0⟩) _ res s e := ready_put hres0 hres rfl
      rw [reserveRegionWithSplit]
      refine .bind (requestResourceConflict_kids hP hh1 hok hready hlo hse hhi) ?_
      rintro ⟨h2, conflict⟩ (⟨h0, kids2, hh2, hok2, hsub, hmem, hnodes⟩ | ⟨rfl, s', e', c,
        hk, hle, hge⟩)
      · refine .ite (fun _ => .ret ⟨kids2, hh2, hok2, ⟨hpool.1.of_cons, fun x hx => ?_⟩, hsub, ?_⟩)
          (absurd h0)
        · obtain ⟨hx0, hxt⟩ := hpool.2 x (mem_cons_of_mem _ hx)
          refine ⟨hx0, fun hc => (hnodes x hc).elim ?_ hxt⟩
          rintro rfl
          exact (nodup_cons.mp hpool.1).1 hx
        · exact fun _ a ha hb => ⟨res, s, e, .nil, hmem, ha, by omega⟩
      obtain ⟨hc0, hcs, hce⟩ := hh1.forest.kid hk
      have hcover : ∀ {g : Forest}, kids.kids <+ g.kids → ∀ a, s' ≤ a → a ≤ e' → g.Covers a :=
        fun hsub a h1 h2 => ⟨conflict, s', e', c, hsub.subset hk, h1, h2⟩
      refine .ite (fun hc => absurd hc hc0) fun _ => .bind_eq (load_eq hc0) ?_
      rw [hcs, hce]
      refine .ite (fun hin => .ret ⟨kids, hh1, hok, hpool, .refl _, fun _ a _ _ =>
        hcover (.refl _) a (by omega) (by omega)⟩) fun _ => ?_
      -- the gap before the conflict, then the one after it
      refine .bind (R := Reserved P s₀ e₀ kids s s') ?_ ?_
      · refine .ite (fun hlt => ?_) fun hlt =>
          .ret ⟨kids, hh1, hok, hpool, .refl _, fun _ a _ _ => by omega⟩
        have hleft := ih hh1 hok hpool hlo (show s ≤ s' - 1 by omega) (by omega) (by omega)
        rwa [Nat.sub_add_cancel (by omega)] at hleft
      rintro ⟨h3, pool3, left⟩ ⟨kids3, hh3, hok3, hpool3, hsub3, hcov3⟩
      refine .bind_eq (load_eq hc0) ?_
      rw [(hh3.forest.kid (hsub3.subset hk)).2.2]
      refine .ite (fun hlt => ?_) fun hlt =>
        .ret ⟨kids3, hh3, hok3, hpool3, hsub3, fun hl a ha hb => ?_⟩
      · obtain ⟨⟨h4, pool4, right⟩, hrun, kids4, hh4, hok4, hpool4, hsub4, hcov4⟩ :=
          ih hh3 hok3 hpool3 (by omega) hlt hhi (by omega)
        rw [hrun]
        refine .ret ⟨kids4, hh4, hok4, hpool4, hsub3.trans hsub4, fun hboth a ha hb => ?_⟩
        obtain ⟨hl, hr⟩ := Bool.and_eq_true_iff.mp hboth
        rcases Nat.lt_or_ge a s' with h1 | h1
        · obtain ⟨x, s5, e5, c5, hm, hx⟩ := hcov3 hl a ha h1
          exact ⟨x, s5, e5, c5, hsub4.subset hm, hx⟩
        rcases Nat.lt_or_ge e' a with h2 | h2
        · exact hcov4 hr a h2 hb
        · exact hcover (hsub3.trans hsub4) a h1 h2
      · rcases Nat.lt_or_ge a s' with h1 | h1
        · exact hcov3 hl a ha h1
        · exact hcover hsub3 a h1 (by omega)

/-- With a range that sticks out of the root the call comes again and again. -/
theorem reserveRegionWithSplit_out (hroot : root ≠ 0) (hnew : new ≠ 0) (hne : root ≠ new)
    (hout : s < (h root).start ∨ (h root).end_ < e) :
    reserveRegionWithSplit root fuel h (new :: pool) s e = none := by
  induction fuel generalizing h s e with
  | zero => rfl
  | succ fuel ih =>
    have hput : put h new ⟨s, e, 0, 0, 0⟩ root = h root := put_of_ne hne
    rw [← hput] at hout
    have hconflict : requestResourceConflict (put h new ⟨s, e, 0, 0, 0⟩) root new =
        some (put h new ⟨s, e, 0, 0, 0⟩, root) := by
      simp only [requestResourceConflict, load_eq hnew, load_eq hroot, put_self,
        bind_eq_bind, bind_some]
      split_ifs <;> first | rfl | omega
    simp only [reserveRegionWithSplit, hconflict, load_eq hroot, bind_some, if_neg hroot]
    rw [if_neg (by omega)]
    by_cases hlt : s < (put h new ⟨s, e, 0, 0, 0⟩ root).start
    · rw [if_pos hlt, ih (.inl hlt)]
      rfl
    · have hend := hout.resolve_left hlt
      simp only [if_neg hlt, bind_some, if_pos hend, ih (.inr hend), map_none]

/-- **A range is covered exactly if** it lies within the root, or there is no memory at all: the
call comes to an end, the children there were stay as they are, and the tree stays well formed. -/
theorem reserveRegionWithSplit_covers_iff (h : Mem Resource) (root : Ptr) (s₀ e₀ : Nat)
    (kids : Forest) (pool : List Ptr) (s e fuel : Nat)
    (htree : TreeOk h (.cons root s₀ e₀ kids .nil)) (hpool : Free (.cons root s₀ e₀ kids .nil) pool)
    (hse : s ≤ e) (hfuel : e - s < fuel) :
    (Ends (reserveRegionWithSplit root fuel h pool s e) fun r =>
      ∃ kids', TreeOk r.1 (.cons root s₀ e₀ kids' .nil) ∧ kids.kids <+ kids'.kids ∧
        (r.2.2 = true → ∀ a, s ≤ a → a ≤ e → s₀ ≤ a → a ≤ e₀ → kids'.Covers a)) ↔
      pool = [] ∨ s₀ ≤ s ∧ e ≤ e₀ := by
  constructor
  · rintro ⟨r, hrun, -⟩
    by_contra hnot
    obtain ⟨hne, hout⟩ := not_or.mp hnot
    obtain ⟨new, pool, rfl⟩ := exists_cons_of_ne_nil hne
    obtain ⟨hnew, hfresh⟩ := hpool.2 new mem_cons_self
    obtain ⟨hroot, hmem, -⟩ := htree.1.forest
    rw [reserveRegionWithSplit_out hroot hnew (fun heq => hfresh (heq ▸ mem_cons_self))
      (by rw [hmem]; dsimp only; omega)] at hrun
    cases hrun
  rintro (rfl | ⟨hlo, hhi⟩)
  · obtain ⟨fuel, rfl⟩ : ∃ n, fuel = n + 1 := ⟨fuel - 1, by omega⟩
    exact .ret ⟨kids, htree, .refl _, nofun⟩
  obtain ⟨hh, _, _, _, _, ⟨⟩, hroot, hok⟩ := htree
  refine .mono (reserveRegionWithSplit_spec rfl (holds_cons.mpr hh) hok hpool hlo hse hhi hfuel) ?_
  rintro r ⟨kids', hh', hok', -, hsub, hcov⟩
  exact ⟨kids', ⟨holds_cons.mp hh', _, _, _, _, rfl, hroot, hok'⟩, hsub, fun hr a ha hae _ _ =>
    hcov hr a ha (Nat.lt_succ_of_le hae)⟩

theorem reserveRegionWithSplit_covers_iff_ioTree :
    Ends (reserveRegionWithSplit 4 46 ioMem [16, 20, 24] 5 50) fun r =>
      ∃ kids', TreeOk r.1 (.cons 4 0 99 kids' .nil) ∧
        (Forest.cons 8 10 19 .nil (.cons 12 30 39 .nil .nil)).kids <+ kids'.kids ∧
        (r.2.2 = true → ∀ a, 5 ≤ a → a ≤ 50 → 0 ≤ a → a ≤ 99 → kids'.Covers a) :=
  (reserveRegionWithSplit_covers_iff ioMem 4 0 99 _ _ 5 50 46 ⟨ioMem_holds, ioTree_wellFormed⟩
    (by simp [Free, Forest.nodes]) (by decide) (by decide)).2 (.inr (by decide))

/-- The recursion does not end on a range that is partly inside of the root. -/
theorem reserveRegionWithSplit_endless : WellFormed ioTree ∧ Holds ioMem [] ioTree ∧
    ∀ fuel, reserveRegionWithSplit 4 fuel ioMem [16] 90 100 = none :=
  ⟨ioTree_wellFormed, ioMem_holds, fun _ => reserveRegionWithSplit_out (by decide) (by decide)
    (by decide) (.inr (by decide))⟩

end SilanKernel.ResourceTree
