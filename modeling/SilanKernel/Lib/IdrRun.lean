import SilanKernel.Lib.IdrSound

/-!
# SilanKernel.Lib.IdrRun

**An idr is a finite map** from ids to pointers.

A slot is in use when its bit is set, whatever the pointer, which may be NULL. A run of calls on an
idr follows the runs of a map in which a new id is the least one that is not in use.
-/

namespace SilanKernel.IdTree

open Function List Stored

variable {α : Type} {F : Nat → Bool × Entry α} {total id start : Nat} {s : Idr α} {c : Cache}
  {ptr : Option α}

/-- A slot of a leaf is in use when its bit is set. -/
def idrUsed (b : Bool) (_ : Entry α) : Bool := b

/-! ### Allocation and replacement -/

/-- What `idr_get_new_above` comes to: the least id from `start` on whose slot is free, or no
change. -/
def NewOk (F : Nat → Bool × Entry α) (total start : Nat) (ptr : Option α) :
    Idr α × Except Int Nat → Prop
  | (s', .ok id) => start ≤ id ∧ (F id).1 = false ∧ (∀ y, start ≤ y → y < id → (F y).1 = true) ∧
      IdrRep idrUsed (Function.update F id (true, .ofPtr ptr)) total s'
  | (s', .error rc) => rc = -EAGAIN ∧ IdrRep idrUsed F total s'

section

variable (ptr) (hrep : IdrRep idrUsed F total s)

include hrep

theorem idrGetNewAbove_spec (hroom : ∃ y, start ≤ y ∧ y < 2 ^ 30 ∧ (F y).1 = false) :
    Ends (idrGetNewAbove s ptr start) (NewOk F total start ptr) := by
  rw [idrGetNewAbove, idrGetNewAboveInt]
  refine .bind (R := fun r => (∃ id : Nat, r.2 = (id : Int) ∧ NewOk F total start ptr
    (r.1, .ok id)) ∨
      (r.2 = -1 ∧ IdrRep idrUsed F total r.1))
    (.bind (idrGetEmptySlot_spec hrep rfl hroom) fun found hfound => ?_) fun r hr => ?_
  · cases found with
    | error s' rc => exact .ret (.inr hfound)
    | slot s' id leaf pa =>
      obtain ⟨hrep', ⟨L, hf⟩, hle, hbehind⟩ := hfound
      have hfree : (F id).1 = false := by
        rw [← hrep'.same, hf.layers_eq, hf.top_eq, mapOf_slot hf.route hf.path.length hf.lt]
        exact hf.clear
      set n := digit IDR_BITS 0 id with hdigit
      have hn : ∀ p : Node α, (p.setBit n).bitmap n = true :=
        fun p => update_self ..
      have hchanged : Changed n leaf
          ({ leaf.put n (.ofPtr ptr) with count := leaf.count + 1 }.setBit n) :=
        ⟨rfl, fun i hi => update_of_ne hi .., fun i hi => put_ary_ne hi⟩
      have hok : LayerOk idrUsed 0
          ({ leaf.put n (.ofPtr ptr) with count := leaf.count + 1 }.setBit n) := by
        apply hf.leaf_ok.changed (digit_lt IDR_BITS 0 id) hchanged
        · rw [idrUsed, idrUsed, hn, hf.clear]
          show leaf.count + 1 + 0 = leaf.count + 1
          omega
        · rw [idrUsed, hn]
          exact Bool.noConfusion
      have hmark := hf.mark hrep' (p := { leaf.put n (.ofPtr ptr) with count := leaf.count + 1 })
        (by rw [and_mask]; exact hchanged) (by rw [and_mask]; exact hok)
      rw [show ({ leaf.put n (.ofPtr ptr) with count := leaf.count + 1 } : Node α).ary
        n = .ofPtr ptr from put_ary_self] at hmark
      dsimp only
      rw [and_mask]
      exact .ret (.inl ⟨id, rfl, hle, hfree, hbehind, hmark⟩)
  · obtain ⟨s', rv⟩ := r
    rcases hr with ⟨id, rfl, hnew⟩ | ⟨rfl, hrep'⟩
    · refine .ite (fun h => absurd h (by omega)) fun _ => .ret ?_
      rw [Int.toNat_natCast]
      exact hnew
    · refine .ite (fun _ => .ret ⟨rfl, hrep'⟩) (absurd (by decide))

/-- **`idr_get_new`** takes the least id whose slot is free, or changes nothing. -/
theorem idrGetNew_spec
    (hroom : ∃ y, 0 ≤ y ∧ y < 2 ^ 30 ∧ (F y).1 = false) :
    Ends (idrGetNew s ptr) (NewOk F total 0 ptr) :=
  idrGetNewAbove_spec ptr hrep hroom

/-- **`idr_replace`** changes the pointer of an id in use. -/
theorem idrReplace_spec (hid : id < 2 ^ 31) : Ends (idrReplace s ptr id) fun (s', r) =>
      match r with
      | .ok old => (F id).1 = true ∧ old = (F id).2 ∧
          IdrRep idrUsed (update F id (true, .ofPtr ptr)) total s'
      | .error _ => (F id).1 = false ∧ s' = s := by
  have hsame := hrep.same
  have hsize := hrep.size
  rcases hrep.tree with ⟨htop, hlayers⟩ | ⟨p, l, htop, hlayers, hl, hok⟩
  · simp only [idrReplace, htop]
    refine .ret ⟨?_, rfl⟩
    rw [← hsame, htop, mapOf_null]
  rw [htop, hlayers] at hsame hsize
  simp only [idrReplace, htop, hok.layer_eq, and_max_id_mask hid]
  by_cases hlt : id < 2 ^ ((l + 1) * IDR_BITS)
  · rw [intGe_of_lt hlt, if_neg Bool.false_ne_true]
    have hz : Zipped idrUsed l id l p [] := ⟨hok, rfl, trivial, trivial⟩
    refine .bind (descend_spec hz) fun ⟨e, pa⟩ hcase => ?_
    rcases hcase with ⟨rfl, hnone⟩ | ⟨leaf, rfl, hz', hplug⟩
    · refine .ret ⟨?_, rfl⟩
      rw [← hsame, mapOf, if_pos hlt, Nat.add_sub_cancel, hnone]
    rw [plug] at hplug
    have hlen := hz'.path.length
    let n := digit IDR_BITS 0 id
    have hslot : F id = (leaf.bitmap n, leaf.ary n) := by
      rw [← hsame, ← hplug, mapOf_slot hz'.route hlen hlt]
    rw [and_mask, hslot]
    refine .ite (fun hbit => .ret ⟨hbit, rfl, ?_⟩) fun hbit => .ret ⟨Bool.not_eq_true _ ▸ hbit, rfl⟩
    have hchanged : Changed n leaf (leaf.put n (.ofPtr ptr)) :=
      ⟨rfl, fun i _ => rfl, fun i hi => put_ary_ne hi⟩
    have hleaf : LayerOk idrUsed 0 (leaf.put n (.ofPtr ptr)) := by
      apply hz'.ok.changed (digit_lt IDR_BITS 0 id) hchanged
      · rfl
      · rw [idrUsed, put_bitmap, hbit]
        exact Bool.noConfusion
    have hmap := mapOf_update hz'.route hlen hlt hchanged
    rw [hplug, hsame, put_ary_self, put_bitmap, hbit] at hmap
    refine ⟨.inr ⟨_, l, rfl, hlayers, hl, layerOk_plug hleaf hz'.path hz'.linked⟩,
      hrep.freeOk, ?_, ?_⟩
    · show mapOf s.layers _ = _
      rw [hlayers]
      exact hmap
    · show size (s.layers - 1) _ + _ = total
      rw [hlayers, Nat.add_sub_cancel, size_leaf hz'.path _ leaf, hplug]
      exact hsize
  · rw [intGe_of_le hid (Nat.not_lt.mp hlt), if_pos rfl]
    refine .ret ⟨?_, rfl⟩
    rw [← hsame, mapOf, if_neg hlt]

end

/-! ### Runs -/

/-- The calls; `granted` says which allocations succeed. -/
inductive Call (α : Type) where
  | preGet (granted : List Bool)
  | getNew (ptr : Option α)
  | replace (ptr : Option α) (id : Nat)
  | find (id : Nat)
  | remove (id : Nat)

/-- What they return. -/
inductive Ret (α : Type) where
  | flag (r : Int)
  | id (r : Except Int Nat)
  | old (r : Except Int (Entry α))
  | ptr (e : Entry α)
  | done

def idrStep (st : Cache × Idr α) : Call α → Option ((Cache × Idr α) × Ret α)
  | .preGet granted =>
    let (c, s, r) := idrPreGet st.1 st.2 granted
    some ((c, s), .flag r)
  | .getNew ptr => (idrGetNew st.2 ptr).map fun (s, r) => ((st.1, s), .id r)
  | .replace ptr id => (idrReplace st.2 ptr id).map fun (s, r) => ((st.1, s), .old r)
  | .find id => (idrFind st.2 id).map fun e => (st, .ptr e)
  | .remove id => (idrRemove st.1 st.2 id).map fun st => (st, .done)

/-- A map from ids to pointers, which may be NULL. -/
abbrev IdMap (α : Type) := Nat → Option (Option α)

/-- The calls on a map: the result and the map after it. -/
def mapSpec (m : IdMap α) : Call α → Ret α → IdMap α → Prop
  | .preGet _, .flag _, m' => m' = m
  | .getNew ptr, .id (.ok id), m' =>
    m id = none ∧ (∀ y, y < id → m y ≠ none) ∧ m' = Function.update m id (some ptr)
  | .getNew _, .id (.error _), m' => m' = m
  | .replace ptr id, .old (.ok e), m' =>
    ∃ old, m id = some old ∧ e = .ofPtr old ∧ m' = Function.update m id (some ptr)
  | .replace _ id, .old (.error _), m' => m id = none ∧ m' = m
  | .find id, .ptr e, m' => e = .ofPtr (m id).join ∧ m' = m
  | .remove id, .done, m' => m' = Function.update m id none
  | _, _, _ => False

/-- An id of a caller is an `int` that is not negative, and only ids in use are removed. -/
def Legal (m : IdMap α) : Call α → Prop
  | .replace _ id => id < 2 ^ 31
  | .find id => id < 2 ^ 31
  | .remove id => m id ≠ none
  | _ => True

/-- The slots of a map. -/
def slotsOf (m : IdMap α) (y : Nat) : Bool × Entry α :=
  match m y with
  | none => (false, .null)
  | some ptr => (true, .ofPtr ptr)

/-- **The idr stands for the map**, and the map is finite. -/
structure Stands (st : Cache × Idr α) (m : IdMap α) : Prop where
  stored : Stored idrUsed (slotsOf m) st.1 st.2
  finite : ∀ y, 2 ^ 30 ≤ y → m y = none

variable {m m : IdMap α} {st : Cache × Idr α}

theorem slotsOf_bit (m : IdMap α) (y : Nat) : (slotsOf m y).1 = (m y).isSome := by
  rw [slotsOf]
  cases m y <;> rfl

theorem slotsOf_free : (slotsOf m y).1 = false ↔ m y = none := by
  rw [slotsOf_bit, Option.isSome_eq_false_iff, Option.isNone_iff_eq_none]

theorem slotsOf_used : (slotsOf m y).1 = true ↔ m y ≠ none := by
  rw [slotsOf_bit, Option.isSome_iff_ne_none]

theorem slotsOf_entry (m : IdMap α) (y : Nat) : (slotsOf m y).2 = .ofPtr (m y).join := by
  rw [slotsOf]
  cases m y <;> rfl

theorem slotsOf_update (m : IdMap α) (id : Nat) (ptr : Option α) :
    slotsOf (update m id (some ptr)) = update (slotsOf m) id (true, .ofPtr ptr) :=
  comp_update (fun v => slotsOf (fun _ => v) 0) m id (some ptr)

theorem slotsOf_erase (m : IdMap α) (id : Nat) :
    slotsOf (update m id none) = update (slotsOf m) id (false, .null) :=
  comp_update (fun v => slotsOf (fun _ => v) 0) m id none

/-- No tree reaches further. -/
theorem Stored.stands (h : Stored idrUsed (slotsOf m) st.1 st.2) : Stands st m := by
  refine ⟨h, fun y hy => ?_⟩
  obtain ⟨total, hrep, -, -⟩ := h
  rw [← slotsOf_free, ← hrep.same]
  rcases hrep.tree with ⟨htop, -⟩ | ⟨p, l, -, hlayers, hl, -⟩
  · rw [htop, mapOf_null]
  · have := capacity_le hl
    rw [hlayers, mapOf, if_neg (by omega)]

/-- One call. -/
theorem idrStep_spec (h : Stands st m) (a : Call α) (hlegal : Legal m a) :
    ∃ st' r m', idrStep st a = some (st', r) ∧ mapSpec m a r m' ∧ Stands st' m' := by
  obtain ⟨c, s⟩ := st
  have hstored := h.stored
  obtain ⟨total, hrep, hle, hc⟩ := hstored
  cases a with
  | preGet granted =>
    exact ⟨_, _, m, rfl, rfl, stands (idrPreGet_spec h.stored granted)⟩
  | getNew ptr =>
    obtain ⟨⟨s', r⟩, hrun, hr⟩ := idrGetNew_spec ptr hrep h.stored.room
    have hstep : idrStep (c, s) (.getNew ptr) = some ((c, s'), .id r) := by
      rw [idrStep, hrun]
      rfl
    cases r with
    | error rc => exact ⟨_, _, m, hstep, rfl, stands ⟨total, hr.2, hle, hc⟩⟩
    | ok id =>
      obtain ⟨-, hfree, hbehind, hrep'⟩ := hr
      rw [← slotsOf_update] at hrep'
      exact ⟨_, _, update m id (some ptr), hstep,
        ⟨slotsOf_free.mp hfree, fun y hy => slotsOf_used.mp (hbehind y (Nat.zero_le y) hy), rfl⟩,
        stands ⟨total, hrep', hle, hc⟩⟩
  | replace ptr id =>
    obtain ⟨⟨s', r⟩, hrun, hr⟩ := idrReplace_spec ptr hrep hlegal
    have hstep : idrStep (c, s) (.replace ptr id) = some ((c, s'), .old r) := by
      rw [idrStep, hrun]
      rfl
    cases r with
    | error rc =>
      obtain ⟨hfree, rfl⟩ := hr
      exact ⟨_, _, m, hstep, ⟨slotsOf_free.mp hfree, rfl⟩, h⟩
    | ok old =>
      obtain ⟨hbit, rfl, hrep'⟩ := hr
      rw [← slotsOf_update] at hrep'
      rw [slotsOf_bit] at hbit
      obtain ⟨ptr', hptr⟩ := Option.isSome_iff_exists.mp hbit
      refine ⟨_, _, update m id (some ptr), hstep, ⟨ptr', hptr, ?_, rfl⟩,
        stands ⟨total, hrep', hle, hc⟩⟩
      rw [slotsOf_entry, hptr]
      rfl
  | find id =>
    have hrun := idrFind_spec hrep hlegal
    refine ⟨(c, s), .ptr (slotsOf m id).2, m, ?_, ⟨slotsOf_entry m id, rfl⟩, h⟩
    rw [idrStep, hrun]
    rfl
  | remove id =>
    have hbit : (slotsOf m id).1 = true := slotsOf_used.mpr hlegal
    have hid : id < 2 ^ 31 := by
      by_contra hge
      exact hlegal (h.finite id (by omega))
    obtain ⟨st', hrun, hleft⟩ := idrRemove_spec hrep rfl hbit hbit hid hle
    rw [← slotsOf_erase] at hleft
    refine ⟨st', .done, update m id none, ?_, rfl, stands (hleft.stored hc)⟩
    rw [idrStep, hrun]
    rfl

/-- **An idr is a finite map.** Every run of calls on a new idr, with any outcome of the
allocations, follows the map: each call is defined and has a result that the map allows, and the idr
goes on to stand for the map. -/
theorem idr_refines_map (c : Cache) (hc : c.inUse * layerSize ≤ 2 ^ 32) (calls : List (Call α)) :
    Run.Follows Legal Stands idrStep mapSpec (c, idrInit α) (fun _ => none) calls :=
  Run.follows_of_step (fun _ _ a h hlegal => idrStep_spec h a hlegal)
    (stands (stored_init c hc)) calls

/-- Ids 0 and 1 are taken, 0 is given back and taken again. -/
theorem idr_refines_map_reuse : (0 : Nat) * layerSize ≤ 2 ^ 32 ∧
    Run.Follows Legal Stands idrStep mapSpec (⟨0⟩, idrInit Nat) (fun _ => none)
      [.preGet (replicate 14 true), .getNew (some 7), .getNew none, .find 0, .remove 0,
      .getNew (some 9),
        .replace (some 8) 1] :=
  ⟨by decide, idr_refines_map ⟨0⟩ (by decide) _⟩

/-! ### Ids at the edge of the range

The tree has at most six layers, which is one bit less than an id has. Each walk takes the digits of
these layers and leaves out the rest. -/

/-- An idr that has been given layers. -/
def readied : Cache × Idr Nat × Int := idrPreGet ⟨0⟩ (idrInit Nat) (replicate 14 true)

theorem stored_readied : Stored idrUsed (slotsOf fun _ => none) readied.1 readied.2.1 := by
  unfold readied
  exact idrPreGet_spec (stored_init ⟨0⟩ (by decide)) _

/-- **`idr_remove`** changes nothing **exactly if** the digits that the tree has are not those of an
id in use. -/
theorem idrRemove_unused_iff (st : Cache × Idr α) (m : IdMap α) (h : Stands st m) (id : Nat) :
    (Ends (idrRemove st.1 st.2 id) fun st' => Stands st' m ∧
      (∀ j, j < 2 ^ 31 → idrFind st'.2 j = idrFind st.2 j) ∧
      ∀ ptr, Ends (idrGetNew st'.2 ptr) fun r =>
        r.2 = .error (-EAGAIN) ∨ ∃ new, r.2 = .ok new ∧ m new = none ∧ ∀ y, y < new → m y ≠ none) ↔
      m (id % 2 ^ (st.2.layers * IDR_BITS)) = none := by
  obtain ⟨total, hrep, hle, hc⟩ := h.stored
  obtain ⟨st', hrun, hleft⟩ := idrRemove_folded hrep (fun _ _ => rfl) hle rfl
  have hrun_iff : ∀ P : Cache × Idr α → Prop, Ends (idrRemove st.1 st.2 id) P ↔ P st' := fun P =>
    ⟨fun ⟨_, hrun', hp⟩ => by cases hrun.symm.trans hrun'; exact hp, fun hp => ⟨st', hrun, hp⟩⟩
  rw [hrun_iff, ← slotsOf_free]
  constructor
  · rintro ⟨hstands, -⟩
    by_contra hbit
    obtain ⟨_, hrep1, -, -⟩ := hstands.stored
    obtain ⟨_, hrep2, -, -⟩ := hleft
    rw [if_pos (Bool.not_eq_false _ ▸ hbit)] at hrep2
    have hsame := congrFun (hrep1.same.symm.trans hrep2.same) (id % 2 ^ (st.2.layers * IDR_BITS))
    rw [update_self] at hsame
    exact hbit (congrArg Prod.fst hsame)
  intro hfree
  rw [if_neg (hfree ▸ Bool.false_ne_true)] at hleft
  have hstands : Stands st' m := stands (hleft.stored hc)
  obtain ⟨total', hrep', -, -⟩ := hleft
  refine ⟨hstands, fun j hj => ?_, fun ptr => ?_⟩
  · rw [idrFind_spec hrep hj, idrFind_spec hrep' hj]
  · refine .mono (idrGetNew_spec ptr hrep' hstands.stored.room) ?_
    rintro ⟨s', new | rc⟩ hr
    · exact .inl (by rw [hr.1])
    · exact .inr ⟨_, rfl, slotsOf_free.mp hr.2.1, fun y hy => slotsOf_used.mp
        (hr.2.2.1 y (Nat.zero_le y) hy)⟩

/-- With id 0 in use and one layer. -/
theorem idrRemove_unused_iff_five :
    ∃ st : Cache × Idr Nat, Stands st (update (fun _ => none) 0 (some (some 7))) ∧ st.2.layers = 1 ∧
      Ends (idrRemove st.1 st.2 5) fun st' => idrFind st'.2 0 = some (.item 7) := by
  have hstored := stored_readied
  have hone : (idrGetNew readied.2.1 (some 7)).map
      (fun r => (r.2.toOption, r.1.layers)) = some (some 0, 1) := by decide +kernel
  generalize readied = st at hstored hone
  have hroom := hstored.room
  obtain ⟨total, hrep, hle, hc⟩ := hstored
  obtain ⟨⟨s', r⟩, hrun, hr⟩ := idrGetNew_spec (some 7) hrep hroom
  rw [hrun] at hone
  cases r with
  | error rc => cases hone
  | ok id =>
    obtain ⟨rfl, hlayers⟩ : id = 0 ∧ s'.layers = 1 := by simpa [Except.toOption] using hone
    obtain ⟨-, -, -, hrep'⟩ := hr
    rw [← slotsOf_update] at hrep'
    have hstands : Stands (st.1, s') (update (fun _ => none) 0 (some (some 7))) :=
      stands ⟨total, hrep', hle, hc⟩
    refine ⟨(st.1, s'), hstands, hlayers, ?_⟩
    refine .mono ((idrRemove_unused_iff _ _ hstands 5).2 ?_) fun st' h => ?_
    · rw [hlayers]
      rfl
    · rw [h.2.1 0 (by decide), idrFind_spec hrep' (by decide), slotsOf_entry, update_self]
      rfl

/-- With one layer id 32, which nobody has taken, is taken for id 0. -/
theorem idrRemove_folds :
    ((idrGetNew readied.2.1 (some 7)).bind fun r =>
        (idrRemove ⟨14⟩ r.1 32).map fun st =>
          (r.2.toOption, (idrFind r.1 0).map Entry.isNull, (idrFind st.2 0).map Entry.isNull)) =
      some (some 0, some false, some true) := by
  decide +kernel

end SilanKernel.IdTree
