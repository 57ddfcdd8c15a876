import SilanKernel.Lib.BtreeInsert
import SilanKernel.Lib.BtreeRemove

/-!
# SilanKernel.Lib.BtreeRun

**A B+tree is a finite map** from keys to values.

Calls of `btree_insert`, `btree_update`, `btree_lookup`, `btree_remove` and `btree_last` come in any
order, with values that are not null; insertion is for keys that are not there, removal for keys
that are. The map that the tree stands for changes as the calls say, and allocations may fail.

An update of a key that is not there is to return `-ENOENT`. The zero key is an exception: unused
pairs have it, so that the value is written to one of them and the update is an insertion.
-/

namespace SilanKernel.Btree

open List Function Option Nat

variable {g : Geo}

inductive Call (n : Nat)
  | insert (key : Key n) (val : Word)
  | update (key : Key n) (val : Word)
  | lookup (key : Key n)
  | remove (key : Key n)
  | last

/-- What a call returns: an error code, a value, or a value with its key. -/
inductive Ret (n : Nat)
  | code (ret : Int)
  | value (val : Word)
  | pair (val : Word) (key : Option (Key n))
  deriving DecidableEq

def treeStep (s : Head g) : Call g.keylen → Option (Head g × Ret g.keylen)
  | .insert key val => do
    let (s, ret) ← btreeInsert s key val
    some (s, .code ret)
  | .update key val => do
    let (s, ret) ← btreeUpdate s key val
    some (s, .code ret)
  | .lookup key => do
    let val ← btreeLookup s key
    some (s, .value val)
  | .remove key => do
    let (s, val) ← btreeRemove s key
    some (s, .value val)
  | .last => do
    let (val, key) ← btreeLast s
    some (s, .pair val key)

/-- `btree_init`, whatever there is in memory and whatever the pool will answer -/
def Head.init (mem : Word → Node g.keylen) (live : Word → Bool) (pool : List Word) : Head g :=
  ⟨mem, live, pool, 0, 0⟩

/-- A map from keys to values. -/
abbrev Dict (n : Nat) := Key n → Option Word

namespace Dict

def empty : Dict n := fun _ => none

/-- Values are not null. Only keys that are not there are inserted, only keys that are there
removed, and the zero key is updated only if it is there. -/
def Legal (m : Dict n) : Call n → Prop
  | .insert key val => val ≠ 0 ∧ m key = none
  | .update key val => val ≠ 0 ∧ (key = zeroKey n → m key ≠ none)
  | .lookup _ => True
  | .remove key => m key ≠ none
  | .last => True

/-- What the calls do to a map. -/
def Spec (m : Dict n) : Call n → Ret n → Dict n → Prop
  | .insert key val, .code ret, m' =>
    ret = 0 ∧ m' = Function.update m key (some val) ∨ ret = -ENOMEM ∧ m' = m
  | .update key val, .code ret, m' =>
    m key ≠ none ∧ ret = 0 ∧ m' = Function.update m key (some val) ∨ m key = none ∧
      ret = -ENOENT ∧ m' = m
  | .lookup key, .value val, m' => val = (m key).getD 0 ∧ m' = m
  | .remove key, .value val, m' => m key = some val ∧ m' = Function.update m key none
  | .last, .pair val key, m' =>
    m' = m ∧ ((∀ k, m k = none) ∧ val = 0 ∨
      ∃ k, key = some k ∧ m k = some val ∧ ∀ k', m k' ≠ none → longcmp k' k ≤ 0)
  | _, _, _ => False

end Dict

/-- The pairs of a map. -/
def Lists {n : Nat} (E : List (Ent n)) (m : Dict n) : Prop := ∀ k v, m k = some v ↔ ∃ x ∈ E,
    x.lo = k ∧ x.word = v

/-- **The tree stands for the map**: its leaves have just the pairs of the map. -/
def StandsFor (s : Head g) (m : Dict g.keylen) : Prop := ∃ E, Holds s E ∧ Lists E m

section

variable {a b E : List (Ent n)} {x : Ent n} {m : Dict n} {k : Key n} {v : Word}

theorem Lists.of_mem (h : Lists E m) (hx : x ∈ E) : m x.lo = some x.word :=
  (h _ _).2 ⟨x, hx, rfl, rfl⟩

theorem Lists.nil (h : Lists [] m) (k : Key n) : m k = none :=
  eq_none_iff_forall_ne_some.2 fun v hv => by simpa using (h k v).1 hv

theorem Lists.absent (h : Lists E m) (hk : m k = none) : ∀ x ∈ E, x.lo ≠ k := by
  intro x hx heq
  have hsome := h.of_mem hx
  rw [heq, hk] at hsome
  cases hsome

theorem Lists.exists_mem (h : Lists E m) (hk : m k ≠ none) : ∃ x ∈ E, x.lo = k ∧
    m k = some x.word := by
  obtain ⟨v, hv⟩ := ne_none_iff_exists'.1 hk
  obtain ⟨x, hx, hlo, hw⟩ := (h k v).1 hv
  exact ⟨x, hx, hlo, hw ▸ hv⟩

/-- A pair that is new, or has a new value. -/
theorem Lists.set (h : Lists (a ++ b) m) (hk : ∀ y ∈ a ++ b, y.lo ≠ x.lo) (hy : y.lo = x.lo) :
    Lists (a ++ y :: b) (update m x.lo (some y.word)) := by
  intro k v
  by_cases hkx : k = x.lo
  · subst hkx
    rw [update_self, some.injEq]
    constructor
    · exact fun heq => ⟨y, mem_append_cons_self, hy, heq⟩
    intro ⟨z, hz, hlo, hw⟩
    rcases mem_mid.1 hz with hz | rfl | hz
    · exact absurd hlo (hk z (mem_append_left _ hz))
    · exact hw
    · exact absurd hlo (hk z (mem_append_right _ hz))
  · rw [update_of_ne hkx, h k v]
    refine exists_congr fun z => and_congr_left fun hz => ?_
    have hzy : z ≠ y := fun heq => hkx (by rw [← hz.1, heq, hy])
    simp [hzy]

/-- A pair is gone. -/
theorem Lists.erase (h : Lists (a ++ x :: b) m) (hk : ∀ y ∈ a ++ b, y.lo ≠ x.lo) :
    Lists (a ++ b) (update m x.lo none) := by
  intro k v
  by_cases hkx : k = x.lo
  · subst hkx
    rw [update_self]
    refine ⟨nofun, fun ⟨z, hz, hlo, _⟩ => absurd hlo (hk z hz)⟩
  · rw [update_of_ne hkx, h k v]
    refine exists_congr fun z => and_congr_left fun hz => ?_
    have hzx : z ≠ x := fun heq => hkx (by rw [← hz.1, heq])
    simp [hzx]

/-- The pairs without one have other keys. -/
theorem Sorted.lo_ne (h : Sorted (a ++ x :: b)) : ∀ y ∈ a ++ b, y.lo ≠ x.lo := by
  obtain ⟨_, ha, hb, hle, _⟩ := Sorted.append_cons_iff.1 h
  intro y hy heq
  have hlow : y.low = x.low := congrArg num heq
  rcases mem_append.1 hy with hy | hy
  · have := ha y hy
    omega
  · have := hb y hy
    have := h.le y (mem_mid_right hy)
    omega

end

variable {s : Head g} {m : Dict g.keylen} {key : Key g.keylen} {val : Word} {ps : List Word}

/-- The call does to the tree what the map is to become. -/
def Answers (s : Head g) (m : Dict g.keylen) (call : Call g.keylen) : Prop :=
  ∃ s' r m', treeStep s call = some (s', r) ∧ m.Spec call r m' ∧ StandsFor s' m'

/-! ### Reading -/

theorem StandsFor.btreeLookup (hR : StandsFor s m) : btreeLookup s key = some ((m key).getD 0) := by
  obtain ⟨E, hE, hm⟩ := hR
  unfold Btree.btreeLookup
  rcases hE with ⟨hh, _, rfl⟩ | ⟨d, R, ps, hleafs, rfl⟩
  · rw [lookupPair, if_pos hh, hm.nil]
    rfl
  by_cases hk : m key = none
  · rw [hk]
    rcases hleafs.lookupPair_absent (hm.absent hk) with hpair | ⟨_, p, i, nd, hpair, hload, hval⟩
    · rw [hpair]
      rfl
    · rw [hpair]
      dsimp only [bind_eq_bind, bind_some]
      rw [hload, bind_some, hval]
      rfl
  · obtain ⟨x, hx, rfl, hword⟩ := hm.exists_mem hk
    obtain ⟨A, c, B, u, v, rfl, hslots, hpair⟩ := hleafs.lookupPair_present hx
    have hload := hleafs.row.mid.load
    rw [hslots] at hload
    rw [hpair, hword]
    dsimp only [bind_eq_bind, bind_some]
    rw [hload, bind_some, val_slots]
    rfl

theorem treeStep_lookup (hR : StandsFor s m) : Answers s m (.lookup key) := by
  refine ⟨s, .value ((m key).getD 0), m, ?_, ⟨rfl, rfl⟩, hR⟩
  rw [treeStep, hR.btreeLookup]
  rfl

theorem treeStep_last (hR : StandsFor s m) : Answers s m .last := by
  have hR' := hR
  obtain ⟨E, hE, hm⟩ := hR'
  rcases hE with ⟨hh, _, rfl⟩ | ⟨d, R, ps, hleafs, rfl⟩
  · refine ⟨s, .pair 0 none, m, ?_, ⟨rfl, .inl ⟨hm.nil, rfl⟩⟩, hR⟩
    rw [treeStep, btreeLast, if_pos hh]
    rfl
  rcases hleafs.btreeLast_spec with ⟨hnil, o, hrun⟩ | ⟨x, E, hE, hrun⟩
  · refine ⟨s, .pair 0 o, m, ?_, ⟨rfl, .inl ⟨(hnil ▸ hm).nil, rfl⟩⟩, hR⟩
    rw [treeStep, hrun]
    rfl
  have hsorted := hleafs.row.sorted
  rw [hE] at hsorted hm
  refine ⟨s, .pair x.word (some x.lo), m, ?_,
    ⟨rfl, .inr ⟨x.lo, rfl, hm.of_mem (mem_cons_self ..), fun k' hk' => ?_⟩⟩, hR⟩
  · rw [treeStep, hrun]
    rfl
  obtain ⟨y, hy, rfl, _⟩ := hm.exists_mem hk'
  refine longcmp_le_zero_iff.2 ?_
  rcases mem_cons.1 hy with rfl | hy
  · exact le_refl _
  · have h1 := (pairwise_cons.1 hsorted.falling).1 y hy
    have h2 := hsorted.le y (mem_cons_of_mem _ hy)
    exact le_of_lt (lt_of_le_of_lt h2 h1)

/-! ### Writing -/

theorem treeStep_update (hR : StandsFor s m) (hlegal : m.Legal (.update key val)) :
    Answers s m (.update key val) := by
  obtain ⟨hval, hzero⟩ := hlegal
  by_cases hk : m key = none
  · have hpair : lookupPair s key = some none := by
      obtain ⟨E, hE, hm⟩ := hR
      rcases hE with ⟨hh, _, rfl⟩ | ⟨d, R, ps, hleafs, rfl⟩
      · rw [lookupPair, if_pos hh]
      · exact (hleafs.lookupPair_absent (hm.absent hk)).resolve_right fun hz => hzero hz.1 hk
    refine ⟨s, .code (-ENOENT), m, ?_, .inr ⟨hk, rfl, rfl⟩, hR⟩
    rw [treeStep, btreeUpdate, hpair]
    rfl
  obtain ⟨E, hE, hm⟩ := hR
  obtain ⟨x, hx, rfl, _⟩ := hm.exists_mem hk
  rcases hE with ⟨hh, _, rfl⟩ | ⟨d, R, ps, hleafs, rfl⟩
  · cases hx
  obtain ⟨A, c, B, u, v, rfl, hslots, hpair⟩ := hleafs.lookupPair_present hx
  obtain ⟨nd, hload, hleafs'⟩ := hleafs.setval hslots hval
  have hsorted := hleafs.row.sorted
  have hassoc : ∀ y : Ent g.keylen, flat (A ++ ⟨c.ent, u ++ y :: v⟩ :: B) = (flat A ++ u) ++ y ::
      (v ++ flat B) := by
    intro y
    rw [flat_append_cons]
    simp
  have hflat : flat (A ++ c :: B) = (flat A ++ u) ++ x :: (v ++ flat B) := by
    rw [← hassoc, flat_append_cons, flat_append_cons, hslots]
  rw [hflat] at hsorted hm
  refine ⟨_, .code 0, update m x.lo (some val), ?_, .inl ⟨hk, rfl, rfl⟩, _,
    .inr ⟨d, _, ps, hleafs', rfl⟩, ?_⟩
  · rw [treeStep, btreeUpdate, hpair]
    dsimp only [bind_eq_bind, bind_some]
    rw [hload]
    rfl
  · rw [hassoc]
    have hrest : Lists (flat A ++ u ++ (v ++ flat B)) (update m x.lo none) := hm.erase hsorted.lo_ne
    have hset := hrest.set (x := x) (y := { x with word := val }) hsorted.lo_ne rfl
    rwa [update_idem] at hset

theorem holds_of_up (hup : Up s d E Q ps) (hd : s.height = d) (hpos : 0 < d)
    (hone : ∀ x ∈ E, x.top = x.low) : Holds s E := by
  obtain ⟨d, rfl⟩ : ∃ d', d = d' + 1 := ⟨d - 1, by omega⟩
  obtain ⟨R, ps', rfl, _, hrow, hfill, hup⟩ := hup
  exact .inr ⟨d, R, ps', ⟨hd, hrow.mono fun _ _ _ => trivial, hfill, hup, hone⟩, rfl⟩

/-- A leaf is to lose a pair. -/
theorem Leafs.loses (h : Leafs s d (A ++ c :: B) ps) (hslots : c.slots = u ++ x :: v) :
    Loses s (fun _ => True) A ⟨c.ent, u ++ v⟩ B ps (u.map Ent.pair) x.pair (v.map Ent.pair) ∧
      Up s d (entries (A ++ ⟨c.ent, u ++ v⟩ :: B)) (Mark A ⟨c.ent, u ++ v⟩ B) ps := by
  have hhalf : 1 ≤ g.noPairs / 2 := by have := g.room; omega
  have hload := h.row.mid.load
  have hin := h.row.mid.inside
  have hroom := h.row.mid.room
  have hsorted := h.row.sorted
  rw [flat_append_cons] at hsorted
  rw [hslots] at hload hin hroom hsorted
  rw [map_append, map_cons] at hload
  have hrest : Sorted (flat A ++ u ++ x :: (v ++ flat B)) := by simpa using hsorted
  obtain ⟨hrest, _, _, _, hne⟩ := Sorted.append_cons_iff.1 hrest
  have habove : Above s d (fun _ => True) (A ++ c :: B) ps := ⟨h.row, h.filled, h.up⟩
  exact habove.loses hload (fun _ _ _ => rfl) rfl rfl (map_append ..) (by simpa using hroom) hne
    (by simpa using hrest) (fun y hy => hin y (by simp only [mem_append, mem_cons] at hy ⊢; tauto))
    (.of_forall hhalf fun _ _ => trivial) (fun _ _ _ => trivial)
    (fun hne => (exists_mem_of_ne_nil _ hne).imp fun _ hy => ⟨hy, trivial⟩)
    (by rw [hslots]; simp only [length_append, length_cons]; omega)

/-- The leaf has lost it. -/
theorem Leafs.holds_of_leaves (h : Leafs s d (A ++ c :: B) ps) (hslots : c.slots = u ++ x :: v)
    (hleaves : Leaves s (d + 1) (flat (A ++ ⟨c.ent, u ++ v⟩ :: B)) (fun _ => True) ps' s') :
    Holds s' (flat A ++ u ++ (v ++ flat B)) := by
  have hheight := h.height
  have hassoc : flat A ++ (u ++ v) ++ flat B = flat A ++ u ++ (v ++ flat B) := by simp
  obtain ⟨hpos, d', ps', hh, hup', _⟩ := hleaves
  rw [flat_append_cons, hassoc] at hup'
  refine holds_of_up hup' (by omega) (by omega) fun y hy => h.one y ?_
  rw [flat_append_cons, hslots]
  simp only [mem_append, mem_cons] at hy ⊢
  tauto

/-- A pair of a leaf is removed. -/
theorem Leafs.btreeRemove_spec (h : Leafs s d R ps) (hx : flat R = a ++ x :: b) :
    ∃ s', btreeRemove s x.lo = some (s', x.word) ∧ Holds s' (a ++ b) := by
  have hsorted := h.row.sorted
  have hheight := h.height
  rw [hx] at hsorted
  obtain ⟨hrest, ha, hb, hle, hne⟩ := Sorted.append_cons_iff.1 hsorted
  obtain ⟨A, c, B, u, v, rfl, hslots, rfl, rfl⟩ := exists_of_flat_eq hx
  obtain ⟨hloses, hup⟩ := h.loses hslots
  have hinx := h.row.mid.inside x (hslots ▸ mem_append_cons_self)
  have hleads : Leads (.arg x.lo) x.lo ⟨c.ent, u ++ v⟩ (u.map Ent.pair) x.pair
      (v.map Ent.pair) 1 := by
    refine ⟨fun p hp => ?_, le_refl _, fun p hp => ?_, hinx.1, le_trans hle hinx.2,
      fun _ => rfl, .inl rfl⟩
    · obtain ⟨y, hy, rfl⟩ := mem_map.1 hp
      exact lt_of_le_of_lt hle (ha y (mem_append_right _ hy))
    · obtain ⟨y, hy, rfl⟩ := mem_map.1 hp
      have hyb : y ∈ v ++ flat B := mem_append_left _ hy
      exact le_trans (hsorted.le y (mem_mid_right hyb)) (le_of_lt (hb y hyb))
  obtain ⟨⟨s', w⟩, hrun, rfl, hleaves⟩ :=
    btreeRemoveLevel_spec d (show d + 1 ≤ s.height + 1 by omega) hloses hleads hup
    (by omega) (by omega)
  refine ⟨s', ?_, h.holds_of_leaves hslots hleaves⟩
  rw [btreeRemove, if_neg (by omega), hrun]
  rfl

theorem treeStep_remove (hR : StandsFor s m) (hlegal : m.Legal (.remove key)) :
    Answers s m (.remove key) := by
  obtain ⟨E, hE, hm⟩ := hR
  obtain ⟨x, hx, rfl, hword⟩ := hm.exists_mem hlegal
  have hsorted := hE.sorted
  rcases hE with ⟨_, _, rfl⟩ | ⟨d, R, ps, hleafs, rfl⟩
  · cases hx
  obtain ⟨a, b, hab⟩ := append_of_mem hx
  obtain ⟨s', hrun, hE'⟩ := hleafs.btreeRemove_spec hab
  rw [hab] at hsorted hm
  refine ⟨s', .value x.word, _, ?_, ⟨hword, rfl⟩, a ++ b, hE', hm.erase hsorted.lo_ne⟩
  rw [treeStep, hrun]
  rfl

/-- A pair that is not there is inserted, or there is no memory for it. -/
theorem Holds.btreeInsert_spec (h : Holds s (a ++ b)) (hval : val ≠ 0)
    (ha : ∀ y ∈ a, num key < y.low) (hb : ∀ y ∈ b, y.low < num key) :
    ∃ s' r, btreeInsert s key val = some (s', r) ∧
      (r = 0 ∧ Holds s' (a ++ ⟨key, num key, val⟩ :: b) ∨ r = -ENOMEM ∧ Holds s' (a ++ b)) := by
  have hone := h.one
  let x : Ent g.keylen := ⟨key, num key, val⟩
  have hx : Fresh x a b := ⟨ha, hb, le_refl _, hval, .inl rfl⟩
  have hcut : cut (num key) b = b := by
    refine cut_of_lt fun y hy => ?_
    rw [hone y (mem_append_right _ hy)]
    exact hb y hy
  have hone' : ∀ y ∈ a ++ x :: b, y.top = y.low := by
    intro y hy
    rcases mem_mid.1 hy with hy | rfl | hy
    · exact hone y (mem_append_left _ hy)
    · rfl
    · exact hone y (mem_append_right _ hy)
  rcases h with ⟨hh, hnode, hnil⟩ | ⟨d, R, ps, h, hE⟩
  · -- the first pair, in a new root
    obtain ⟨rfl, rfl⟩ := append_eq_nil_iff.1 hnil
    rcases btreeNodeAlloc_cases s with
      ⟨s1, halloc, _, hn1, hh1⟩ | ⟨s1, p, halloc, _, hp1, _, hn1, hh1⟩
    · refine ⟨s1, -ENOMEM, btreeInsertLevel_enomem (x := x) hval (by omega) halloc,
        .inr ⟨rfl, .inl ?_⟩⟩
      exact ⟨hh1.trans hh, hn1.trans hnode, rfl⟩
    have hgrow : growPair s1 p = some s1 := by rw [growPair, if_pos (hn1.trans hnode)]
    have hload : ({ s1 with node := p, height := s.height + 1 } : Head g).load p =
        some (ofPairs (([] ++ [] : List (Ent g.keylen)).map Ent.pair)) := hp1
    obtain ⟨s3, hrun, hup, _, hh3⟩ := insertInto_newRoot (Q := fun _ => True)
      (s.height + 1) rfl hload (zero_le 1) (fun _ => congrArg (· + 1) hh) .nil hx nofun (le_refl _)
      (.arg (k := key))
    have hlevel : btreeInsertLevel (s.height + 1 + 1) s (.arg key) val 1 = some (s3, 0) :=
      (btreeInsertLevel_grow (x := x) hval (by omega) halloc hgrow hh1).trans hrun
    refine ⟨s3, 0, hlevel, .inl ⟨rfl, holds_of_up hup ?_ one_pos hone'⟩⟩
    rw [hh3, hh]
  · have hup : Up s s.height (a ++ b) (fun _ => True) (words R ++ ps) := by
      rw [h.height]
      exact ⟨R, ps, hE, rfl, h.row, h.filled, h.up⟩
    obtain ⟨⟨s', r⟩, hrun, hr⟩ :=
      btreeInsertLevel_spec s.height (show s.height + 1 ≤ s.height + 2 by omega) hup hx
      (.arg (k := key)) (le_refl _) (fun hc => by rw [h.height] at hc; cases hc)
        (show 1 = s.height + 1 - s.height by omega)
    refine ⟨s', r, hrun, ?_⟩
    have hheight := h.height
    rcases hr with ⟨rfl, d', ps', hd', hh', hup', _⟩ | ⟨rfl, hh', hup', _⟩
    · dsimp only at hh' hup'
      rw [show (x : Ent g.keylen).low = num key from rfl, hcut] at hup'
      exact .inl ⟨rfl, holds_of_up hup' (by omega) (by omega) hone'⟩
    · dsimp only at hh' hup'
      exact .inr ⟨rfl, holds_of_up hup' hh' (by omega) hone⟩

theorem treeStep_insert (hR : StandsFor s m) (hlegal : m.Legal (.insert key val)) :
    Answers s m (.insert key val) := by
  obtain ⟨hval, hk⟩ := hlegal
  obtain ⟨E, hE, hm⟩ := hR
  obtain ⟨a, b, rfl, ha, hb⟩ := hE.sorted.split (num key)
  have hne := hm.absent hk
  have hb' : ∀ y ∈ b, y.low < num key := fun y hy =>
    lt_of_le_of_ne (hb y hy) fun heq => hne y (mem_append_right _ hy) (num_inj heq)
  obtain ⟨s', r, hrun, hr⟩ := hE.btreeInsert_spec hval ha hb'
  have hstep : treeStep s (.insert key val) = some (s', .code r) := by
    rw [treeStep, hrun]
    rfl
  rcases hr with ⟨rfl, hE'⟩ | ⟨rfl, hE'⟩
  · exact ⟨s', _, _, hstep, .inl ⟨rfl, rfl⟩, _, hE', hm.set (x := ⟨key, num key, val⟩) hne rfl⟩
  · exact ⟨s', _, m, hstep, .inr ⟨rfl, rfl⟩, _, hE', hm⟩

/-- **Every call** on a tree that stands for a map does to it what the map is to become. -/
theorem treeStep_spec (s : Head g) (m : Dict g.keylen) (call : Call g.keylen) (hR : StandsFor s m)
    (hlegal : m.Legal call) :
    Answers s m call := by
  cases call with
  | insert key val => exact treeStep_insert hR hlegal
  | update key val => exact treeStep_update hR hlegal
  | lookup key => exact treeStep_lookup hR
  | remove key => exact treeStep_remove hR hlegal
  | last => exact treeStep_last hR

theorem standsFor_init (mem : Word → Node g.keylen) (live : Word → Bool) (pool : List Word) :
    StandsFor (.init mem live pool) .empty :=
  ⟨[], .inl ⟨rfl, rfl, rfl⟩, fun _ _ => ⟨nofun, fun ⟨_, hx, _⟩ => nomatch hx⟩⟩

/-- **Along every sequence of calls** a B+tree of any geometry stands for the map that the calls
make: no `BUG_ON` is hit, the return values are those of the map, `btree_last` finds the greatest
key, and a call that returns `-ENOMEM` or `-ENOENT` leaves the map as it is. -/
theorem btree_follows_dict (g : Geo) (mem : Word → Node g.keylen) (live : Word → Bool)
    (pool : List Word) (calls : List (Call g.keylen)) :
    Run.Follows Dict.Legal StandsFor treeStep Dict.Spec (.init mem live pool) .empty calls :=
  Run.follows_of_step treeStep_spec (standsFor_init mem live pool) calls

/-- With one key in the tree the zero key is not found, its update returns 0 and it is there. -/
theorem btreeUpdate_zeroKey_absent :
    (Run.outputs treeStep (.init (fun _ => .zero) (fun _ => false) [4] : Head btreeGeo32)
      [.insert #v[1] 8, .lookup #v[0], .update #v[0] 12, .lookup #v[0]]).map Prod.fst =
      some [.code 0, .value 0, .code 0, .value 12] := by
  decide +kernel

/-! ### A key that is not there -/

/-- `find_level` only lowers keys above the leaves. -/
theorem Leafs.findLevel_spec (h : Leafs s d R ps) (key : Key g.keylen) :
    ∃ s' A c B, findLevel s (.arg key) 1 = some (s', c.word) ∧ Leafs s' d (A ++ c :: B) ps ∧
      flat (A ++ c :: B) = flat R ∧ s'.load c.word = s.load c.word ∧ c.ent.low ≤ num key := by
  have hheight := h.height
  obtain ⟨s', a, e, b, hfind, hE, _, hup, hframe, _, hh⟩ :=
    Btree.findLevel_spec (le_refl (num key)) h.up
    (by omega) (show 1 = s.height - d by omega) .arg (.inl rfl)
  obtain ⟨A, c, B, rfl, rfl, rfl, rfl⟩ := exists_of_entries_eq hE
  have hin : ∀ y ∈ c.slots, (c.ent.widen key (num key)).low ≤ y.low ∧
      y.top ≤ (c.ent.widen key (num key)).top := by
    intro y hy
    obtain ⟨h1, h2⟩ := h.row.mid.inside y hy
    rw [Ent.low_widen, Ent.top_widen]
    omega
  have hflat : flat (A ++ ⟨c.ent.widen key (num key), c.slots⟩ :: B) = flat (A ++ c :: B) := by
    rw [flat_append_cons, flat_append_cons]
  have hload := h.row.mid.load
  refine ⟨s', A, ⟨c.ent.widen key (num key), c.slots⟩, B, hfind, ⟨hh.trans h.height,
    (h.row.frame hframe h.up.nodup).rekey rfl hin,
    h.filled.replace hh (h.filled c mem_append_cons_self), ?_, hflat ▸ h.one⟩, hflat,
    (hframe.keep _ _ h.row.notMem.2.2 hload).trans hload.symm, ?_⟩
  · rw [entries_append_cons]
    exact hup.mono fun x _ hbig => hbig.replace rfl (le_refl _)
  · rw [Ent.low_widen]
    omega

/-- All keys of the leaf that the key leads to are greater, and it is read behind them: the key of
an unused pair or, in a full leaf, the first values. -/
def Misread (s : Head g) (key : Key g.keylen) : Prop :=
  ∃ s' p nd, findLevel s (.arg key) 1 = some (s', p) ∧ s.load p = some nd ∧
    getpos nd key = getfill nd 0 ∧ bkey nd (getfill nd 0) = key

section

variable {w : List (Ent g.keylen)}
  {remove : Head g → KeyPtr g.keylen → Nat → Option (Head g × Word)} (hroom : w.length ≤ g.noPairs)
  (hs : Sorted w) (hload : s.load p = some (ofPairs (w.map Ent.pair)))

include hroom hs hload

/-- A leaf in which the key is not read. -/
theorem removeFrom_absent (hk : ∀ x ∈ w, x.lo ≠ key)
    (hread : ¬ (getpos (ofPairs (w.map Ent.pair)) key = w.length ∧
      bkey (ofPairs (w.map Ent.pair)) w.length = key)) :
    removeFrom remove s (.arg key) 1 p = some (s, 0) := by
  obtain ⟨u, v, rfl, hu, hv⟩ := hs.split (num key)
  unfold removeFrom
  rw [hload]
  dsimp only [Head.keyAt, bind_eq_bind, bind_some]
  rw [getpos_slots hroom hu hv] at hread ⊢
  refine if_pos ⟨rfl, mt longcmp_eq_zero_iff.1 ?_⟩
  cases v with
  | nil => simpa using hread
  | cons x v =>
    rw [bkey, if_neg (ne_noPairs hroom), key_slots]
    exact hk x mem_append_cons_self

/-- A leaf in which it is read behind the keys: the last pair is removed. -/
theorem removeFrom_misread (hpos : getpos (ofPairs (w.map Ent.pair)) key = w.length)
    (hread : bkey (ofPairs (w.map Ent.pair)) w.length = key)
    (hr : removeFrom remove s (.arg key) 1 p = some r) :
    ∃ u x, w = u ++ [x] ∧ num key < x.low ∧
      afterRemoval remove (s.store p (ofPairs (u.map Ent.pair))) (.arg key) 1 p u.length =
      some r.1 := by
  have hfill : getfill (g := g) (ofPairs (w.map Ent.pair)) w.length = w.length :=
    getfill_slots hroom (le_refl _) hs.ne
  unfold removeFrom at hr
  rw [hload] at hr
  dsimp only [Head.keyAt, bind_eq_bind, bind_some] at hr
  rw [hpos, hfill, hread, if_neg (fun hc => hc.2 (longcmp_eq_zero_iff.2 rfl))] at hr
  split at hr
  next => cases hr
  next hne =>
    have hnil : w ≠ [] := fun hnil => hne (.inr (by rw [hnil]; rfl))
    obtain ⟨u, x, rfl⟩ := (eq_nil_or_concat' w).resolve_left hnil
    have hshift := shiftLeft_ofPairs (a := u.map Ent.pair) (x := x.pair) (b := []) rfl
    have hclear : (ofPairs ((u ++ [x]).map Ent.pair)).clearpair u.length = ofPairs
        (u.map Ent.pair) := by
      simpa [shiftLeft] using hshift
    have hlen : (u ++ [x]).length - 1 = u.length := by simp
    rw [hlen, show u.length - (u ++ [x]).length = 0 by simp, shiftLeft, hclear] at hr
    obtain ⟨s', hafter, heq⟩ := bind_eq_some_iff.1 hr
    cases heq
    refine ⟨u, x, rfl, ?_, hafter⟩
    obtain ⟨a, b, hab, ha, hb⟩ := hs.split (num key)
    rw [hab, getpos_slots (hab ▸ hroom) ha hb, length_append, left_eq_add,
      length_eq_zero_iff] at hpos
    rw [hpos, append_nil] at hab
    exact ha x (hab ▸ mem_append_cons_self)

end

/-- **The removal of a key that is not there** returns NULL and leaves the map as it is **exactly
if** the key is not read behind the keys of its leaf. -/
theorem btreeRemove_absent_iff (g : Geo) (s : Head g) (m : Dict g.keylen) (key : Key g.keylen)
    (hR : StandsFor s m) (hk : m key = none) :
    (∃ s', btreeRemove s key = some (s', 0) ∧ StandsFor s' m ∧
      ∀ k, btreeLookup s' k = btreeLookup s k) ↔ ¬ Misread s key := by
  have hR' := hR
  obtain ⟨E, ⟨hh, hn, rfl⟩ | ⟨d, R, ps, h, rfl⟩, hm⟩ := hR'
  · refine iff_of_true ⟨s, if_pos hh, hR, fun _ => rfl⟩ fun ⟨s', p, nd, hfind, _⟩ => ?_
    simp [findLevel, hh, findLoop, hn] at hfind
  have hheight := h.height
  obtain ⟨s', A, c, B, hfind, h', hflat, hload, hlow⟩ := h.findLevel_spec key
  have hchild := h'.row.mid
  have hsorted := h'.row.sorted_slots
  have hrun : btreeRemove s key = removeFrom (btreeRemoveLevel s.height) s'
      (.arg key) 1 c.word := by
    rw [btreeRemove, if_neg (by omega), btreeRemoveLevel, if_neg (by omega), hfind]
    rfl
  have hfill : getfill (g := g) (ofPairs (c.slots.map Ent.pair)) 0 = c.slots.length :=
    getfill_slots hchild.room (zero_le _) hsorted.ne
  have hmis : Misread s key ↔ getpos (ofPairs (c.slots.map Ent.pair)) key = c.slots.length ∧
      bkey (ofPairs (c.slots.map Ent.pair)) c.slots.length = key := by
    rw [← hfill]
    constructor
    · rintro ⟨s1, p, nd, hfind', hnd, hread⟩
      cases hfind.symm.trans hfind'
      cases (hload.symm.trans hchild.load).symm.trans hnd
      exact hread
    · exact fun hread => ⟨s', c.word, _, hfind, hload.symm.trans hchild.load, hread⟩
  rw [hrun, hmis]
  constructor
  · rintro ⟨s2, hrun2, -, hsame⟩ ⟨hpos, hread⟩
    obtain ⟨u, x, hw, hlt, hafter⟩ :=
      removeFrom_misread hchild.room hsorted hchild.load hpos hread hrun2
    obtain ⟨hloses, hup⟩ := h'.loses hw
    have hx : x ∈ c.slots := hw ▸ mem_append_cons_self
    have htop := (hchild.inside x hx).2
    have hle := hsorted.le x hx
    have hheight' := h'.height
    obtain ⟨_, hafter', hleaves⟩ := hloses.afterRemoval_spec (k := key)
      (fun d' _ => btreeRemoveLevel_spec d' (show d' + 1 ≤ s.height by omega)) hup .arg
      (fun _ => rfl) hlow (show num key ≤ c.ent.top by omega) (by omega)
      (show 1 = s'.height - d by omega)
    simp only [map_nil, append_nil, length_map] at hafter'
    cases hafter.symm.trans hafter'
    have hE : flat R = flat A ++ u ++ x :: ([] ++ flat B) := by
      rw [← hflat, flat_append_cons, hw]; simp
    have hsortedR := h.row.sorted
    rw [hE] at hsortedR hm
    have hstands : StandsFor s2 (update m x.lo none) :=
      ⟨_, h'.holds_of_leaves hw hleaves, hm.erase hsortedR.lo_ne⟩
    have hlost := hsame x.lo
    rw [hstands.btreeLookup, hR.btreeLookup, update_self, hm.of_mem mem_append_cons_self] at hlost
    exact hsorted.ne x hx (Option.some.inj hlost).symm
  · intro hread
    have hstands : StandsFor s' m := ⟨_, .inr ⟨d, _, ps, h', rfl⟩, hflat ▸ hm⟩
    refine ⟨s', removeFrom_absent hchild.room hsorted hchild.load (fun x hx => hm.absent hk x ?_)
      hread, hstands, fun k => hstands.btreeLookup.trans hR.btreeLookup.symm⟩
    exact hflat ▸ mem_flat mem_append_cons_self hx

/-- With the value 8 at key 1, the removal of key 8. -/
theorem btreeRemove_absent_iff_one : ∃ s : Head btreeGeo32,
    StandsFor s (update Dict.empty #v[1] (some 8)) ∧ ∃ s', btreeRemove s #v[8] = some (s', 0) ∧ ∀ k,
    btreeLookup s' k = btreeLookup s k := by
  obtain ⟨s, r, m, hstep, hspec, hR⟩ : Answers _ _ (.insert #v[1] 8) := treeStep_insert
    (standsFor_init (g := btreeGeo32) (fun _ => .zero) (fun _ => false) [4]) ⟨by decide, rfl⟩
  have hcalc : (treeStep (.init (fun _ => .zero) (fun _ => false) [4] : Head btreeGeo32)
      (.insert #v[1] 8)).bind (fun r => (findLevel r.1 (.arg #v[8]) 1).bind fun f =>
        (r.1.load f.2).map fun nd =>
          (r.2, decide (getpos (g := btreeGeo32) nd #v[8] = getfill (g := btreeGeo32) nd 0))) =
      some (.code 0, false) := by
    decide +kernel
  rw [hstep, bind_some] at hcalc
  have hread : ¬ Misread s #v[8] := by
    rintro ⟨s', p, nd, hfind, hload, hpos, -⟩
    rw [hfind, bind_some, hload, map_some, hpos] at hcalc
    simp at hcalc
  obtain ⟨f, -, hload⟩ := bind_eq_some_iff.1 hcalc
  obtain ⟨nd, -, heq⟩ := map_eq_some_iff.1 hload
  obtain rfl : r = .code 0 := congrArg Prod.fst heq
  obtain ⟨-, rfl⟩ := hspec.resolve_right fun hc => absurd hc.1 (by decide)
  obtain ⟨s', hrun, -, hsame⟩ :=
    (btreeRemove_absent_iff btreeGeo32 s _ #v[8] hR (by decide)).2 hread
  exact ⟨s, hR, s', hrun, hsame⟩

/-- The zero key is not in the tree, and its removal takes away another key. -/
theorem btreeRemove_zeroKey_absent :
    (Run.outputs treeStep (.init (fun _ => .zero) (fun _ => false) [4] : Head btreeGeo32)
      [.insert #v[1] 8, .lookup #v[0], .remove #v[0], .lookup #v[1]]).map Prod.fst =
      some [.code 0, .value 0, .value 0, .value 0] := by
  decide +kernel

end SilanKernel.Btree
