import SilanKernel.Data.Run
import SilanKernel.Lib.BtreeRep

/-!
# SilanKernel.Lib.BtreeFind

The ways down a B+tree: `find_level`, `btree_lookup` and `btree_last` of `lib/btree.c`.

`find_level` goes to the node whose range has the key, or is to have it: where the key is less than
all in a node, it lowers the last key of that node. In terms of ranges, each node on the way is
widened to have the key in it.
-/

namespace SilanKernel.Btree

open List Ent Sorted

section

variable {x : Ent n} {k t : Nat}

theorem Sorted.cmp (h : Sorted E) (hx : x ∈ E) (hy : y ∈ E) : x = y ∨ y.top < x.low ∨
    x.top < y.low := by
  obtain ⟨a, b, rfl⟩ := append_of_mem hx
  obtain ⟨_, ha, hb, _⟩ := append_cons_iff.1 h
  rcases mem_mid.1 hy with hy | rfl | hy
  · exact .inr (.inr (ha y hy))
  · exact .inl rfl
  · exact .inr (.inl (hb y hy))

/-- The numbers from `k` to `t` are one number, or in the range of one pair. -/
def Fits (k t : Nat) (E : List (Ent n)) : Prop := t = k ∨ ∃ e ∈ E, e.low ≤ k ∧ t ≤ e.top

theorem Fits.lt (h : Fits k t E) (hE : Sorted E) (hx : x ∈ E) (hk : k < x.low) : t < x.low := by
  rcases h with rfl | ⟨e, he, hle, ht⟩
  · exact hk
  rcases hE.cmp hx he with rfl | hlt | hlt
  · omega
  · omega
  · have := hE.le x hx
    omega

theorem Fits.above (h : Fits k t (flat R))
    (hR : ∀ c ∈ R, ∀ x ∈ c.slots, c.ent.low ≤ x.low ∧ x.top ≤ c.ent.top) :
    Fits k t (entries R) := by
  rcases h with rfl | ⟨e, he, hle, ht⟩
  · exact .inl rfl
  · obtain ⟨c, hc, hec⟩ := mem_flatMap.1 he
    obtain ⟨hlow, htop⟩ := hR c hc e hec
    exact .inr ⟨c.ent, mem_map_of_mem hc, le_trans hlow hle, le_trans ht htop⟩

end

variable {g : Geo} {s s' : Head g} {key : KeyPtr g.keylen} {k : Key g.keylen} {t : Nat}
  {Q : Word → Prop} {c : Child g.keylen} {e : Ent g.keylen}

theorem map_pair_eq {u v : List (Ent g.keylen)} {e' : Ent g.keylen} (h : e'.pair = e.pair) :
    (u ++ e' :: v).map pair = (u ++ e :: v).map pair := by
  rw [map_append, map_append, map_cons, map_cons, h]

theorem ne_noPairs {u v : List α} (hroom : (u ++ x :: v).length ≤ g.noPairs) :
    u.length ≠ g.noPairs := by
  rw [length_append, length_cons] at hroom
  omega

/-- The words of a node and where `getpos` stops in it. -/
theorem getpos_slots {u v : List (Ent g.keylen)} (hroom : (u ++ v).length ≤ g.noPairs)
    (hu : ∀ x ∈ u, num k < x.low) (hv : ∀ x ∈ v, x.low ≤ num k) :
    getpos (ofPairs ((u ++ v).map pair)) k = u.length := by
  rw [map_append, getpos_ofPairs (by simpa using hroom), length_map]
  · intro p hp
    obtain ⟨x, hx, rfl⟩ := mem_map.1 hp
    exact hu x hx
  · intro p hp
    obtain ⟨x, hx, rfl⟩ := mem_map.1 hp
    exact hv x hx

theorem getfill_slots {l : List (Ent g.keylen)} {start : Nat} (hroom : l.length ≤ g.noPairs)
    (hstart : start ≤ l.length) (hne : ∀ x ∈ l, x.word ≠ 0) :
    getfill (g := g) (ofPairs (l.map pair)) start = l.length := by
  rw [getfill_ofPairs (by simpa using hroom) (by simpa using hstart), length_map]
  intro p hp
  obtain ⟨x, hx, rfl⟩ := mem_map.1 hp
  exact hne x hx

theorem val_slots {u v : List (Ent g.keylen)} :
    (ofPairs ((u ++ e :: v).map pair)).val u.length = e.word := by
  rw [map_append, map_cons, ← length_map pair]
  exact val_ofPairs

theorem key_slots : (ofPairs ((u ++ e :: v).map pair)).key u.length = e.lo := by
  rw [map_append, map_cons, ← length_map pair]
  exact key_ofPairs

/-- One level of `find_level`. -/
theorem findStep_spec (hc : ChildOk s Q c) (hs : Sorted c.slots) (hne : c.slots ≠ [])
    (hk : s.keyAt key = some k) (t : Nat) :
    ∃ s' u e v, findStep s key c.word = some (s', e.word) ∧ c.slots = u ++ e :: v ∧
      (∀ x ∈ u, num k < x.low) ∧ (e.low ≤ num k ∨ v = []) ∧
      s'.load c.word = some (ofPairs ((u ++ e.widen k t :: v).map pair)) ∧
      (∀ q, q ≠ c.word → s'.load q = s.load q) ∧ s'.node = s.node ∧ s'.height = s.height := by
  have hload := hc.load
  have hroom := hc.room
  have hword := hs.ne
  obtain ⟨u, v, huv, hu, hv⟩ := hs.split (num k)
  rw [huv] at hload hroom hne hword
  have hpos := getpos_slots hroom hu hv
  unfold findStep
  rw [hload, hk]
  dsimp only [Option.bind_eq_bind, Option.bind_some]
  rw [hpos]
  cases v with
  | cons e v =>
    have he : e.word ≠ 0 := hword e mem_append_cons_self
    have hle : e.low ≤ num k := hv e (mem_cons_self ..)
    rw [val_slots, if_neg (not_or.2 ⟨ne_noPairs hroom, he⟩)]
    refine ⟨s, u, e, v, rfl, huv, hu, .inl hle, ?_, fun _ _ => rfl, rfl, rfl⟩
    rw [hload, map_pair_eq (pair_widen t hle)]
  | nil =>
    rw [append_nil] at hload hroom hne huv hword ⊢
    -- all keys are greater, and the last one is lowered
    have hend : u.length = g.noPairs ∨ (ofPairs (u.map pair)).val u.length = 0 :=
      .inr (val_ofPairs_of_le (by simp))
    obtain ⟨u0, e, rfl⟩ := (eq_nil_or_concat' u).resolve_left hne
    have hlow : num k < e.low := hu e (mem_append_right _ (mem_singleton_self e))
    rw [if_pos hend, length_append, length_singleton, if_neg (by omega),
      Nat.add_sub_cancel, val_slots]
    refine ⟨_, u0, e, [], rfl, huv, fun x hx => hu x (mem_append_left _ hx), .inr rfl, ?_,
      fun q hq => Head.load_store_ne hq, rfl, rfl⟩
    have hwiden : (e.widen k t).pair = (k, e.word) := by
      unfold widen pair
      rw [if_pos hlow]
    rw [Head.load_store_self hload, map_append, map_append, map_cons, map_cons, hwiden]
    rw [← length_map pair, setkey_ofPairs]
    rfl

/-- The first `d` turns of the loop of `find_level`: the key gets into the range of the node
found. -/
theorem findLoop_spec (hkt : num k ≤ t) : ∀ {d : Nat} {E : List (Ent g.keylen)} {Q : Word → Prop}
    {ps : List Word}, Up s d E Q ps → d < s.height → KeyIs s key k ps → Fits (num k) t E →
    ∃ s' a e b, findLoop s key d = some (s', e.word) ∧ E = a ++ e :: b ∧ (∀ x ∈ a, num k < x.low) ∧
      Up s' d (a ++ e.widen k t :: b) Q ps ∧ Frame s s' ps ps ∧ s'.node = s.node ∧
      s'.height = s.height
  | 0, E, Q, ps, ⟨hps, e, hE, hw, hne, hle, hq⟩, _, _, _ => by
    refine ⟨s, [], e, [], ?_, hE, nofun, ⟨hps, e.widen k t, rfl, hw, hne, ?_, hq⟩,
      Frame.refl .., rfl, rfl⟩
    · rw [findLoop, hw]
    · rw [low_widen, top_widen]
      omega
  | d + 1, E, Q, ps, ⟨R, ps', hE, hps, hrow, hfill, hup⟩, hd, hkey, hfits => by
    subst hE hps
    have hkey' : KeyIs s key k ps' := hkey.mono fun p hp => mem_append_right _ hp
    obtain ⟨s1, a1, e1, b1, hfind, hent, ha1, hup1, hframe, hn1, hh1⟩ :=
      findLoop_spec hkt hup (by omega) hkey'
      (hfits.above fun c hc => (hrow.child c hc).inside)
    obtain ⟨A, c, B, rfl, rfl, rfl, rfl⟩ := exists_of_entries_eq hent
    have hrow1 := hrow.frame hframe hup.nodup
    have hne : c.slots ≠ [] := fun hnil =>
      absurd (hfill c mem_append_cons_self hnil) (by omega)
    have hkey1 := (hkey'.frame hframe).eq
    obtain ⟨s2, u, e, v, hstep, hslots, hu, hlast, hload2, hs2, hn2, hh2⟩ :=
      findStep_spec hrow1.mid hrow1.sorted_slots hne hkey1 t
    have hflat : flat (A ++ c :: B) = (flat A ++ u) ++ e :: (v ++ flat B) := by
      rw [flat_append_cons, hslots]
      simp
    have hsorted := hrow.sorted
    rw [hflat] at hsorted
    obtain ⟨hrest, hea, heb, hle, hw⟩ := append_cons_iff.1 hsorted
    have hall : ∀ x ∈ flat A ++ u, num k < x.low := by
      intro x hx
      rcases mem_append.1 hx with hx | hx
      · obtain ⟨c', hc', hx'⟩ := mem_flatMap.1 hx
        exact Nat.lt_of_lt_of_le (ha1 c'.ent (mem_map_of_mem hc'))
          ((hrow.child c' (mem_append_left _ hc')).inside x hx').1
      · exact hu x hx
    have hsorted' : Sorted ((flat A ++ u) ++ e.widen k t :: (v ++ flat B)) := by
      refine append_cons_iff.2 ⟨hrest, fun x hx => ?_, fun x hx => ?_, ?_, hw⟩
      · have ht := hfits.lt hrow.sorted (hflat ▸ mem_append_left _ hx) (hall x hx)
        rw [top_widen]
        exact Nat.max_lt.2 ⟨hea x hx, ht⟩
      · rw [low_widen]
        refine Nat.lt_min.2 ⟨heb x hx, ?_⟩
        rcases hlast with hlow | rfl
        · exact Nat.lt_of_lt_of_le (heb x hx) hlow
        -- the pairs of the nodes to the right, which are under the widened range
        · obtain ⟨c', hc', hx'⟩ := mem_flatMap.1 (show x ∈ flat B from hx)
          have htop := ((hrow.child c' (mem_mid_right hc')).inside x hx').2
          have hlt := (append_cons_iff.1 hup1.sorted).2.2.1 c'.ent (mem_map_of_mem hc')
          rw [low_widen] at hlt
          omega
      · rw [low_widen, top_widen]
        omega
    let c' : Child g.keylen := ⟨c.ent.widen k t, u ++ e.widen k t :: v⟩
    have hlen : c'.slots.length = c.slots.length := by
      show (u ++ e.widen k t :: v).length = c.slots.length
      rw [hslots, length_append, length_append, length_cons, length_cons]
    have hc' : ChildOk s2 Q c' := by
      refine ⟨hload2, hlen ▸ hrow1.mid.room, fun x hx => ?_, ?_⟩
      · have hin := hrow1.mid.inside
        rw [hslots] at hin
        show (c.ent.widen k t).low ≤ x.low ∧ x.top ≤ (c.ent.widen k t).top
        rw [low_widen, top_widen]
        rcases mem_mid.1 hx with hx | rfl | hx
        · obtain ⟨h1, h2⟩ := hin x (mem_append_left _ hx)
          omega
        · obtain ⟨h1, h2⟩ := hin e mem_append_cons_self
          rw [low_widen, top_widen]
          omega
        · obtain ⟨h1, h2⟩ := hin x (mem_mid_right hx)
          omega
      · have hnear := hrow1.mid.near
        rw [hslots] at hnear
        simpa only [c', map_append, map_cons, word_widen] using hnear
    have hflat' : flat A ++ c'.slots ++ flat B = (flat A ++ u) ++ e.widen k t :: (v ++ flat B) := by
      simp [c']
    have hrow2 : IsRow s2 Q (A ++ c' :: B) ps' := hrow1.replace rfl hc' (hflat' ▸ hsorted') hs2
    have hup2 : Up s2 d (entries (A ++ c' :: B)) (Big (A ++ c' :: B)) ps' := by
      have hup2 := hup1.congr (fun p hp => hs2 p fun hc => hrow.notMem.2.2 (hc ▸ hp)) hn2 hh2
      rw [entries_append_cons]
      exact hup2.mono fun x _ hbig => hbig.replace rfl (Nat.le_of_eq hlen.symm)
    have hwords : words (A ++ c' :: B) = words (A ++ c :: B) := by
      rw [words_append_cons, words_append_cons]
      rfl
    refine ⟨s2, flat A ++ u, e, v ++ flat B, ?_, hflat, hall, ?_, ?_, hn2.trans hn1, hh2.trans hh1⟩
    · rw [findLoop, hfind]
      exact hstep
    · refine ⟨A ++ c' :: B, ps', ?_, by rw [hwords], hrow2, ?_, hup2⟩
      · rw [flat_append_cons, hflat']
      · exact hfill.replace (hh2.trans hh1) fun hnil => absurd hnil (by simp [c'])
    · have hmem : c.word ∈ words (A ++ c :: B) ++ ps' := by simp
      refine (hframe.mono (fun p hp => mem_append_right _ hp) fun p hp => .inl hp).trans
        ⟨fun p nd hp hnd => ?_, fun _ h => .inl h⟩
      rwa [hs2 p fun hc => hp (hc ▸ hmem)]

/-- `find_level` for the nodes under `E`. -/
theorem findLevel_spec (hkt : num k ≤ t) (hup : Up s d E Q ps) (hd : d < s.height)
    (hlevel : level = s.height - d) (hkey : KeyIs s key k ps) (hfits : Fits (num k) t E) :
    ∃ s' a e b, findLevel s key level = some (s', e.word) ∧ E = a ++ e :: b ∧
      (∀ x ∈ a, num k < x.low) ∧ Up s' d (a ++ e.widen k t :: b) Q ps ∧ Frame s s' ps ps ∧
      s'.node = s.node ∧ s'.height = s.height := by
  obtain ⟨s', a, e, b, hfind, hE, ha, hup', hframe, hn, hh⟩ := findLoop_spec hkt hup hd hkey hfits
  have he : e.word ≠ 0 := hup.sorted.ne e (hE ▸ mem_append_cons_self)
  have hlevel : s.height - level = d := by omega
  refine ⟨s', a, e, b, ?_, hE, ha, hup', hframe, hn, hh⟩
  rw [findLevel, hlevel, hfind]
  exact if_neg he

/-- If the key is in the range of a pair already, that is the one found. -/
theorem findLevel_exact (hup : Up s d (a ++ e :: b) Q ps) (hd : d < s.height)
    (hlevel : level = s.height - d) (hkey : KeyIs s key k ps)
    (hlow : e.low ≤ num k) (htop : num k ≤ e.top) :
    ∃ s', findLevel s key level = some (s', e.word) ∧ Up s' d (a ++ e :: b) Q ps ∧
      Frame s s' ps ps ∧ s'.node = s.node ∧ s'.height = s.height := by
  obtain ⟨s', a', e', b', hfind, hE, ha, hup', hrest⟩ :=
    findLevel_spec (le_refl _) hup hd hlevel hkey (.inl rfl)
  have he : e ∈ a' ++ e' :: b' := hE ▸ mem_append_cons_self
  have heq : e = e' := by
    rcases mem_mid.1 he with he | he | he
    · exact absurd (ha e he) (not_lt.2 hlow)
    · exact he
    · have hlt := (append_cons_iff.1 hup'.sorted).2.2.1 e he
      rw [low_widen] at hlt
      omega
  subst heq
  rw [widen_of_le hlow htop, ← hE] at hup'
  exact ⟨s', hfind, hup', hrest⟩

/-!
### Lookups

`btree_lookup`, `btree_update` and `btree_last` of `lib/btree.c`.

On the way down the only pair whose range may have the key is followed. In the leaf the first pair
with the key is taken, used or not: for the zero key that may be an unused one. `btree_lookup` then
returns its null value, as it should, but `btree_update` writes to it.
-/

section

open Option

variable {g : Geo} {s : Head g} {k : Key g.keylen} {Q : Word → Prop} {ps : List Word} {d : Nat}
  {E a b : List (Ent g.keylen)} {x : Ent g.keylen} {A B R : List (Child g.keylen)}
  {c : Child g.keylen}

/-- The key is in the range of the pair. -/
def Ent.Has (e : Ent g.keylen) (k : Key g.keylen) : Prop := e.low ≤ num k ∧ num k ≤ e.top

/-- What the way down tells of the pairs `E`: none has the key in its range, or only the one
found. -/
def Follows (E : List (Ent g.keylen)) (k : Key g.keylen) : Option Word → Prop
  | none => ∀ x ∈ E, ¬ x.Has k
  | some p => ∃ a e b, E = a ++ e :: b ∧ p = e.word ∧ ∀ x ∈ a ++ b, ¬ x.Has k

theorem not_has_flat (hR : ∀ c ∈ R, ∀ x ∈ c.slots, c.ent.low ≤ x.low ∧ x.top ≤ c.ent.top)
    (h : ∀ e ∈ entries R, ¬ e.Has k) : ∀ x ∈ flat R, ¬ x.Has k := by
  intro x hx hk
  obtain ⟨c, hc, hxc⟩ := mem_flatMap.1 hx
  obtain ⟨h1, h2⟩ := hR c hc x hxc
  exact h c.ent (mem_map_of_mem hc) ⟨le_trans h1 hk.1, le_trans hk.2 h2⟩

/-- One level down. -/
theorem lookupStep_spec (hc : ChildOk s Q c) (hs : Sorted c.slots) :
    ∃ r, lookupStep s k c.word = some r ∧ Follows c.slots k r := by
  have hload := hc.load
  have hroom := hc.room
  obtain ⟨u, v, huv, hu, hv⟩ := hs.split (num k)
  rw [huv] at hload hroom hs
  have hu' : ∀ x ∈ u, ¬ x.Has k := fun x hx hk => absurd (hu x hx) (not_lt.2 hk.1)
  unfold lookupStep
  rw [hload]
  dsimp only [bind_eq_bind, bind_some]
  rw [getpos_slots hroom hu hv, huv]
  cases v with
  | nil =>
    rw [append_nil, if_pos (.inr (val_ofPairs_of_le (by simp)))]
    exact ⟨none, rfl, hu'⟩
  | cons e v =>
    obtain ⟨_, _, hev, _, hne⟩ := append_cons_iff.1 hs
    rw [val_slots, if_neg (not_or.2 ⟨ne_noPairs hroom, hne⟩)]
    refine ⟨some e.word, rfl, u, e, v, rfl, rfl, fun x hx hk => ?_⟩
    rcases mem_append.1 hx with hx | hx
    · exact hu' x hx hk
    · exact absurd (lt_of_lt_of_le (hev x hx) (hv e (mem_cons_self ..))) (not_lt.2 hk.2)

/-- The first `d` turns of the way down. -/
theorem lookupLoop_spec : ∀ {d : Nat} {E : List (Ent g.keylen)} {Q : Word → Prop} {ps : List Word},
    Up s d E Q ps → ∃ r, lookupLoop s k d = some r ∧ Follows E k r
  | 0, E, Q, ps, ⟨_, e, hE, hw, _⟩ => ⟨some s.node, rfl, [], e, [], hE, hw.symm, nofun⟩
  | d + 1, E, Q, ps, ⟨R, ps', hE, _, hrow, _, hup⟩ => by
    obtain ⟨r, hrun, hr⟩ := lookupLoop_spec hup
    have hin : ∀ c ∈ R, ∀ x ∈ c.slots, c.ent.low ≤ x.low ∧ x.top ≤ c.ent.top :=
      fun c hc => (hrow.child c hc).inside
    subst hE
    rw [lookupLoop, hrun]
    cases r with
    | none => exact ⟨none, rfl, not_has_flat hin hr⟩
    | some p =>
      obtain ⟨a, e, b, hent, rfl, hother⟩ := hr
      obtain ⟨A, c, B, rfl, rfl, rfl, rfl⟩ := exists_of_entries_eq hent
      obtain ⟨r', hstep, hr'⟩ := lookupStep_spec (k := k) hrow.mid hrow.sorted_slots
      refine ⟨r', hstep, ?_⟩
      have hA : ∀ x ∈ flat A, ¬ x.Has k :=
        not_has_flat (fun c' hc' => hin c' (mem_append_left _ hc')) fun e he =>
          hother e (mem_append_left _ he)
      have hB : ∀ x ∈ flat B, ¬ x.Has k :=
        not_has_flat (fun c' hc' => hin c' (mem_mid_right hc'))
          fun e he => hother e (mem_append_right _ he)
      rw [flat_append_cons]
      cases r' with
      | none =>
        intro x hx
        rcases mem_append.1 hx with hx | hx
        · rcases mem_append.1 hx with hx | hx
          · exact hA x hx
          · exact hr' x hx
        · exact hB x hx
      | some p =>
        obtain ⟨u, e, v, hslots, rfl, huv⟩ := hr'
        refine ⟨flat A ++ u, e, v ++ flat B, ?_, rfl, fun x hx => ?_⟩
        · rw [hslots]
          simp
        rcases mem_append.1 hx with hx | hx
        · rcases mem_append.1 hx with hx | hx
          · exact hA x hx
          · exact huv x (mem_append_left _ hx)
        · rcases mem_append.1 hx with hx | hx
          · exact huv x (mem_append_right _ hx)
          · exact hB x hx

/-! ### Whole trees -/

/-- A tree of `d + 1` levels with the leaves `R`, whose pairs have one key each. -/
structure Leafs (s : Head g) (d : Nat) (R : List (Child g.keylen)) (ps : List Word) : Prop where
  height : s.height = d + 1
  row : IsRow s (fun _ => True) R ps
  filled : Filled s R
  up : Up s d (entries R) (Big R) ps
  one : ∀ x ∈ flat R, x.top = x.low

/-- The tree has the pairs `E`. -/
def Holds (s : Head g) (E : List (Ent g.keylen)) : Prop :=
  s.height = 0 ∧ s.node = 0 ∧ E = [] ∨ ∃ d R ps, Leafs s d R ps ∧ E = flat R

theorem Holds.sorted (h : Holds s E) : Sorted E := by
  rcases h with ⟨_, _, rfl⟩ | ⟨d, R, ps, h, rfl⟩
  · exact .nil
  · exact h.row.sorted

theorem Holds.one (h : Holds s E) : ∀ x ∈ E, x.top = x.low := by
  rcases h with ⟨_, _, rfl⟩ | ⟨d, R, ps, h, rfl⟩
  · exact nofun
  · exact h.one

namespace Leafs

/-- The leaf with the key. -/
theorem lookupPair_present (h : Leafs s d R ps) (hx : x ∈ flat R) :
    ∃ A c B u v, R = A ++ c :: B ∧ c.slots = u ++ x :: v ∧
      lookupPair s x.lo = some (some (c.word, u.length)) := by
  have hhas : x.Has x.lo := ⟨le_refl _, le_of_eq (h.one x hx).symm⟩
  obtain ⟨r, hrun, hr⟩ := lookupLoop_spec (k := x.lo) h.up
  obtain ⟨c, hc, hxc⟩ := mem_flatMap.1 hx
  have hcx : c.ent.Has x.lo := by
    obtain ⟨h1, h2⟩ := (h.row.child c hc).inside x hxc
    exact ⟨le_trans h1 hhas.1, le_trans hhas.2 h2⟩
  cases r with
  | none => exact absurd hcx (hr c.ent (mem_map_of_mem hc))
  | some p =>
    obtain ⟨a, e, b, hent, rfl, hother⟩ := hr
    obtain ⟨A, c', B, rfl, rfl, rfl, rfl⟩ := exists_of_entries_eq hent
    obtain rfl : c = c' := by
      rcases mem_mid.1 hc with hc | hc | hc
      · exact absurd hcx (hother _ (mem_append_left _ (mem_map_of_mem hc)))
      · exact hc
      · exact absurd hcx (hother _ (mem_append_right _ (mem_map_of_mem hc)))
    obtain ⟨u, v, hslots⟩ := append_of_mem hxc
    refine ⟨A, c, B, u, v, rfl, hslots, ?_⟩
    have hload := h.row.mid.load
    have hroom := h.row.mid.room
    have hsorted := h.row.sorted_slots
    rw [hslots] at hload hroom hsorted
    have hfind : leafLoop (g := g) (ofPairs ((u ++ x :: v).map pair)) x.lo g.noPairs 0 =
        some u.length := by
      rw [map_append, map_cons, ← length_map pair]
      refine leafLoop_ofPairs (x := x.pair) (by simpa using hroom) fun p hp heq => ?_
      obtain ⟨y, hy, rfl⟩ := mem_map.1 hp
      have hlt := (append_cons_iff.1 hsorted).2.1 y hy
      have hle := hsorted.le x mem_append_cons_self
      have hlow : y.low = x.low := congrArg num heq
      omega
    have hd : s.height - 1 = d := by rw [h.height]; rfl
    unfold lookupPair
    rw [if_neg (by rw [h.height]; omega), hd, hrun]
    dsimp only [bind_eq_bind, bind_some]
    rw [if_neg (Head.ne_zero_of_load hload), hload, bind_some, hfind]
    rfl

/-- A key that is not there: only for the zero key a pair is found, and it has no value. -/
theorem lookupPair_absent (h : Leafs s d R ps) (hk : ∀ x ∈ flat R, x.lo ≠ k) :
    lookupPair s k = some none ∨ k = zeroKey g.keylen ∧
      ∃ p i nd, lookupPair s k = some (some (p, i)) ∧ s.load p = some nd ∧ nd.val i = 0 := by
  have hd : s.height - 1 = d := by rw [h.height]; rfl
  obtain ⟨r, hrun, hr⟩ := lookupLoop_spec (k := k) h.up
  unfold lookupPair
  rw [if_neg (by rw [h.height]; omega), hd, hrun]
  dsimp only [bind_eq_bind, bind_some]
  cases r with
  | none => exact .inl rfl
  | some p =>
    obtain ⟨a, e, b, hent, rfl, -⟩ := hr
    obtain ⟨A, c, B, rfl, rfl, rfl, rfl⟩ := exists_of_entries_eq hent
    have hload := h.row.mid.load
    have hroom := h.row.mid.room
    have hne : ∀ p ∈ c.slots.map pair, p.1 ≠ k := by
      intro p hp
      obtain ⟨y, hy, rfl⟩ := mem_map.1 hp
      exact hk y (mem_flat mem_append_cons_self hy)
    have hloop := leafLoop_ofPairs_absent (by simpa using hroom) hne
    dsimp only
    rw [if_neg (Head.ne_zero_of_load hload), hload, bind_some, hloop]
    by_cases hz : k = zeroKey g.keylen ∧ (c.slots.map pair).length < g.noPairs
    · rw [if_pos hz]
      exact .inr ⟨hz.1, c.word, _, _, rfl, hload, val_ofPairs_of_le (le_refl _)⟩
    · rw [if_neg hz]
      exact .inl rfl

/-- A pair gets another value. -/
theorem setval (h : Leafs s d (A ++ c :: B) ps) (hslots : c.slots = u ++ x :: v) (hval : val ≠ 0) :
    ∃ nd, s.load c.word = some nd ∧ Leafs (s.store c.word (nd.setval u.length val)) d
      (A ++ ⟨c.ent, u ++ { x with word := val } :: v⟩ :: B) ps := by
  have hload := h.row.mid.load
  have hin := h.row.mid.inside
  have hroom := h.row.mid.room
  have hsorted := h.row.sorted
  have hone := h.one
  rw [flat_append_cons, hslots] at hsorted hone
  rw [hslots] at hload hin hroom
  have hhalf : 1 ≤ g.noPairs / 2 := by have := g.room; omega
  have hset : (ofPairs ((u ++ x :: v).map pair)).setval u.length val =
      ofPairs ((u ++ { x with word := val } :: v).map pair) := by
    rw [map_append, map_append, ← length_map pair]
    exact setval_ofPairs
  have hassoc : ∀ y : Ent g.keylen, flat A ++ (u ++ y :: v) ++ flat B = (flat A ++ u) ++ y ::
      (v ++ flat B) := by
    intro y
    simp
  rw [hassoc] at hsorted hone
  obtain ⟨hrest, ha, hb, hle, _⟩ := append_cons_iff.1 hsorted
  have hsorted' : Sorted ((flat A ++ u) ++ { x with word := val } :: (v ++ flat B)) :=
    append_cons_iff.2 ⟨hrest, ha, hb, hle, hval⟩
  have hc : ChildOk (s.store c.word (ofPairs ((u ++ { x with word := val } :: v).map pair)))
      (fun _ => True) ⟨c.ent, u ++ { x with word := val } :: v⟩ := by
    refine ⟨Head.load_store_self
      hload, by simpa using hroom, ?_, .of_forall hhalf fun _ _ => trivial⟩
    exact forall_mid (fun y hy => hin y (mem_mid_of_mem hy)) (hin x mem_append_cons_self)
  refine ⟨_, hload, ?_⟩
  rw [hset]
  refine ⟨h.height, h.row.replace rfl hc (by rwa [hassoc]) fun q hq => Head.load_store_ne hq,
    h.filled.replace rfl fun hnil => absurd hnil (by simp), ?_, ?_⟩
  · rw [entries_append_cons, ← entries_append_cons (c := c)]
    have hne : ∀ p ∈ ps, p ≠ c.word := fun p hp heq => h.row.notMem.2.2 (heq ▸ hp)
    exact (h.up.congr (fun p hp => Head.load_store_ne (hne p hp)) rfl rfl).mono fun y _ hbig =>
      hbig.replace rfl (by simp [hslots])
  · rw [flat_append_cons, hassoc]
    exact forall_mid (fun y hy => hone y (mem_mid_of_mem hy)) (hone x mem_append_cons_self)

end Leafs

/-! ### The greatest key -/

/-- The way down on the left leads to the first pair. -/
theorem lastLoop_spec : ∀ {d : Nat} {E : List (Ent g.keylen)} {Q : Word → Prop} {ps : List Word},
    Up s d E Q ps → d < s.height → ∃ e E', E = e :: E' ∧ lastLoop s d = some e.word
  | 0, E, Q, ps, ⟨_, e, hE, hw, _⟩, _ => ⟨e, [], hE, by rw [lastLoop, hw]⟩
  | d + 1, E, Q, ps, ⟨R, ps', hE, _, hrow, hfill, hup⟩, hd => by
    obtain ⟨e, E', hent, hrun⟩ := lastLoop_spec hup (by omega)
    obtain ⟨c, R', rfl, rfl, -⟩ := map_eq_cons_iff.1 hent
    have hload := (hrow.child c (mem_cons_self ..)).load
    cases hslots : c.slots with
    | nil => exact absurd (hfill c (mem_cons_self ..) hslots) (by omega)
    | cons x v =>
      refine ⟨x, v ++ flat R', by rw [hE, flat, flatMap_cons, hslots]; rfl, ?_⟩
      rw [lastLoop, hrun]
      dsimp only [bind_eq_bind, bind_some]
      rw [hload, hslots]
      rfl

theorem Leafs.btreeLast_spec (h : Leafs s d R ps) :
    flat R = [] ∧ (∃ o, btreeLast s = some (0, o)) ∨
      ∃ x E, flat R = x :: E ∧ btreeLast s = some (x.word, some x.lo) := by
  have hd : s.height - 1 = d := by rw [h.height]; rfl
  obtain ⟨e, E', hent, hrun⟩ := lastLoop_spec h.up (by rw [h.height]; omega)
  obtain ⟨c, R', rfl, rfl, hR'⟩ := map_eq_cons_iff.1 hent
  have hload := (h.row.child c (mem_cons_self ..)).load
  unfold btreeLast
  rw [if_neg (by rw [h.height]; omega), hd, hrun]
  dsimp only [bind_eq_bind, bind_some]
  rw [hload]
  cases hslots : c.slots with
  | cons x v => exact .inr ⟨x, v ++ flat R', by rw [flat, flatMap_cons, hslots]; rfl, rfl⟩
  | nil =>
    -- only the root of one level may be empty
    left
    have hone := h.filled c (mem_cons_self ..) hslots
    obtain rfl : d = 0 := by have := h.height; omega
    obtain ⟨_, _, rfl, _⟩ := Up.root (A := []) h.up
    exact ⟨by simp [hslots], _, rfl⟩

end

end SilanKernel.Btree
