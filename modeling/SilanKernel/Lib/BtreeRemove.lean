import SilanKernel.Lib.BtreeFind

/-!
# SilanKernel.Lib.BtreeRemove

`btree_remove_level`, `rebalance` and `merge` of `lib/btree.c`.

A removal leaves a node with fewer pairs. If that is less than half, the node is removed itself once
it is empty, or merged with a neighbour under the same node above, which loses a pair in turn. A
merge exchanges the two nodes above and removes the left key, so that the merged node stands under
the lower key; the key is passed as a pointer into the node it is removed from.
-/

namespace SilanKernel.Btree

open List Option Nat Head Sorted

variable {g : Geo} {s s' s2 : Head g} {key : KeyPtr g.keylen} {k : Key g.keylen} {Q M : Word → Prop}
  {ps : List Word} {d level : Nat} {A B R : List (Child g.keylen)} {c l r : Child g.keylen}
  {up vp w : List (Ent g.keylen)} {u v : List (Key g.keylen × Word)} {e : Key g.keylen × Word}
  {remove : Head g → KeyPtr g.keylen → Nat → Option (Head g × Word)} {x : Ent g.keylen}

theorem exists_of_flat_eq : ∀ {R : List (Child g.keylen)} {a b : List (Ent g.keylen)},
    flat R = a ++ x :: b → ∃ A c B u v, R = A ++ c :: B ∧ c.slots = u ++ x :: v ∧ a = flat A ++ u ∧
    b = v ++ flat B
  | [], a, b, h => by simp at h
  | c :: R, a, b, h => by
    rw [flat, flatMap_cons] at h
    rcases append_eq_append_iff.1 h with ⟨l, rfl, hR⟩ | ⟨l, hslots, hb⟩
    · obtain ⟨A, c', B, u, v, rfl, hc', rfl, rfl⟩ := exists_of_flat_eq hR
      exact ⟨c :: A, c', B, u, v, rfl, hc', by simp, rfl⟩
    cases l with
    | nil =>
      obtain ⟨A, c', B, u, v, rfl, hc', hu, rfl⟩ := exists_of_flat_eq (a := []) hb.symm
      refine ⟨c :: A, c', B, u, v, rfl, hc', ?_, rfl⟩
      rw [append_nil] at hslots
      rw [flat, flatMap_cons, append_assoc, ← hu, append_nil, hslots]
    | cons y l =>
      rw [cons_append, cons.injEq] at hb
      obtain ⟨rfl, rfl⟩ := hb
      exact ⟨[], c, R, a, l, rfl, hslots, rfl, rfl⟩

/-! ### What a removal is given and what it leaves -/

/-- The nodes with at least two pairs, when `c` has one more than it shows. -/
def Mark (A : List (Child g.keylen)) (c : Child g.keylen) (B : List (Child g.keylen))
    (w : Word) : Prop :=
  Big (A ++ B) w ∨ w = c.word ∧ c.slots ≠ []

/-- The pair `e` is about to be removed from the node of `c`, which is to be as `c` says. -/
structure Loses (s : Head g) (Q : Word → Prop) (A : List (Child g.keylen)) (c : Child g.keylen)
    (B : List (Child g.keylen)) (ps : List Word) (u : List (Key g.keylen × Word))
    (e : Key g.keylen × Word) (v : List (Key g.keylen × Word)) : Prop where
  load : s.load c.word = some (ofPairs (u ++ e :: v))
  slots : c.slots.map Ent.pair = u ++ v
  room : (u ++ e :: v).length ≤ g.noPairs
  ne : e.2 ≠ 0
  row : IsRow (s.store c.word (ofPairs (c.slots.map Ent.pair))) Q (A ++ c :: B) ps
  filled : Filled s (A ++ B)
  marked : c.slots ≠ [] → ∃ x ∈ c.slots, Q x.word

/-- The key `k` leads to the pair `e`. -/
structure Leads (key : KeyPtr g.keylen) (k : Key g.keylen) (c : Child g.keylen)
    (u : List (Key g.keylen × Word)) (e : Key g.keylen × Word) (v : List (Key g.keylen × Word))
    (level : Nat) : Prop where
  before : ∀ p ∈ u, num k < num p.1
  here : num e.1 ≤ num k
  after : ∀ p ∈ v, num p.1 ≤ num k
  low : c.ent.low ≤ num k
  top : num k ≤ c.ent.top
  leaf : level = 1 → e.1 = k
  ptr : key = .arg k ∨ key = .slot c.word u.length ∧ e.1 = k ∧ v ≠ []

/-- A call leaves the pairs `E` on the level they were on. -/
def Leaves (s : Head g) (d : Nat) (E : List (Ent g.keylen)) (Q : Word → Prop) (ps : List Word)
    (s' : Head g) : Prop :=
  0 < s'.height ∧ ∃ d' ps', s'.height + d = s.height + d' ∧ Up s' d' E Q ps' ∧ Frame s s' ps ps'

/-- `btree_remove_level` for nodes `d` levels under the root. -/
def RemoveSpec (remove : Head g → KeyPtr g.keylen → Nat → Option (Head g × Word))
    (d : Nat) : Prop :=
  ∀ ⦃s : Head g⦄ ⦃Q : Word → Prop⦄ ⦃ps : List Word⦄ ⦃A B : List (Child g.keylen)⦄
    ⦃c : Child g.keylen⦄ ⦃u v : List (Key g.keylen × Word)⦄ ⦃e : Key g.keylen × Word⦄
    ⦃key : KeyPtr g.keylen⦄ ⦃k : Key g.keylen⦄ ⦃level : Nat⦄, Loses s Q A c B ps u e v →
    Leads key k c u e v level → Up s d (entries (A ++ c :: B)) (Mark A c B) ps → d < s.height →
    level = s.height - d → Ends (remove s key level) fun r =>
      r.2 = e.2 ∧ Leaves s (d + 1) (flat (A ++ c :: B)) Q (words (A ++ c :: B) ++ ps) r.1

theorem Leaves.of_frame (h : Leaves s2 d E Q ps2 s') (hframe : Frame s s2 ps ps2)
    (hh : s2.height = s.height) : Leaves s d E Q ps s' := by
  obtain ⟨hpos, d', ps', hh', hup, hframe'⟩ := h
  exact ⟨hpos, d', ps', hh ▸ hh', hup, hframe.trans hframe'⟩

/-- The pairs above lead to the nodes `R`, and a node that is not among them is freed. -/
theorem Leaves.row {nd : Node g.keylen} (h : Leaves s d (entries R) (Big R) ps s')
    (hrow : IsRow s Q R ps) (hfill : ∀ c ∈ R, c.slots ≠ []) (hq : s.load q = some nd)
    (hqR : q ∉ words R) (hqps : q ∉ ps) :
    Leaves s (d + 1) (flat R) Q (q :: (words R ++ ps)) (s'.free q) := by
  obtain ⟨hpos, d', ps', hh, hup, hframe⟩ := h
  have hq' : q ∉ ps' := hframe.notMem hqps hq
  have hf : Frame s s' (q :: (words R ++ ps)) (q :: (words R ++ ps')) := hframe.wider (q :: words R)
  have hf' : Frame s' (s'.free q) (q :: (words R ++ ps')) (words R ++ ps') :=
    (Frame.of_free (mem_cons_self ..)).mono (fun _ hp => hp) fun p hp => .inl (mem_cons_of_mem _ hp)
  refine ⟨hpos, d' + 1, words R ++ ps', ?_,
    ⟨R, ps', rfl, rfl, ?_, fun c hc hnil => absurd hnil (hfill c hc), ?_⟩, hf.trans hf'⟩
  · show s'.height + (d + 1) = s.height + (d' + 1)
    omega
  · exact (hrow.frame hframe hup.nodup).congr fun p hp => load_free_ne fun hc => hqR (hc ▸ hp)
  · exact hup.congr (fun p hp => load_free_ne fun hc => hq' (hc ▸ hp)) rfl rfl

/-- The nodes one level up. -/
structure Above (s : Head g) (d : Nat) (M : Word → Prop) (R : List (Child g.keylen))
    (ps : List Word) : Prop where
  row : IsRow s M R ps
  filled : Filled s R
  up : Up s d (entries R) (Big R) ps

/-- The node `c` of the row above is to lose a pair. -/
theorem Above.loses (h : Above s d M (A ++ c :: B) ps)
    (hload : s2.load c.word = some (ofPairs (u ++ e :: v)))
    (hs2 : ∀ p ∈ words (A ++ c :: B) ++ ps, p ≠ c.word → s2.load p = s.load p)
    (hn : s2.node = s.node) (hh : s2.height = s.height) (hw : w.map Ent.pair = u ++ v)
    (hroom : (u ++ e :: v).length ≤ g.noPairs) (hne : e.2 ≠ 0)
    (hsorted : Sorted (flat A ++ w ++ flat B))
    (hin : ∀ y ∈ w, c.ent.low ≤ y.low ∧ y.top ≤ c.ent.top)
    (hnear : NearEnds (g.noPairs / 2) Q (w.map Ent.word))
    (hQ : ∀ y, y ∈ flat A ∨ y ∈ flat B → M y.word → Q y.word) (hmark : w ≠ [] → ∃ x ∈ w, Q x.word)
    (hlen : c.slots.length ≤ w.length + 1) :
    Loses s2 Q A ⟨c.ent, w⟩ B ps u e v ∧ Up s2 d (entries (A ++ ⟨c.ent, w⟩ :: B))
      (Mark A ⟨c.ent, w⟩ B) ps := by
  have hwlen : w.length + 1 ≤ g.noPairs := by
    have hl := congrArg length hw
    simp only [length_map, length_append, length_cons] at hl hroom
    omega
  have hfill : Filled s2 (A ++ B) := fun c' hc' hnil =>
    hh.trans (h.filled c' (mem_mid_of_mem hc') hnil)
  refine ⟨⟨hload, hw, hroom, hne, ⟨?_, ?_, forall_mid (fun c' hc' => ?_) ?_⟩, hfill, hmark⟩, ?_⟩
  · have hnodup := h.row.nodup
    rwa [words_append_cons] at hnodup ⊢
  · rwa [flat_append_cons]
  · have hcw := h.row.word_ne hc'
    have hmem : c' ∈ A ++ c :: B := mem_mid_of_mem hc'
    refine ((h.row.child c' hmem).mono fun y hy => hQ y ?_).congr ?_
    · exact (mem_append.1 hc').imp (mem_flat · hy) (mem_flat · hy)
    · rw [load_store_ne hcw]
      exact hs2 _ (mem_append_left _ (mem_map_of_mem hmem)) hcw
  · exact ⟨load_store_self hload, by show w.length ≤ _; omega, hin, hnear⟩
  · have hup := h.up.congr (fun p hp => hs2 p (mem_append_right _ hp) fun hc => h.row.notMem.2.2
      (hc ▸ hp)) hn hh
    rw [entries_append_cons] at hup ⊢
    refine hup.mono fun y _ hy => (big_mid.1 hy).imp_right fun hc => ⟨hc.1.symm, fun hnil => ?_⟩
    have hnil : w = [] := hnil
    rw [hnil, length_nil] at hlen
    omega

/-! ### Merging two nodes -/

/-- Two neighbours in one node: the left one under the key of the right one. -/
abbrev merged (l r : Child g.keylen) : Child g.keylen :=
  ⟨⟨r.ent.lo, l.ent.top, l.word⟩, l.slots ++ r.slots⟩

theorem flat_merged : flat (A ++ merged l r :: B) = flat (A ++ l :: r :: B) := by
  rw [flat_append_cons, flat_append_cons]
  simp

theorem IsRow.merge (hrow : IsRow s Q (A ++ l :: r :: B) ps)
    (hsorted : Sorted (entries (A ++ l :: r :: B)))
    (hfits : l.slots.length + r.slots.length ≤ g.noPairs)
    (hnear : NearEnds (g.noPairs / 2) Q ((l.slots ++ r.slots).map Ent.word))
    (hload : s'.load l.word = some (ofPairs ((l.slots ++ r.slots).map Ent.pair)))
    (hs' : ∀ c ∈ A ++ B, s'.load c.word = s.load c.word) :
    IsRow s' Q (A ++ merged l r :: B) ps := by
  rw [entries_append_cons] at hsorted
  obtain ⟨_, _, hlr, hlle, _⟩ := append_cons_iff.1 hsorted
  have hrl : r.ent.top < l.ent.low := hlr r.ent (mem_cons_self ..)
  have hrle := hsorted.le r.ent (mem_mid_right (mem_cons_self ..))
  have hmeml : l ∈ A ++ l :: r :: B := mem_append_cons_self
  have hmemr : r ∈ A ++ l :: r :: B := mem_mid_right (mem_cons_self ..)
  refine ⟨?_, by rw [flat_merged]; exact hrow.sorted, forall_mid (fun c hc => ?_) ?_⟩
  · refine List.Nodup.sublist ?_ hrow.nodup
    rw [words_append_cons, words_append_cons]
    exact (((sublist_cons_self r.word _).cons_cons l.word).append_left _).append_right _
  · exact (hrow.child c (mem_mid_of_mem (mem_mid_of_mem hc))).congr (hs' c hc)
  · refine ⟨hload, by rw [length_append]; exact hfits, fun y hy => ?_, hnear⟩
    show r.ent.low ≤ y.low ∧ y.top ≤ l.ent.top
    rcases mem_append.1 hy with hy | hy
    · obtain ⟨h1, h2⟩ := (hrow.child l hmeml).inside y hy
      omega
    · obtain ⟨h1, h2⟩ := (hrow.child r hmemr).inside y hy
      omega

theorem swap_ofPairs {n : Nat} {u v : List (Key n × Word)} {x y : Key n × Word} {p q : Word} :
    ((ofPairs (u ++ x :: y :: v)).setval u.length p).setval (u.length + 1) q =
      ofPairs (u ++ (x.1, p) :: (y.1, q) :: v) := by
  have hsecond := setval_ofPairs (a := u ++ [(x.1, p)]) (b := v) (x := y) (v := q)
  rw [length_append, length_singleton, append_assoc, append_assoc] at hsecond
  rw [setval_ofPairs]
  exact hsecond

/-- `merge` up to the removal above. -/
theorem merge_eq {cp : Child g.keylen} (hl : s.load l.word = some (ofPairs (l.slots.map Ent.pair)))
    (hr : s.load r.word = some (ofPairs (r.slots.map Ent.pair)))
    (hp : s.load cp.word = some (ofPairs ((up ++ l.ent :: r.ent :: vp).map Ent.pair)))
    (hlp : cp.word ≠ l.word) (hfits : l.slots.length + r.slots.length ≤ g.noPairs) :
    merge remove s level l.word l.slots.length r.word r.slots.length cp.word up.length =
      remove ((s.store l.word (ofPairs ((l.slots ++ r.slots).map Ent.pair))).store cp.word
        (ofPairs (up.map Ent.pair ++ (l.ent.lo, r.word) :: (r.ent.lo, l.word) :: vp.map Ent.pair)))
        (.slot cp.word up.length) (level + 1) >>= fun x => some (x.1.free r.word) := by
  have hloop : mergeLoop l.slots.length (ofPairs (r.slots.map Ent.pair)) r.slots.length 0
      (ofPairs (l.slots.map Ent.pair)) = ofPairs ((l.slots ++ r.slots).map Ent.pair) := by
    have h := mergeLoop_ofPairs (a := l.slots.map Ent.pair) (b := r.slots.map Ent.pair)
    rwa [length_map, length_map, ← map_append] at h
  have hswap := swap_ofPairs (u := up.map Ent.pair) (v := vp.map Ent.pair) (x := l.ent.pair)
    (y := r.ent.pair) (p := r.word) (q := l.word)
  rw [length_map] at hswap
  rw [map_append, map_cons, map_cons] at hp
  unfold merge
  rw [hl, hr]
  dsimp only [bind_eq_bind, bind_some]
  rw [if_neg (not_lt.2 hfits), hloop, load_store_ne hlp, hp, bind_some, hswap]
  rfl

section

variable {Ap Bp : List (Child g.keylen)} {cp : Child g.keylen}

/-- `l` and `r` are neighbours under the node `cp`, and small enough to be merged. -/
structure Neighbours (s : Head g) (d : Nat) (Q M : Word → Prop) (A : List (Child g.keylen))
    (l r : Child g.keylen) (B Ap : List (Child g.keylen)) (cp : Child g.keylen)
    (Bp : List (Child g.keylen)) (ps : List Word) (up vp : List (Ent g.keylen)) : Prop where
  row : IsRow s Q (A ++ l :: r :: B) (words (Ap ++ cp :: Bp) ++ ps)
  above : Above s d M (Ap ++ cp :: Bp) ps
  slots : cp.slots = up ++ l.ent :: r.ent :: vp
  left : entries A = flat Ap ++ up
  right : entries B = vp ++ flat Bp
  fits : l.slots.length + r.slots.length ≤ g.noPairs
  left_ne : l.slots ≠ []
  right_ne : r.slots ≠ []
  near : NearEnds (g.noPairs / 2) Q ((l.slots ++ r.slots).map Ent.word)
  mark : ∀ w, M w → w ≠ l.word → w ≠ r.word → Big (A ++ B) w
  filled : ∀ c ∈ A ++ B, c.slots ≠ []

namespace Neighbours

theorem mem_left : l ∈ A ++ l :: r :: B := mem_append_cons_self

theorem mem_right : r ∈ A ++ l :: r :: B := mem_mid_right (mem_cons_self ..)

theorem mem_of_mem (hc : c ∈ A ++ B) : c ∈ A ++ l :: r :: B := mem_mid_of_mem (mem_mid_of_mem hc)

theorem parent_mem : cp.word ∈ words (Ap ++ cp :: Bp) ++ ps := by simp

variable (h : Neighbours s d Q M A l r B Ap cp Bp ps up vp) {y : Ent g.keylen}

include h

theorem sorted : Sorted (entries A ++ l.ent :: r.ent :: entries B) := by
  have hsorted := h.above.row.sorted
  rw [flat_append_cons, h.slots] at hsorted
  rw [h.left, h.right]
  simpa only [append_assoc, cons_append] using hsorted

theorem left_notMem : l.word ∉ words A ∧ l.word ∉ words (r :: B) ∧
    l.word ∉ words (Ap ++ cp :: Bp) ++ ps :=
  h.row.notMem

theorem row_right : IsRow s Q (A ++ [l] ++ r :: B) (words (Ap ++ cp :: Bp) ++ ps) := by
  rw [← append_cons]
  exact h.row

theorem right_notMem : r.word ∉ words (A ++ [l]) ∧ r.word ∉ words B ∧
    r.word ∉ words (Ap ++ cp :: Bp) ++ ps :=
  h.row_right.notMem

theorem parent_ne_left : cp.word ≠ l.word := fun hc => h.left_notMem.2.2 (hc ▸ parent_mem)

theorem right_ne_left : r.word ≠ l.word := h.row.word_ne mem_append_cons_self

theorem right_ne_parent : r.word ≠ cp.word := fun hc => h.right_notMem.2.2 (hc ▸ parent_mem)

/-- The other nodes are neither of the two. -/
theorem word_ne (hc : c ∈ A ++ B) : c.word ≠ l.word ∧ c.word ≠ r.word ∧ c.word ≠ cp.word := by
  refine ⟨h.row.word_ne (mem_mid_of_mem hc), h.row_right.word_ne ?_, fun heq => ?_⟩
  · rw [← append_cons]
    exact mem_mid_of_mem hc
  · exact (nodup_append.1 h.row.nodup).2.2 _ (mem_map_of_mem (mem_of_mem hc)) _ parent_mem heq

theorem big_merged : Big (A ++ merged l r :: B) l.word := by
  refine ⟨merged l r, mem_append_cons_self, rfl, ?_⟩
  have h1 := length_pos_iff.2 h.left_ne
  have h2 := length_pos_iff.2 h.right_ne
  rw [length_append]
  omega

theorem big_of_mark (hy : y ∈ entries A ∨ y ∈ entries B) (hMy : M y.word) :
    Big (A ++ merged l r :: B) y.word := by
  obtain ⟨c, hc, rfl⟩ := exists_of_mem_entries hy
  exact big_mid.2 (.inl (h.mark _ hMy (h.word_ne hc).1 (h.word_ne hc).2.1))

theorem mem_up (hy : y ∈ up) : y ∈ entries A := h.left ▸ mem_append_right _ hy

theorem mem_vp (hy : y ∈ vp) : y ∈ entries B := h.right ▸ mem_append_left _ hy

theorem flat_above : flat Ap ++ (up ++ (merged l r).ent :: vp) ++ flat Bp =
    entries A ++ (merged l r).ent :: entries B := by
  rw [h.left, h.right]
  simp

theorem near_above : NearEnds (g.noPairs / 2) (Big (A ++ merged l r :: B))
    ((up ++ (merged l r).ent :: vp).map Ent.word) := by
  have hnear := h.above.row.mid.near
  rw [h.slots, map_append] at hnear
  have hmid : NearEnds (g.noPairs / 2) (fun w => M w ∨ w = l.word)
      (up.map Ent.word ++ l.word :: vp.map Ent.word) := by
    refine NearEnds.middle (w := [l.word, r.word]) ?_ g.two_le_half (.inr rfl)
    rw [append_assoc]
    exact hnear.mono fun w _ hw => .inl hw
  rw [map_append, map_cons]
  refine hmid.mono fun w hw hMw => ?_
  rcases hMw with hMw | rfl
  · rcases mem_mid.1 hw with hw | rfl | hw
    · obtain ⟨y, hy, rfl⟩ := mem_map.1 hw
      exact h.big_of_mark (.inl (h.mem_up hy)) hMw
    · exact h.big_merged
    · obtain ⟨y, hy, rfl⟩ := mem_map.1 hw
      exact h.big_of_mark (.inr (h.mem_vp hy)) hMw
  · exact h.big_merged

/-- The node above loses the key of the left node. -/
theorem loses (hload : s2.load cp.word = some (ofPairs
      (up.map Ent.pair ++ (l.ent.lo, r.word) :: (r.ent.lo, l.word) :: vp.map Ent.pair)))
    (hother : ∀ q, q ≠ l.word → q ≠ cp.word → s2.load q = s.load q) (hn : s2.node = s.node)
    (hh : s2.height = s.height) :
    Loses s2 (Big (A ++ merged l r :: B)) Ap ⟨cp.ent, up ++ (merged l r).ent :: vp⟩ Bp ps
      (up.map Ent.pair)
        (l.ent.lo, r.word) ((r.ent.lo, l.word) :: vp.map Ent.pair) ∧
      Up s2 d (entries (Ap ++ ⟨cp.ent, up ++ (merged l r).ent :: vp⟩ :: Bp))
        (Mark Ap ⟨cp.ent, up ++ (merged l r).ent :: vp⟩ Bp) ps := by
  have hin := h.above.row.mid.inside
  have hroom := h.above.row.mid.room
  rw [h.slots] at hin hroom
  obtain ⟨hAB, hlA, hlB, hlle, hlne⟩ := append_cons_iff.1 h.sorted
  obtain ⟨hAB', _, hrB, hrle, hrne⟩ := append_cons_iff.1 hAB
  have hrl : r.ent.top < l.ent.low := hlB r.ent (mem_cons_self ..)
  refine h.above.loses hload (fun p hp hpc => ?_) hn hh (by rw [map_append]; rfl)
    (by simpa using hroom) hrne ?_ (fun y hy => ?_) h.near_above (fun y hy => h.big_of_mark ?_)
    (fun _ => ?_) ?_
  · exact hother p (fun hc => h.left_notMem.2.2 (hc ▸ hp)) hpc
  · rw [h.flat_above]
    refine append_cons_iff.2 ⟨hAB', hlA, hrB, ?_, hlne⟩
    show r.ent.low ≤ l.ent.top
    omega
  · rcases mem_mid.1 hy with hy | rfl | hy
    · exact hin y (mem_append_left _ hy)
    · exact ⟨(hin r.ent (by simp)).1, (hin l.ent (by simp)).2⟩
    · exact hin y (mem_mid_right (mem_cons_of_mem _ hy))
  · exact hy.imp (fun hy => h.left ▸ mem_append_left _ hy) fun hy => h.right ▸ mem_append_right _ hy
  · exact ⟨(merged l r).ent, mem_append_cons_self, h.big_merged⟩
  · rw [h.slots]
    simp only [length_append, length_cons]
    omega

/-- The pointer to the left key leads to it. -/
theorem leads (hlevel : level ≠ 1) :
    Leads (.slot cp.word up.length) l.ent.lo ⟨cp.ent, up ++ (merged l r).ent :: vp⟩
      (up.map Ent.pair) (l.ent.lo, r.word) ((r.ent.lo, l.word) :: vp.map Ent.pair) level := by
  have hin := h.above.row.mid.inside l.ent (by rw [h.slots]; simp)
  obtain ⟨_, hlA, _, hlle, _⟩ := append_cons_iff.1 h.sorted
  have hle : ∀ y ∈ r.ent :: entries B, y.low ≤ l.ent.low :=
    fun y hy => le_of_lt (h.sorted.low_lt hy)
  refine ⟨fun p hp => ?_, le_refl _, fun p hp => ?_, hin.1, le_trans hlle hin.2,
    fun hc => absurd hc hlevel, .inr ⟨by rw [length_map], rfl, nofun⟩⟩
  · obtain ⟨y, hy, rfl⟩ := mem_map.1 hp
    exact lt_of_le_of_lt hlle (hlA y (h.mem_up hy))
  · rcases mem_cons.1 hp with rfl | hp
    · exact hle r.ent (mem_cons_self ..)
    · obtain ⟨y, hy, rfl⟩ := mem_map.1 hp
      exact hle y (mem_cons_of_mem _ (h.mem_vp hy))

/-- The row with the merged node, when the node above has lost its pair and the right node is
freed. -/
theorem leaves (hload : s2.load l.word = some (ofPairs ((l.slots ++ r.slots).map Ent.pair)))
    (hother : ∀ q, q ≠ l.word → q ≠ cp.word → s2.load q = s.load q) (hh : s2.height = s.height)
    (h' : Leaves s2 (d + 1) (entries A ++ (merged l r).ent :: entries B)
      (Big (A ++ merged l r :: B))
      (words (Ap ++ cp :: Bp) ++ ps) s') :
    Leaves s (d + 2) (flat (A ++ l :: r :: B)) Q
      (words (A ++ l :: r :: B) ++ (words (Ap ++ cp :: Bp) ++ ps)) (s'.free r.word) := by
  have hrow := h.row.merge (by rw [entries_append_cons]; exact h.sorted) h.fits h.near
    hload fun c hc =>
    hother _ (h.word_ne hc).1 (h.word_ne hc).2.2
  have hrload := (hother _ h.right_ne_left h.right_ne_parent).trans (h.row.child r mem_right).load
  have hword : ∀ c ∈ A ++ merged l r :: B, c.word ≠ r.word :=
    forall_mid (fun c hc => (h.word_ne hc).2.1) h.right_ne_left.symm
  have hrw : r.word ∉ words (A ++ merged l r :: B) := by
    intro hc
    obtain ⟨c, hc, heq⟩ := mem_map.1 hc
    exact hword c hc heq
  have hfill : ∀ c ∈ A ++ merged l r :: B, c.slots ≠ [] :=
    forall_mid h.filled fun hnil => h.left_ne (append_eq_nil_iff.1 hnil).1
  rw [← entries_append_cons] at h'
  rw [← flat_merged]
  refine (h'.row hrow hfill hrload hrw h.right_notMem.2.2).of_frame
    ⟨fun p nd hp hnd => ?_, fun p hp => .inl ?_⟩ hh
  · rw [mem_append, not_or] at hp
    have hpl : p ≠ l.word := fun hc => hp.1 (hc ▸ mem_map_of_mem mem_left)
    have hpp : p ≠ cp.word := fun hc => hp.2 (hc ▸ parent_mem)
    exact (hother p hpl hpp).trans hnd
  · rw [words_append_cons] at hp ⊢
    simp only [mem_append, mem_cons, map_cons] at hp ⊢
    tauto

/-- `merge` -/
theorem merge_spec (hrem : RemoveSpec remove d) (hd : d < s.height)
    (hlevel : level + 1 = s.height - d) (hpos : 0 < level) :
    Ends (merge remove s level l.word l.slots.length r.word r.slots.length cp.word up.length)
      (Leaves s (d + 2) (flat (A ++ l :: r :: B)) Q
      (words (A ++ l :: r :: B) ++ (words (Ap ++ cp :: Bp) ++ ps))) := by
  have hl := (h.row.child l mem_left).load
  have hp := h.above.row.mid.load
  rw [h.slots] at hp
  rw [merge_eq hl (h.row.child r mem_right).load hp h.parent_ne_left h.fits]
  generalize hs1 : s.store l.word (ofPairs ((l.slots ++ r.slots).map Ent.pair)) = s1
  generalize hs2 : s1.store cp.word
    (ofPairs (up.map Ent.pair ++ (l.ent.lo, r.word) :: (r.ent.lo, l.word) :: vp.map Ent.pair)) = s2
  have hp2 : s2.load cp.word =
      some (ofPairs (up.map Ent.pair ++
        (l.ent.lo, r.word) :: (r.ent.lo, l.word) :: vp.map Ent.pair)) := by
    have hp1 := hp
    rw [← load_store_ne (s := s) h.parent_ne_left, hs1] at hp1
    rw [← hs2, load_store_self hp1]
  have hl2 : s2.load l.word = some (ofPairs ((l.slots ++ r.slots).map Ent.pair)) := by
    rw [← hs2, load_store_ne h.parent_ne_left.symm, ← hs1, load_store_self hl]
  have hother : ∀ q, q ≠ l.word → q ≠ cp.word → s2.load q = s.load q := by
    intro q hql hqp
    rw [← hs2, load_store_ne hqp, ← hs1, load_store_ne hql]
  have hn2 : s2.node = s.node := by rw [← hs2, ← hs1]; rfl
  have hh2 : s2.height = s.height := by rw [← hs2, ← hs1]; rfl
  obtain ⟨hloses, hup⟩ := h.loses hp2 hother hn2 hh2
  refine Ends.bind (hrem hloses (h.leads (by omega)) hup (hh2 ▸ hd) (hh2 ▸ hlevel)) ?_
  intro ⟨s3, w⟩ ⟨_, hleaves⟩
  rw [flat_append_cons, h.flat_above, words_append_cons, ← words_append_cons (c := cp)] at hleaves
  exact .ret (h.leaves hl2 hother hh2 hleaves)

end Neighbours

/-! ### A node with less than half -/

/-- The node `c` under `cp` has less than half of its pairs, and some. -/
structure Small (s : Head g) (d : Nat) (Q : Word → Prop) (A : List (Child g.keylen))
    (c : Child g.keylen) (B Ap : List (Child g.keylen)) (cp : Child g.keylen)
    (Bp : List (Child g.keylen)) (ps : List Word) (up vp : List (Ent g.keylen)) : Prop where
  row : IsRow s Q (A ++ c :: B) (words (Ap ++ cp :: Bp) ++ ps)
  above : Above s d (Mark A c B) (Ap ++ cp :: Bp) ps
  slots : cp.slots = up ++ c.ent :: vp
  left : entries A = flat Ap ++ up
  right : entries B = vp ++ flat Bp
  small : c.slots.length < g.noPairs / 2
  marked : ∃ x ∈ c.slots, Q x.word
  filled : ∀ c ∈ A ++ B, c.slots ≠ []

namespace Small

variable (h : Small s d Q A c B Ap cp Bp ps up vp) {up' : List (Ent g.keylen)}

include h

theorem ne_nil : c.slots ≠ [] := by
  obtain ⟨x, hx, _⟩ := h.marked
  exact ne_nil_of_mem hx

/-- The left neighbour, if there is one. -/
theorem exists_left (hup : up = up' ++ [y]) :
    ∃ A' l, A = A' ++ [l] ∧ l.ent = y ∧ entries A' = flat Ap ++ up' := by
  have hleft := h.left
  rw [hup, ← append_assoc] at hleft
  obtain ⟨A', L, rfl, hA', hL⟩ := map_eq_append_iff.1 hleft
  obtain ⟨l, L', rfl, hl, hL'⟩ := map_eq_cons_iff.1 hL
  obtain rfl : L' = [] := map_eq_nil_iff.1 hL'
  exact ⟨A', l, rfl, hl, hA'⟩

theorem exists_right (hvp : vp = y :: vp') :
    ∃ r B', B = r :: B' ∧ r.ent = y ∧ entries B' = vp' ++ flat Bp := by
  have hright := h.right
  rw [hvp, cons_append] at hright
  exact map_eq_cons_iff.1 hright

/-- Both neighbours are too large to be merged: the node stays as it is. -/
theorem leaves (hd : d < s.height) (hleft : ∀ y ∈ up.getLast?, Big (A ++ c :: B) y.word)
    (hright : ∀ y ∈ vp.head?, Big (A ++ c :: B) y.word) :
    Leaves s (d + 2) (flat (A ++ c :: B)) Q
      (words (A ++ c :: B) ++ (words (Ap ++ cp :: Bp) ++ ps)) s := by
  have hmark : ∀ y, y ∈ entries A ∨ y ∈ entries B → Mark A c B y.word →
      Big (A ++ c :: B) y.word := by
    intro y hy hM
    obtain ⟨c', hc', rfl⟩ := exists_of_mem_entries hy
    exact big_mid.2 (.inl (hM.resolve_right fun hc => h.row.word_ne hc' hc.1))
  have hup_mem : ∀ y ∈ up, y ∈ entries A := fun y hy => h.left ▸ mem_append_right _ hy
  have hvp_mem : ∀ y ∈ vp, y ∈ entries B := fun y hy => h.right ▸ mem_append_left _ hy
  have hrow : IsRow s (Big (A ++ c :: B)) (Ap ++ cp :: Bp) ps := by
    refine ⟨h.above.row.nodup, h.above.row.sorted, forall_mid (fun c' hc' => ?_) ?_⟩
    · refine (h.above.row.child c' (mem_mid_of_mem hc')).mono fun y hy =>
        hmark y ((mem_append.1 hc').imp ?_ ?_)
      · exact fun hc' => h.left ▸ mem_append_left _ (mem_flat hc' hy)
      · exact fun hc' => h.right ▸ mem_append_right _ (mem_flat hc' hy)
    have hmid := h.above.row.mid
    have hnear := hmid.near
    rw [h.slots, map_append, map_cons] at hnear
    refine ⟨hmid.load, hmid.room, hmid.inside, ?_⟩
    rw [h.slots, map_append, map_cons]
    refine hnear.unmark g.two_le_half (fun w hw => ?_) (fun w hw => ?_) fun w hw => ?_
    · rcases mem_append.1 hw with hw | hw
      · obtain ⟨y, hy, rfl⟩ := mem_map.1 hw
        exact hmark y (.inl (hup_mem y hy))
      · obtain ⟨y, hy, rfl⟩ := mem_map.1 hw
        exact hmark y (.inr (hvp_mem y hy))
    · rw [getLast?_map] at hw
      obtain ⟨y, hy, rfl⟩ := map_eq_some_iff.1 hw
      exact hleft y hy
    · rw [head?_map] at hw
      obtain ⟨y, hy, rfl⟩ := map_eq_some_iff.1 hw
      exact hright y hy
  have hent : entries (A ++ c :: B) = flat (Ap ++ cp :: Bp) := by
    rw [entries_append_cons, flat_append_cons, h.slots, h.left, h.right]
    simp
  refine ⟨by omega, d + 2, _, rfl, ⟨A ++ c :: B, _, rfl, rfl, h.row, fun c' hc' hnil => ?_, ?_⟩,
    Frame.refl ..⟩
  · exact absurd hnil (forall_mid h.filled h.ne_nil c' hc')
  · exact ⟨Ap ++ cp :: Bp, ps, hent, rfl, hrow, h.above.filled, h.above.up⟩

/-- The other nodes but one. -/
theorem without {A' B' : List (Child g.keylen)} {x : Child g.keylen}
    (hAB : A ++ B = A' ++ x :: B') :
    x.slots ≠ [] ∧ (∀ w, Mark A c B w → w ≠ c.word → w ≠ x.word → Big (A' ++ B') w) ∧
      ∀ c ∈ A' ++ B', c.slots ≠ [] := by
  have hfill := h.filled
  rw [hAB] at hfill
  refine ⟨hfill x mem_append_cons_self, fun w hw hwc hwx => ?_, fun c' hc' => hfill c'
    (mem_mid_of_mem hc')⟩
  have hbig := hw.resolve_right fun hc => hwc hc.1
  rw [hAB] at hbig
  exact (big_mid.1 hbig).resolve_right fun hc => hwx hc.1.symm

/-- The left neighbour is merged with the node. -/
theorem neighbours_left (hA : A = A' ++ [l]) (hup : up = up' ++ [l.ent])
    (hfits : l.slots.length + c.slots.length ≤ g.noPairs) :
    Neighbours s d Q (Mark A c B) A' l c B Ap cp Bp ps up' vp := by
  subst hA hup
  have hrow := h.row
  obtain ⟨hl, hmark, hfill⟩ := h.without (x := l) (append_cons A' l B).symm
  refine ⟨by rwa [append_cons], h.above, ?_, ?_, h.right, hfits, hl, h.ne_nil, ?_,
    fun w hw hwl hwc => hmark w hw hwc hwl, hfill⟩
  · rw [h.slots, append_assoc, singleton_append]
  · have hleft := h.left
    rw [entries_append_cons, ← append_assoc] at hleft
    exact append_cancel_right hleft
  · obtain ⟨x, hx, hQ⟩ := h.marked
    rw [map_append]
    refine (h.row.child l (by simp)).near.append_right (by rw [length_map]; exact h.small) ?_
    exact ⟨x.word, mem_map_of_mem hx, hQ⟩

theorem neighbours_right (hB : B = r :: B') (hvp : vp = r.ent :: vp')
    (hfits : c.slots.length + r.slots.length ≤ g.noPairs) :
    Neighbours s d Q (Mark A c B) A c r B' Ap cp Bp ps up vp' := by
  subst hB hvp
  obtain ⟨hr, hmark, hfill⟩ := h.without (x := r) rfl
  refine ⟨h.row, h.above, h.slots, h.left, ?_, hfits, h.ne_nil, hr, ?_, hmark, hfill⟩
  · exact tail_eq_of_cons_eq h.right
  · obtain ⟨x, hx, hQ⟩ := h.marked
    rw [map_append]
    refine NearEnds.append (by rw [length_map]; exact h.small) ?_ (h.row.child r (by simp)).near
    exact ⟨x.word, mem_map_of_mem hx, hQ⟩

/-- `getfill` of a node of the row. -/
theorem getfill_child (hc' : c' ∈ A ++ c :: B) :
    getfill (g := g) (ofPairs (c'.slots.map Ent.pair)) 0 = c'.slots.length := by
  refine getfill_slots (h.row.child c' hc').room (zero_le _) fun x hx => ?_
  exact h.row.sorted.ne x (mem_flat hc' hx)

theorem load_parent : s.load cp.word = some (ofPairs ((up ++ c.ent :: vp).map Ent.pair)) := by
  have hload := h.above.row.mid.load
  rwa [h.slots] at hload

section

variable (hrem : RemoveSpec remove d) (hd : d < s.height) (hlevel : level + 1 = s.height - d)
  (hpos : 0 < level)

include hrem hd hlevel hpos

/-- The second half of `rebalance`. -/
theorem mergeRight_spec (hleft : ∀ y ∈ up.getLast?, Big (A ++ c :: B) y.word) :
    Ends (mergeRight remove s level c.word c.slots.length cp.word up.length)
      (Leaves s (d + 2) (flat (A ++ c :: B)) Q
      (words (A ++ c :: B) ++ (words (Ap ++ cp :: Bp) ++ ps))) := by
  have hroom := h.above.row.mid.room
  have hne := h.above.row.sorted_slots.ne
  rw [h.slots] at hroom hne
  refine .bind_eq h.load_parent ?_
  rw [getfill_slots hroom (by simp) hne]
  cases hvp : vp with
  | nil =>
    rw [if_neg (by simp)]
    exact .ret (h.leaves hd hleft (by simp [hvp]))
  | cons y vp' =>
    obtain ⟨r, B', hB, rfl, _⟩ := h.exists_right hvp
    have hr : r ∈ A ++ c :: B := by simp [hB]
    have hval : (ofPairs ((up ++ c.ent :: r.ent :: vp').map Ent.pair)).val (up.length + 1)
        = r.word := by
      have hval := val_slots (u := up ++ [c.ent]) (v := vp') (e := r.ent)
      rwa [length_append, length_singleton, append_assoc] at hval
    rw [if_pos (by simp)]
    rw [hval]
    refine .bind_eq (h.row.child r hr).load ?_
    rw [h.getfill_child hr]
    refine .ite (fun hfits => ?_) fun hfits => .ret (h.leaves hd hleft ?_)
    · have hmerge := (h.neighbours_right hB hvp hfits).merge_spec hrem hd hlevel hpos
      rwa [← hB] at hmerge
    · intro z hz
      obtain rfl : r.ent = z := by simpa [hvp] using hz
      have hsmall := h.small
      exact ⟨r, hr, rfl, by have := g.room; omega⟩

/-- `rebalance` of a node that is not empty, once its place is known. -/
theorem mergeLeft_spec :
    Ends (mergeLeft remove s level c.word c.slots.length cp.word
        (ofPairs ((up ++ c.ent :: vp).map Ent.pair)) up.length)
      (Leaves s (d + 2) (flat (A ++ c :: B)) Q
        (words (A ++ c :: B) ++ (words (Ap ++ cp :: Bp) ++ ps))) := by
  unfold mergeLeft
  rcases eq_nil_or_concat' up with hup | ⟨up', y, hup⟩
  · rw [if_neg (by simp [hup])]
    exact h.mergeRight_spec hrem hd hlevel hpos (by simp [hup])
  obtain ⟨A', l, hA, rfl, _⟩ := h.exists_left hup
  have hl : l ∈ A ++ c :: B := by simp [hA]
  have hlen : up.length - 1 = up'.length := by simp [hup]
  have hval : (ofPairs ((up ++ c.ent :: vp).map Ent.pair)).val (up.length - 1) = l.word := by
    rw [hlen, hup, append_assoc]
    exact val_slots
  rw [if_pos (by simp [hup])]
  rw [hval]
  refine .bind_eq (h.row.child l hl).load ?_
  rw [h.getfill_child hl, hlen]
  refine .ite (fun hfits => ?_) fun hfits => h.mergeRight_spec hrem hd hlevel hpos fun z hz => ?_
  · have hmerge := (h.neighbours_left hA hup (by omega)).merge_spec hrem hd hlevel hpos
    rwa [append_cons, ← hA] at hmerge
  · obtain rfl : l.ent = z := by simpa [hup] using hz
    have hsmall := h.small
    exact ⟨l, hl, rfl, by have := g.room; omega⟩

end

end Small

end

/-- The node above a node that is not the root. -/
theorem Up.parent (hup : Up s (d + 1) (entries (A ++ c :: B)) M ps) :
    ∃ Ap cp Bp up vp ps', ps = words (Ap ++ cp :: Bp) ++ ps' ∧ Above s d M (Ap ++ cp :: Bp) ps' ∧
      cp.slots = up ++ c.ent :: vp ∧ entries A = flat Ap ++ up ∧ entries B = vp ++ flat Bp := by
  obtain ⟨R, ps', hE, hps, hrow, hfill, hup⟩ := hup
  rw [entries_append_cons] at hE
  obtain ⟨Ap, cp, Bp, up, vp, rfl, hslots, hA, hB⟩ := exists_of_flat_eq hE.symm
  exact ⟨Ap, cp, Bp, up, vp, ps', hps, ⟨hrow, hfill, hup⟩, hslots, hA, hB⟩

section

variable (hrem : RemoveSpec remove d) (hrow : IsRow s Q (A ++ c :: B) ps)
  (hfill : ∀ c ∈ A ++ B, c.slots ≠ []) (hup : Up s (d + 1) (entries (A ++ c :: B)) (Mark A c B) ps)
  (hlow : c.ent.low ≤ num k) (htop : num k ≤ c.ent.top) (hd : d < s.height)
  (hlevel : level + 1 = s.height - d) (hpos : 0 < level)

include hrem hrow hfill hup hlow htop hd hlevel hpos

/-- `rebalance` of a node that is left empty. -/
theorem rebalance_empty (hnil : c.slots = []) :
    Ends (rebalance remove s (.arg k) level c.word 0)
      (Leaves s (d + 2) (flat (A ++ c :: B)) Q (words (A ++ c :: B) ++ ps)) := by
  have hsorted := hup.sorted
  obtain ⟨Ap, cp, Bp, up, vp, ps', rfl, hab, hslots, hA, hB⟩ := hup.parent
  obtain ⟨hcA, hcB, hcps⟩ := hrow.notMem
  rw [entries_append_cons] at hsorted
  obtain ⟨hAB, hA', _, _, hne⟩ := append_cons_iff.1 hsorted
  -- the node was not a large one, so that the others do without it
  have hmark : ∀ w, Mark A c B w → Big (A ++ B) w :=
    fun w hw => hw.resolve_right fun hc => hc.2 hnil
  have hcmark : ¬ Mark A c B c.word := by
    intro hc
    obtain ⟨c', hc', hcw, _⟩ := hmark _ hc
    exact hrow.word_ne hc' hcw
  have hflat : flat Ap ++ (up ++ vp) ++ flat Bp = entries A ++ entries B := by
    rw [hA, hB]
    simp
  have hload := hab.row.mid.load
  have hin := hab.row.mid.inside
  have hnear := hab.row.mid.near
  have hroom := hab.row.mid.room
  rw [hslots] at hload hin hnear hroom
  rw [map_append, map_cons] at hload hnear
  have hinc := hin c.ent (by simp)
  have hnear' : NearEnds (g.noPairs / 2) (Big (A ++ B)) ((up ++ vp).map Ent.word) := by
    rw [map_append]
    exact (hnear.erase hcmark).mono fun w _ hw => hmark w hw
  have hmarked : up ++ vp ≠ [] → ∃ x ∈ up ++ vp, Big (A ++ B) x.word := by
    intro hne
    obtain ⟨w, hw, hM⟩ := hnear.exists_of_erase hcmark (by rwa [← map_append, Ne, map_eq_nil_iff])
    rw [← map_append] at hw
    obtain ⟨x, hx, rfl⟩ := mem_map.1 hw
    exact ⟨x, hx, hmark _ hM⟩
  obtain ⟨hloses, hupm⟩ := hab.loses hload (fun _ _ _ => rfl) rfl rfl (map_append ..)
    (by simpa using hroom) hne (by rwa [hflat])
    (fun y hy => hin y (by simp only [mem_append, mem_cons] at hy ⊢; tauto)) hnear'
    (fun y _ hy => hmark _ hy) hmarked
    (by rw [hslots]; simp only [length_append, length_cons]; omega)
  have hleads : Leads (.arg k) k ⟨cp.ent, up ++ vp⟩ (up.map Ent.pair) c.ent.pair (vp.map Ent.pair)
      (level + 1) := by
    refine ⟨fun p hp => ?_, hlow, fun p hp => ?_, le_trans hinc.1 hlow, le_trans htop hinc.2,
      fun hc => by omega, .inl rfl⟩
    · obtain ⟨y, hy, rfl⟩ := mem_map.1 hp
      exact lt_of_le_of_lt htop (hA' y (hA ▸ mem_append_right _ hy))
    · obtain ⟨y, hy, rfl⟩ := mem_map.1 hp
      exact le_trans (le_of_lt (hsorted.low_lt (hB ▸ mem_append_left _ hy))) hlow
  unfold rebalance
  rw [if_pos rfl]
  refine Ends.bind (hrem hloses hleads hupm hd hlevel) ?_
  intro ⟨s3, w⟩ ⟨_, hleaves⟩
  rw [flat_append_cons, hflat, ← map_append, words_append_cons, ← words_append_cons
    (c := cp)] at hleaves
  have hflat' : flat (A ++ c :: B) = flat (A ++ B) := by
    rw [flat_append_cons, hnil, append_nil]
    exact flatMap_append.symm
  rw [hflat']
  refine .ret ((hleaves.row hrow.drop hfill hrow.mid.load ?_ hcps).of_frame
    ((Frame.refl s _).mono (fun _ hp => hp) fun p hp => .inl ?_) rfl)
  · rw [words_append, mem_append, not_or]
    exact ⟨hcA, hcB⟩
  · rw [words_append] at hp
    rw [words_append_cons]
    simp only [mem_append, mem_cons] at hp ⊢
    tauto

/-- `rebalance` -/
theorem rebalance_spec (hmarked : c.slots ≠ [] → ∃ x ∈ c.slots, Q x.word)
    (hsmall : c.slots.length < g.noPairs / 2) (hkey : KeyIs s key k ps)
    (hptr : c.slots = [] → key = .arg k) :
    Ends (rebalance remove s key level c.word c.slots.length)
      (Leaves s (d + 2) (flat (A ++ c :: B)) Q (words (A ++ c :: B) ++ ps)) := by
  by_cases hnil : c.slots = []
  · rw [hptr hnil, hnil]
    exact rebalance_empty hrem hrow hfill hup hlow htop hd hlevel hpos hnil
  have hsorted := hup.sorted
  obtain ⟨Ap, cp, Bp, up, vp, ps', rfl, hab, hslots, hA, hB⟩ := hup.parent
  rw [entries_append_cons] at hsorted
  have hA' := (append_cons_iff.1 hsorted).2.1
  have hinc := hab.row.mid.inside c.ent (by rw [hslots]; simp)
  have hupp := hab.up
  rw [entries_append_cons] at hupp
  obtain ⟨s1, hfind, hup1, hframe, hn1, hh1⟩ :=
    findLevel_exact hupp hd hlevel (hkey.mono fun p hp => mem_append_right _ hp)
    (le_trans hinc.1 hlow) (le_trans htop hinc.2)
  have hframe' : Frame s s1 (words (Ap ++ cp :: Bp) ++ ps') (words (Ap ++ cp :: Bp) ++ ps') :=
    hframe.wider _
  have hsmall1 : Small s1 d Q A c B Ap cp Bp ps' up vp := by
    refine ⟨hrow.frame hframe' hab.row.nodup,
      ⟨hab.row.frame hframe hab.up.nodup, fun c' hc' h => ?_, ?_⟩, hslots, hA, hB, hsmall,
      hmarked hnil, hfill⟩
    · exact hh1.trans (hab.filled c' hc' h)
    · rwa [entries_append_cons]
  have hroom := hab.row.mid.room
  rw [hslots] at hroom
  have hpos' : getpos (ofPairs ((up ++ c.ent :: vp).map Ent.pair)) k = up.length := by
    refine getpos_slots hroom (fun y hy => ?_) fun y hy => ?_
    · exact lt_of_le_of_lt htop (hA' y (hA ▸ mem_append_right _ hy))
    · rcases mem_cons.1 hy with rfl | hy
      · exact hlow
      · exact le_trans (le_of_lt (hsorted.low_lt (hB ▸ mem_append_left _ hy))) hlow
  have hrest := (hsmall1.mergeLeft_spec hrem (hh1 ▸ hd) (hh1 ▸ hlevel) hpos).mono fun s' h' =>
    h'.of_frame (hframe'.wider (words (A ++ c :: B))) hh1
  unfold rebalance
  rw [if_neg (by rwa [Ne, length_eq_zero_iff] : c.slots.length ≠ 0)]
  refine .bind_eq hfind (.bind_eq hsmall1.load_parent (.bind_eq (hkey.frame hframe').eq ?_))
  rw [hpos', if_neg (ne_noPairs hroom), val_slots, if_neg (by simp)]
  exact hrest

end

/-! ### The root -/

/-- The root with one pair left gives way to the node under it. -/
theorem btreeShrink_spec (hload : s.load s.node = some (ofPairs [x.pair])) (hx : x.word ≠ 0)
    (hle : x.low ≤ x.top) (hQ : Q x.word) (hheight : 1 < s.height) :
    Ends (btreeShrink s) (Leaves s 1 [x] Q [s.node]) := by
  have hroom := g.room
  have hfill : getfill (g := g) (ofPairs ([x].map Ent.pair)) 0 = 1 :=
    getfill_slots (by simp; omega) (zero_le _) (by simpa using hx)
  unfold btreeShrink
  rw [if_neg (by omega)]
  refine .bind_eq hload ?_
  have hfill : getfill (g := g) (ofPairs [x.pair]) 0 = 1 := hfill
  rw [hfill, if_neg (by omega)]
  refine .ret ⟨?_, 0, [], ?_, ⟨rfl, x, rfl, rfl, hx, hle, .inr hQ⟩, ⟨fun q nd hq hnd => ?_, nofun⟩⟩
  · show 0 < s.height - 1
    omega
  · show s.height - 1 + 1 = s.height + 0
    omega
  · have hqn : q ≠ s.node := fun hc => hq (hc ▸ mem_singleton_self _)
    exact (load_free_ne hqn).trans hnd

/-- Nothing more is to be done. -/
theorem leaves_self (hrow : IsRow s Q (A ++ c :: B) ps) (hfill : Filled s (A ++ c :: B))
    (hup : Up s d (entries (A ++ c :: B)) (Big (A ++ c :: B)) ps) (hd : d < s.height) :
    Leaves s (d + 1) (flat (A ++ c :: B)) Q (words (A ++ c :: B) ++ ps) s :=
  ⟨by omega, d + 1, _, rfl, ⟨A ++ c :: B, ps, rfl, rfl, hrow, hfill, hup⟩, Frame.refl ..⟩

/-- A removal from the root. -/
theorem afterRemoval_root (hrow : IsRow s Q (A ++ c :: B) ps)
    (hmarked : c.slots ≠ [] → ∃ x ∈ c.slots, Q x.word)
    (hup : Up s 0 (entries (A ++ c :: B)) (Mark A c B) ps) (hpos : 0 < s.height) :
    Ends (afterRemoval remove s key s.height c.word c.slots.length)
      (Leaves s 1 (flat (A ++ c :: B)) Q (words (A ++ c :: B) ++ ps)) := by
  obtain ⟨rfl, rfl, rfl, hw, hne, hle, hq⟩ := hup.root
  -- an empty root has no level under it
  have hroot : c.slots = [] → s.height = 1 := by
    intro hnil
    refine hq.resolve_right fun hM => ?_
    rcases hM with ⟨c', hc', _⟩ | ⟨_, hc⟩
    · simp at hc'
    · exact hc hnil
  have hkeep : s.height = 1 ∨ 2 ≤ c.slots.length → Leaves s 1 (flat ([] ++ [c])) Q
      (words ([] ++ [c]) ++ []) s := by
    intro h
    refine leaves_self hrow (fun c' hc' hnil => ?_) ⟨rfl, c.ent, rfl, hw, hne, hle,
      h.imp_right fun h2 => ?_⟩ hpos
    · obtain rfl : c' = c := mem_singleton.1 hc'
      exact hroot hnil
    · exact ⟨c, mem_singleton_self c, hw, h2⟩
  refine .ite (fun hsmall => ?_) fun hbig => .ret (hkeep (.inr ?_))
  · rw [if_neg (lt_irrefl _)]
    refine .ite (fun hone => ?_) fun hone => .ret (hkeep ?_)
    · by_cases hheight : s.height ≤ 1
      · rw [btreeShrink, if_pos hheight]
        exact .ret (hkeep (.inl (by omega)))
      obtain ⟨x, hx⟩ := length_eq_one_iff.1 hone
      have hload := hrow.mid.load
      have hxmem : x ∈ c.slots := hx ▸ mem_singleton_self x
      obtain ⟨y, hy, hQ⟩ := hmarked (ne_nil_of_mem hxmem)
      obtain rfl : y = x := mem_singleton.1 (hx ▸ hy)
      have hs := btreeShrink_spec (by rw [← hw, hload, hx]; rfl) (hrow.sorted_slots.ne y hxmem)
        (hrow.sorted_slots.le y hxmem) hQ (not_le.1 hheight)
      simpa [hx, hw] using hs
    · by_cases hnil : c.slots = []
      · exact .inl (hroot hnil)
      · have hpos := length_pos_iff.2 hnil
        exact .inr (by omega)
  · have hroom := g.room
    omega

/-- What follows the removal of a pair. -/
theorem afterRemoval_spec (hrem : ∀ d', d = d' + 1 → RemoveSpec remove d')
    (hrow : IsRow s Q (A ++ c :: B) ps) (hfill : Filled s (A ++ B))
    (hmarked : c.slots ≠ [] → ∃ x ∈ c.slots, Q x.word)
    (hup : Up s d (entries (A ++ c :: B)) (Mark A c B) ps) (hkey : KeyIs s key k ps)
    (hptr : c.slots = [] → key = .arg k) (hlow : c.ent.low ≤ num k) (htop : num k ≤ c.ent.top)
    (hd : d < s.height) (hlevel : level = s.height - d) :
    Ends (afterRemoval remove s key level c.word c.slots.length)
      (Leaves s (d + 1) (flat (A ++ c :: B)) Q (words (A ++ c :: B) ++ ps)) := by
  have hroom := g.room
  cases d with
  | zero =>
    obtain rfl : level = s.height := by omega
    exact afterRemoval_root hrow hmarked hup hd
  | succ d =>
    have hne : ∀ c' ∈ A ++ B, c'.slots ≠ [] := fun c' hc' hnil =>
      absurd (hfill c' hc' hnil) (by omega)
    refine .ite (fun hsmall => ?_) fun hbig => .ret ?_
    · rw [if_pos (by omega)]
      exact rebalance_spec (hrem d rfl) hrow hne hup hlow htop (by omega) (by omega)
        (by omega) hmarked hsmall hkey hptr
    refine leaves_self hrow (fun c' hc' hnil => ?_) (hup.mono fun y _ hy => ?_) hd
    · refine absurd hnil (forall_mid hne (fun hnil => ?_) c' hc')
      rw [hnil, length_nil] at hbig
      omega
    · exact big_mid.2 (hy.imp_right fun hw => ⟨hw.1.symm, by omega⟩)

/-! ### The whole of it -/

theorem Leads.keyIs (h : Leads key k c u e v level)
    (hload : s.load c.word = some (ofPairs (u ++ e :: v)))
    (hroom : (u ++ e :: v).length ≤ g.noPairs) (hps : c.word ∉ ps) : KeyIs s key k ps := by
  rcases h.ptr with rfl | ⟨rfl, rfl, _⟩
  · exact .arg
  · have hk := KeyIs.slot hload (i := u.length)
      (by rw [length_append, length_cons] at hroom; omega) hps
    rwa [key_ofPairs] at hk

/-- Once the pair is gone, the pointer leads to a key in the range of the node. -/
theorem Leads.keyIs_after (h : Leads key k c u e v level) (hslots : c.slots.map Ent.pair = u ++ v)
    (hin : ∀ x ∈ c.slots, c.ent.low ≤ x.low ∧ x.top ≤ c.ent.top) (hsorted : Sorted c.slots)
    (hload : s.load c.word = some (ofPairs (u ++ v))) (hroom : (u ++ v).length ≤ g.noPairs)
    (hps : c.word ∉ ps) :
    ∃ k', KeyIs s key k' ps ∧ (c.slots = [] → key = .arg k') ∧ c.ent.low ≤ num k' ∧
      num k' ≤ c.ent.top := by
  rcases h.ptr with rfl | ⟨rfl, _, hne⟩
  · exact ⟨k, .arg, fun _ => rfl, h.low, h.top⟩
  obtain ⟨p, v, rfl⟩ := exists_cons_of_ne_nil hne
  have hk := KeyIs.slot hload (i := u.length)
    (by rw [length_append, length_cons] at hroom; omega) hps
  rw [key_ofPairs] at hk
  obtain ⟨x, hx, hxp⟩ : ∃ x ∈ c.slots, x.pair = p :=
    mem_map.1 (hslots ▸ mem_append_cons_self)
  have hxlow : x.low = num p.1 := by rw [← hxp]; rfl
  obtain ⟨h1, h2⟩ := hin x hx
  have hle := hsorted.le x hx
  exact ⟨p.1, hk, fun hnil => by simp [hnil] at hx, by omega, by omega⟩

/-- `btree_remove_level` behind `find_level`, up to the removal of the pair. -/
theorem removeFrom_eq (h : Leads key k c u e v level) (hkey : s.keyAt key = some k)
    (hload : s.load c.word = some (ofPairs (u ++ e :: v)))
    (hroom : (u ++ e :: v).length ≤ g.noPairs) (hne : ∀ p ∈ u ++ e :: v, p.2 ≠ 0) :
    removeFrom remove s key level c.word =
      afterRemoval remove (s.store c.word (ofPairs (u ++ v))) key level c.word (u ++ v).length >>=
      fun s => some (s, e.2) := by
  have hpos : getpos (ofPairs (u ++ e :: v)) k = u.length := by
    refine getpos_ofPairs hroom h.before fun p hp => ?_
    rcases mem_cons.1 hp with rfl | hp
    · exact h.here
    · exact h.after p hp
  have hfill : getfill (g := g) (ofPairs (u ++ e :: v)) u.length = (u ++ e :: v).length :=
    getfill_ofPairs hroom (by simp) hne
  have hlen : (u ++ e :: v).length - 1 = (u ++ v).length := by
    simp only [length_append, length_cons]
    omega
  unfold removeFrom
  rw [hload, hkey]
  dsimp only [bind_eq_bind, bind_some]
  rw [hpos, hfill, bkey, if_neg (ne_noPairs hroom), key_ofPairs, val_ofPairs,
    shiftLeft_ofPairs rfl, hlen, if_neg (fun hc => hc.2 (longcmp_eq_zero_iff.2 (h.leaf hc.1))),
    if_neg (by simp [ne_noPairs hroom])]

namespace Loses

variable (h : Loses s Q A c B ps u e v)

include h

theorem frame (hframe : Frame s s' ps ps) (hh : s'.height = s.height) :
    Loses s' Q A c B ps u e v := by
  have hcps := h.row.notMem.2.2
  have hload := hframe.keep _ _ hcps h.load
  refine ⟨hload, h.slots, h.room, h.ne, h.row.congr fun p hp => ?_,
    fun c' hc' hnil => hh.trans (h.filled c' hc' hnil), h.marked⟩
  by_cases hpc : p = c.word
  · rw [hpc, load_store_self hload, load_store_self h.load]
  obtain ⟨c', hc', rfl⟩ := mem_map.1 hp
  have hload := (h.row.child c' hc').load
  have hps : c'.word ∉ ps := fun hc => (nodup_append.1 h.row.nodup).2.2 _ hp _ hc rfl
  rw [hload, load_store_ne hpc]
  rw [load_store_ne hpc] at hload
  exact hframe.keep _ _ hps hload

theorem length_eq : (u ++ v).length = c.slots.length := by rw [← h.slots, length_map]

/-- What follows when the pair has been removed. -/
theorem afterRemoval_spec (hrem : ∀ d', d = d' + 1 → RemoveSpec remove d')
    (hup : Up s d (entries (A ++ c :: B)) (Mark A c B) ps)
    (hkey : KeyIs (s.store c.word (ofPairs (u ++ v))) key k ps) (hptr : c.slots = [] → key = .arg k)
    (hlow : c.ent.low ≤ num k) (htop : num k ≤ c.ent.top) (hd : d < s.height)
    (hlevel : level = s.height - d) :
    Ends (afterRemoval remove (s.store c.word (ofPairs (u ++ v))) key level c.word (u ++ v).length)
      (Leaves s (d + 1) (flat (A ++ c :: B)) Q (words (A ++ c :: B) ++ ps)) := by
  have hcps := h.row.notMem.2.2
  have hup' : Up (s.store c.word (ofPairs (u ++ v))) d (entries (A ++ c :: B)) (Mark A c B) ps :=
    hup.congr (fun p hp => load_store_ne fun hc => hcps (hc ▸ hp)) rfl rfl
  rw [h.length_eq]
  refine .mono (Btree.afterRemoval_spec hrem (h.slots ▸ h.row) h.filled h.marked hup' hkey hptr hlow
    htop hd hlevel) fun s' hs' => hs'.of_frame (Frame.of_store (by simp)) rfl

end Loses

theorem btreeRemoveLevel_spec : ∀ (d : Nat) {fuel : Nat}, d + 1 ≤ fuel →
    RemoveSpec (g := g) (btreeRemoveLevel fuel) d
  | d, fuel + 1, hfuel => by
    intro s Q ps A B c u v e key k level hloses hleads hup hd hlevel
    have hcps := hloses.row.notMem.2.2
    have hkey := hleads.keyIs hloses.load hloses.room hcps
    rw [entries_append_cons] at hup
    obtain ⟨s1, hfind, hup1, hframe, hn1, hh1⟩ :=
      findLevel_exact hup hd hlevel hkey hleads.low hleads.top
    rw [← entries_append_cons] at hup1
    have h1 := hloses.frame hframe hh1
    have hne : ∀ p ∈ u ++ e :: v, p.2 ≠ 0 := by
      refine forall_mid (fun p hp => ?_) hloses.ne
      obtain ⟨x, hx, rfl⟩ := mem_map.1 (hloses.slots ▸ hp)
      exact hloses.row.sorted_slots.ne x hx
    obtain ⟨k', hkey', hptr, hlow, htop⟩ :=
      hleads.keyIs_after h1.slots h1.row.mid.inside h1.row.sorted_slots
      (load_store_self h1.load) (h1.length_eq ▸ h1.row.mid.room) hcps
    have hafter := h1.afterRemoval_spec
      (fun d' hd' => btreeRemoveLevel_spec d' (show d' + 1 ≤ fuel by omega)) hup1 hkey'
      hptr hlow htop (hh1 ▸ hd) (hh1 ▸ hlevel)
    rw [btreeRemoveLevel, if_neg (by omega)]
    refine .bind_eq hfind ?_
    dsimp only
    rw [removeFrom_eq hleads (hkey.frame hframe).eq h1.load h1.room hne]
    refine hafter.bind fun s3 h3 => .ret ⟨rfl, h3.of_frame (hframe.wider _) hh1⟩

end SilanKernel.Btree
