import SilanKernel.Lib.BtreeFind

/-!
# SilanKernel.Lib.BtreeInsert

`btree_insert_level` of `lib/btree.c`.

The new pair comes between those with greater keys and the others. If its node is full, the node is
split: the new node is first made known one level up, with the key in the middle, and takes the
upper half of the range of the old one. So the insertion of a pair with a range cuts the range of
the pair behind it.
-/

namespace SilanKernel.Btree

open List Option Nat Head

/-! ### Cutting a range -/

section

variable {n : Nat} {a b v w : List (Ent n)} {x : Ent n} {k : Nat}

/-- The first pair keeps only what is below `k`. -/
def cut (k : Nat) : List (Ent n) → List (Ent n)
  | [] => []
  | e :: l => { e with top := min e.top (k - 1) } :: l

@[simp] theorem map_pair_cut (k : Nat) (l : List (Ent n)) : (cut k l).map Ent.pair =
    l.map Ent.pair := by
  cases l <;> rfl

@[simp] theorem map_word_cut (k : Nat) (l : List (Ent n)) : (cut k l).map Ent.word =
    l.map Ent.word := by
  cases l <;> rfl

theorem length_cut (k : Nat) (l : List (Ent n)) : (cut k l).length = l.length := by
  cases l <;> rfl

theorem cut_of_lt : ∀ {l : List (Ent n)}, (∀ y ∈ l, y.top < k) → cut k l = l
  | [], _ => rfl
  | e :: l, h => by
    have htop : min e.top (k - 1) = e.top := min_eq_left (le_sub_one_of_lt (h e (mem_cons_self ..)))
    rw [cut, htop]

theorem cut_append (hw : ∀ y ∈ w, y.top < k) : cut k (v ++ w) = cut k v ++ w := by
  cases v with
  | nil => exact cut_of_lt hw
  | cons e v => rfl

theorem mem_cut : ∀ {l : List (Ent n)} {y : Ent n}, y ∈ cut k l → ∃ y' ∈ l, y.low = y'.low ∧
    y.top ≤ y'.top
  | e :: l, y, hy => by
    rcases mem_cons.1 hy with rfl | hy
    · exact ⟨e, mem_cons_self .., rfl, min_le_left ..⟩
    · exact ⟨y, mem_cons_of_mem e hy, rfl, le_refl _⟩

/-- A pair with a range that may be new to a row. -/
structure Fresh (x : Ent n) (a b : List (Ent n)) : Prop where
  before : ∀ y ∈ a, x.top < y.low
  after : ∀ y ∈ b, y.low < x.low
  le : x.low ≤ x.top
  ne : x.word ≠ 0
  fits : Fits x.low x.top (a ++ b)

theorem Sorted.cut (h : Sorted (a ++ b)) (hb : ∀ y ∈ b, y.low < k) :
    Sorted (a ++ cut k b) ∧ ∀ y ∈ Btree.cut k b, y.top < k := by
  cases b with
  | nil => exact ⟨h, nofun⟩
  | cons e b =>
    obtain ⟨hab, ha, hb', hle, hne⟩ := append_cons_iff.1 h
    have hek := hb e (mem_cons_self ..)
    have htop : ({ e with top := min e.top (k - 1) } : Ent n).top < k := by
      show min e.top (k - 1) < k
      omega
    constructor
    · refine append_cons_iff.2 ⟨hab, fun x hx => ?_, hb', ?_, hne⟩
      · exact lt_of_le_of_lt (min_le_left ..) (ha x hx)
      · exact Nat.le_min.2 ⟨hle, Nat.le_sub_one_of_lt hek⟩
    · intro y hy
      rcases mem_cons.1 hy with rfl | hy
      · exact htop
      · exact lt_trans (hb' y hy) hek

theorem Sorted.insert (h : Sorted (a ++ b)) (hx : Fresh x a b) :
    Sorted (a ++ x :: Btree.cut x.low b) := by
  obtain ⟨hs, htop⟩ := h.cut hx.after
  exact append_cons_iff.2 ⟨hs, hx.before, htop, hx.le, hx.ne⟩

/-- There is one place for a new pair. -/
theorem split_unique (h : a ++ b = a' ++ b') (ha : ∀ y ∈ a, k < y.low) (hb : ∀ y ∈ b, y.low ≤ k)
    (ha' : ∀ y ∈ a', k < y.low) (hb' : ∀ y ∈ b', y.low ≤ k) : a = a' ∧ b = b' := by
  have hnil : ∀ l : List (Ent n), (∀ y ∈ l, k < y.low) → (∀ y ∈ l, y.low ≤ k) → l = [] := by
    intro l h1 h2
    cases l with
    | nil => rfl
    | cons y l =>
      have hlt := h1 y (mem_cons_self ..)
      have hle := h2 y (mem_cons_self ..)
      omega
  rcases append_eq_append_iff.1 h with ⟨l, rfl, rfl⟩ | ⟨l, rfl, rfl⟩
  · have hl := hnil l (fun y hy => ha' y (mem_append_right _ hy)) fun y hy =>
      hb y (mem_append_left _ hy)
    simp [hl]
  · have hl := hnil l (fun y hy => ha y (mem_append_right _ hy)) fun y hy =>
      hb' y (mem_append_left _ hy)
    simp [hl]

end

variable {g : Geo} {s s' : Head g} {key : KeyPtr g.keylen} {Q : Word → Prop} {level fuel : Nat}
  {c : Child g.keylen} {a b u v : List (Ent g.keylen)} {x : Ent g.keylen}
  {ins : Head g → KeyPtr g.keylen → Word → Nat → Option (Head g × Int)}

/-! ### A node with room -/

/-- Where the pair goes in a node. -/
theorem insertInto_eq (hload : s.load c.word = some (ofPairs ((u ++ v).map Ent.pair)))
    (hroom : (u ++ v).length ≤ g.noPairs) (hu : ∀ y ∈ u, x.low < y.low)
    (hv : ∀ y ∈ v, y.low < x.low) (hne : ∀ y ∈ u ++ v, y.word ≠ 0)
    (hkey : s.keyAt key = some x.lo) :
    insertInto ins s key x.word level c.word =
      if (u ++ v).length = g.noPairs then
        splitAndRetry ins s key x.word level c.word (u ++ v).length
      else
        insertPair s c.word u.length (u ++ v).length key x.word >>= fun s => some (s, 0) := by
  have hpos := getpos_slots hroom hu fun y hy => le_of_lt (hv y hy)
  have hfill := getfill_slots hroom (show u.length ≤ (u ++ v).length by simp) hne
  have hdup : ¬ (u.length < (u ++ v).length ∧
      longcmp ((ofPairs ((u ++ v).map Ent.pair)).key u.length) x.lo = 0) := by
    intro ⟨hlt, heq⟩
    cases v with
    | nil => simp at hlt
    | cons y v =>
      rw [key_slots, longcmp_eq_zero_iff] at heq
      have hlt := hv y (mem_cons_self ..)
      rw [Ent.low, Ent.low, heq] at hlt
      exact lt_irrefl _ hlt
  unfold insertInto
  rw [hload, hkey]
  dsimp only [bind_eq_bind, bind_some]
  rw [hpos, hfill, if_neg hdup]

/-- The pair `x` is there, and the tree is as high as before. -/
abbrev Put (s s' : Head g) (d : Nat) (a b : List (Ent g.keylen)) (x : Ent g.keylen)
    (Q : Word → Prop) (ps : List Word) : Prop :=
  Up s' d (a ++ x :: cut x.low b) (fun w => Q w ∨ w = x.word) ps ∧ Frame s s' ps ps ∧
    s'.height = s.height

/-- The pair goes into a node that is not full. -/
theorem insertPair_spec (ins : Head g → KeyPtr g.keylen → Word → Nat → Option (Head g × Int))
    (level : Nat) (hrow : IsRow s Q (A ++ c :: B) ps) (hfill : Filled s (A ++ c :: B))
    (hslots : c.slots = u ++ v) (hroom : c.slots.length < g.noPairs)
    (hx : Fresh x (flat A ++ u) (v ++ flat B)) (hlow : c.ent.low ≤ x.low) (htop : x.top ≤ c.ent.top)
    (hB : ∀ y ∈ B, y.ent.top < x.low) (hkey : KeyIs s key x.lo (words (A ++ c :: B) ++ ps))
    (hup : Up s d (entries (A ++ c :: B)) (Big (A ++ ⟨c.ent, u ++ x :: cut x.low v⟩ :: B)) ps) :
    ∃ s', insertInto ins s key x.word level c.word = some (s', 0) ∧
      Put s s' (d + 1) (flat A ++ u) (v ++ flat B) x Q (words (A ++ c :: B) ++ ps) := by
  have hmem : c.word ∈ words (A ++ c :: B) ++ ps := by simp
  have hload := hrow.mid.load
  have hins := hrow.mid.inside
  have hnear := hrow.mid.near
  have hsorted := hrow.sorted
  have hword := hrow.sorted_slots.ne
  rw [flat_append_cons, hslots] at hsorted
  rw [hslots] at hload hins hnear hroom hword
  have hu : ∀ y ∈ u, x.low < y.low := fun y hy =>
    lt_of_le_of_lt hx.le (hx.before y (mem_append_right _ hy))
  have hv : ∀ y ∈ v, y.low < x.low := fun y hy => hx.after y (mem_append_left _ hy)
  have hkey' :
      (s.store c.word (shiftRight u.length (u ++ v).length (ofPairs ((u ++ v).map Ent.pair)))).keyAt
      key = some x.lo := (hkey.frame (Frame.of_store hmem)).eq
  have hshift : (shiftRight u.length (u ++ v).length (ofPairs ((u ++ v).map Ent.pair))).setpair
      u.length x.lo x.word = ofPairs ((u ++ x :: cut x.low v).map Ent.pair) := by
    have h := shiftRight_ofPairs (k := x.lo) (v := x.word)
      (show (u ++ v).length = (u.map Ent.pair ++ v.map Ent.pair).length by simp)
    rw [length_map, ← map_append] at h
    rw [h, map_append, map_cons, map_pair_cut]
    rfl
  let s' := s.store c.word (ofPairs ((u ++ x :: cut x.low v).map Ent.pair))
  have hrun : insertPair s c.word u.length (u ++ v).length key x.word = some s' := by
    unfold insertPair
    rw [hload]
    dsimp only [bind_eq_bind, bind_some]
    rw [hkey', bind_some, hshift]
  -- the row with the new pair
  have hcut : cut x.low (v ++ flat B) = cut x.low v ++ flat B := by
    refine cut_append fun y hy => ?_
    obtain ⟨c', hc', hy'⟩ := mem_flatMap.1 hy
    exact lt_of_le_of_lt ((hrow.child c' (mem_mid_right hc')).inside y hy').2 (hB c' hc')
  let c' : Child g.keylen := ⟨c.ent, u ++ x :: cut x.low v⟩
  have hflat' : flat A ++ c'.slots ++ flat B = flat A ++ u ++ x :: cut x.low (v ++ flat B) := by
    simp [c', hcut]
  have hsorted' : Sorted (flat A ++ u ++ x :: cut x.low (v ++ flat B)) := by
    refine Sorted.insert ?_ hx
    simpa only [append_assoc] using hsorted
  have hc' : ChildOk s' (fun w => Q w ∨ w = x.word) c' := by
    refine ⟨load_store_self hload, ?_, fun y hy => ?_, ?_⟩
    · show (u ++ x :: cut x.low v).length ≤ g.noPairs
      rw [length_append] at hroom ⊢
      rw [length_cons, length_cut]
      omega
    · rcases mem_mid.1 hy with hy | rfl | hy
      · exact hins y (mem_append_left _ hy)
      · exact ⟨hlow, htop⟩
      · obtain ⟨y', hy', hyl, hyt⟩ := mem_cut hy
        obtain ⟨h1, h2⟩ := hins y' (mem_append_right _ hy')
        exact ⟨hyl ▸ h1, le_trans hyt h2⟩
    · have hnear' : NearEnds _ (fun w => Q w ∨ w = x.word) _ := hnear.mono fun w _ hw => .inl hw
      rw [map_append] at hnear'
      simp only [c', map_append, map_cons, map_word_cut]
      exact NearEnds.middle (w := []) (by rwa [append_nil]) g.two_le_half (.inr rfl)
  have hrow' : IsRow s' (fun w => Q w ∨ w = x.word) (A ++ c' :: B) ps :=
    (hrow.mono fun y _ hy => .inl hy).replace rfl hc' (hflat' ▸ hsorted') fun q hq =>
      load_store_ne hq
  refine ⟨s', ?_, ⟨A ++ c' :: B, ps, ?_, ?_, hrow', ?_, ?_⟩, Frame.of_store hmem, rfl⟩
  · rw [insertInto_eq hload (le_of_lt hroom) hu hv hword hkey.eq, if_neg (Nat.ne_of_lt hroom), hrun]
    rfl
  · rw [flat_append_cons, hflat']
  · rw [words_append_cons, words_append_cons]
  · exact hfill.replace rfl fun hnil => absurd hnil (by simp [c'])
  · rw [entries_append_cons] at hup ⊢
    refine hup.congr (fun p hp => load_store_ne ?_) rfl rfl
    exact fun hc => hrow.notMem.2.2 (hc ▸ hp)

/-! ### The way to the node -/

/-- The node found for a new pair; its range is widened to have that of the pair in it. -/
theorem findLevel_fresh (hrow : IsRow s Q R ps) (hE : flat R = a ++ b) (hx : Fresh x a b)
    (hup : Up s d (entries R) M ps) (hd : d < s.height) (hlevel : level = s.height - d)
    (hkey : KeyIs s key x.lo ps) :
    ∃ s' A c B u v, R = A ++ c :: B ∧ findLevel s key level = some (s', c.word) ∧ c.slots = u ++ v ∧
      a = flat A ++ u ∧ b = v ++ flat B ∧ (∀ y ∈ A, x.low < y.ent.low) ∧
      (∀ y ∈ B, y.ent.top < x.low) ∧ IsRow s' Q (A ++ ⟨c.ent.widen x.lo x.top, c.slots⟩ :: B) ps ∧
      Up s' d (entries (A ++ ⟨c.ent.widen x.lo x.top, c.slots⟩ :: B)) M ps ∧ Frame s s' ps ps ∧
      s'.node = s.node ∧ s'.height = s.height := by
  have hfits : Fits (num x.lo) x.top (entries R) :=
    (hE ▸ hx.fits : Fits x.low x.top (flat R)).above fun c hc => (hrow.child c hc).inside
  obtain ⟨s', a1, e1, b1, hfind, hent, ha1, hup', hframe, hn, hh⟩ :=
    findLevel_spec hx.le hup hd hlevel hkey hfits
  obtain ⟨A, c, B, rfl, rfl, rfl, rfl⟩ := exists_of_entries_eq hent
  obtain ⟨u, v, hslots, hu, hv⟩ := hrow.sorted_slots.split x.low
  have hB : ∀ y ∈ B, y.ent.top < x.low := by
    intro y hy
    have hlt := (Sorted.append_cons_iff.1 hup'.sorted).2.2.1 y.ent (mem_map_of_mem hy)
    rw [Ent.low_widen] at hlt
    exact lt_of_lt_of_le hlt (min_le_right ..)
  have hA : ∀ y ∈ A, x.low < y.ent.low := fun y hy => ha1 y.ent (mem_map_of_mem hy)
  have hplace : a = flat A ++ u ∧ b = v ++ flat B := by
    refine split_unique (k := x.low) ?_ ?_ ?_ ?_ ?_
    · rw [← hE, flat_append_cons, hslots]
      simp
    · exact fun y hy => lt_of_le_of_lt hx.le (hx.before y hy)
    · exact fun y hy => le_of_lt (hx.after y hy)
    · intro y hy
      rcases mem_append.1 hy with hy | hy
      · obtain ⟨c', hc', hy'⟩ := mem_flatMap.1 hy
        exact lt_of_lt_of_le (hA c' hc') ((hrow.child c' (mem_append_left _ hc')).inside y hy').1
      · exact hu y hy
    · intro y hy
      rcases mem_append.1 hy with hy | hy
      · exact hv y hy
      obtain ⟨c', hc', hy'⟩ := mem_flatMap.1 hy
      have hle := hrow.sorted.le y (by rw [flat_append_cons]; exact mem_append_right _ hy)
      have htop := ((hrow.child c' (mem_mid_right hc')).inside y hy').2
      have hlt := hB c' hc'
      omega
  have hrow' := hrow.frame hframe hup.nodup
  refine ⟨s', A, c, B, u, v, rfl, hfind, hslots, hplace.1, hplace.2, hA, hB, ?_, ?_, hframe, hn, hh⟩
  · refine hrow'.rekey rfl fun y hy => ?_
    obtain ⟨h1, h2⟩ := hrow'.mid.inside y hy
    rw [Ent.low_widen, Ent.top_widen]
    exact ⟨le_trans (min_le_left ..) h1, le_trans h2 (le_max_left ..)⟩
  · rwa [entries_append_cons]

/-- `btree_insert_level` on a level that is there. -/
theorem btreeInsertLevel_succ (hval : val ≠ 0) (hlevel : level ≤ s.height) :
    btreeInsertLevel (fuel + 1) s key val level = findLevel s key level >>= fun r =>
      insertInto (btreeInsertLevel fuel) r.1 key val level r.2 := by
  rw [btreeInsertLevel, if_neg hval, growTo, if_neg (not_lt.2 hlevel)]
  rfl

/-- The node found has room. -/
theorem insertInto_room (fuel level : Nat)
    (hrow : IsRow s Q (A ++ ⟨c.ent.widen x.lo x.top, c.slots⟩ :: B) ps)
    (hfill : Filled s (A ++ c :: B)) (hslots : c.slots = u ++ v)
    (hroom : c.slots.length < g.noPairs) (hx : Fresh x (flat A ++ u) (v ++ flat B))
    (hB : ∀ y ∈ B, y.ent.top < x.low) (hkey : KeyIs s key x.lo (words (A ++ c :: B) ++ ps))
    (hup : Up s d (entries (A ++ ⟨c.ent.widen x.lo x.top, c.slots⟩ :: B)) (Big (A ++ c :: B)) ps) :
    ∃ s', insertInto (btreeInsertLevel fuel) s key x.word level c.word = some (s', 0) ∧
      Put s s' (d + 1) (flat A ++ u) (v ++ flat B) x Q (words (A ++ c :: B) ++ ps) := by
  have hwords : words (A ++ ⟨c.ent.widen x.lo x.top, c.slots⟩ :: B) = words (A ++ c :: B) := by
    rw [words_append_cons, words_append_cons]
    rfl
  have hlow : (c.ent.widen x.lo x.top).low ≤ x.low := by
    rw [Ent.low_widen]
    exact min_le_right ..
  have hlen : c.slots.length ≤ (u ++ x :: cut x.low v).length := by
    rw [hslots, length_append, length_append, length_cons, length_cut]
    omega
  have hins := insertPair_spec (btreeInsertLevel fuel) level hrow
    (hfill.replace rfl (hfill c mem_append_cons_self)) hslots hroom hx hlow
    (le_max_right ..) hB (hwords ▸ hkey) (hup.mono fun y _ hbig => hbig.replace rfl hlen)
  rwa [hwords] at hins

/-- The insertion into a row where the node found is not full. -/
theorem btreeInsertLevel_room (fuel : Nat) (hrow : IsRow s Q R ps) (hfill : Filled s R)
    (hE : flat R = a ++ b) (hx : Fresh x a b) (hup : Up s d (entries R) (Big R) ps)
    (hd : d < s.height) (hlevel : level = s.height - d) (hkey : KeyIs s key x.lo (words R ++ ps))
    (hroom : ∀ A c B, R = A ++ c :: B → (∀ y ∈ A, x.low < y.ent.low) →
      (∀ y ∈ B, y.ent.top < x.low) →
      c.slots.length < g.noPairs) :
    ∃ s', btreeInsertLevel (fuel + 1) s key x.word level = some (s', 0) ∧
      Put s s' (d + 1) a b x Q (words R ++ ps) := by
  obtain ⟨s1, A, c, B, u, v, rfl, hfind, hslots, rfl, rfl, hA, hB, hrow1, hup1, hframe, hn1, hh1⟩ :=
    findLevel_fresh hrow hE hx hup hd hlevel (hkey.mono fun p hp => mem_append_right _ hp)
  have hframe' := hframe.wider (words (A ++ c :: B))
  obtain ⟨s2, hrun, hup2, hframe2, hh2⟩ := insertInto_room fuel level hrow1
    (fun c' hc' hnil => hh1.trans (hfill c' hc' hnil)) hslots (hroom A c B rfl hA hB) hx hB
    (hkey.frame hframe') hup1
  refine ⟨s2, ?_, hup2, hframe'.trans hframe2, hh2.trans hh1⟩
  rw [btreeInsertLevel_succ hx.ne (by omega), hfind]
  exact hrun

/-! ### A new root -/

/-- What a call of `btree_insert_level` for the pair `x` may do: it is there, or nothing is changed
for want of memory. A tree that grows puts a level between the pairs and the root. -/
def Inserted (s : Head g) (d : Nat) (a b : List (Ent g.keylen)) (x : Ent g.keylen) (Q : Word → Prop)
    (ps : List Word) (r : Head g × Int) : Prop :=
  (r.2 = 0 ∧ ∃ d' ps', d ≤ d' ∧ r.1.height + d = s.height + d' ∧
      Up r.1 d' (a ++ x :: cut x.low b) (fun w => Q w ∨ w = x.word) ps' ∧ Frame s r.1 ps ps') ∨
    (r.2 = -ENOMEM ∧ r.1.height = s.height ∧ Up r.1 d (a ++ b) Q ps ∧ Frame s r.1 ps ps)

theorem Inserted.of_frame (h : Inserted s' d a b x Q ps r) (hframe : Frame s s' ps ps)
    (hh : s'.height = s.height) : Inserted s d a b x Q ps r := by
  rcases h with ⟨hr, d', ps', hd', hh', hup, hframe'⟩ | ⟨hr, hh', hup, hframe'⟩
  · exact .inl ⟨hr, d', ps', hd', hh ▸ hh', hup, hframe.trans hframe'⟩
  · exact .inr ⟨hr, hh'.trans hh, hup, hframe.trans hframe'⟩

/-- The insertion into a new root, with the old one or nothing in it. -/
theorem insertInto_newRoot (fuel : Nat) (hnode : s.node = p)
    (hload : s.load p = some (ofPairs ((a ++ b).map Ent.pair))) (hlen : (a ++ b).length ≤ 1)
    (hheight : a ++ b = [] → s.height = 1) (hsorted : Sorted (a ++ b)) (hx : Fresh x a b)
    (htop : ∀ y ∈ a ++ b, y.top ≤ top) (hxtop : x.top ≤ top) (hkey : KeyIs s key x.lo [p]) :
    ∃ s', (findLevel s key s.height >>= fun r =>
        insertInto (btreeInsertLevel fuel) r.1 key x.word s.height r.2) = some (s', 0) ∧
      Put s s' 1 a b x Q [p] := by
  have hpairs := g.room
  let c : Child g.keylen := ⟨⟨zeroKey _, top, p⟩, a ++ b⟩
  have hzero : c.ent.low = 0 := num_zeroKey
  have hrow : IsRow s Q ([] ++ c :: []) [] := by
    refine ⟨nodup_singleton p, by simpa using hsorted, fun c' hc' => ?_⟩
    obtain rfl : c' = c := mem_singleton.1 hc'
    refine ⟨hload, by show (a ++ b).length ≤ _; omega,
      fun y hy => ⟨hzero ▸ zero_le _, htop y hy⟩, .of_short ?_⟩
    rw [length_map]
    exact lt_succ_of_le hlen
  have hup : Up s 0 (entries ([] ++ c :: []))
      (Big ([] ++ ⟨c.ent, a ++ x :: cut x.low b⟩ :: [])) [] := by
    refine ⟨rfl, c.ent, rfl, hnode.symm, hnode ▸ ne_zero_of_load hload, hzero ▸ zero_le _, ?_⟩
    by_cases hnil : a ++ b = []
    · exact .inl (hheight hnil)
    · refine .inr ⟨_, mem_singleton_self _, hnode.symm, ?_⟩
      have hpos := length_pos_iff.2 hnil
      simp only [length_append, length_cons, length_cut] at hpos ⊢
      omega
  have hfill : Filled s ([] ++ c :: []) := fun c' hc' hnil =>
    hheight (by obtain rfl : c' = c := mem_singleton.1 hc'; exact hnil)
  obtain ⟨s', hrun, hup', hframe, hh⟩ :=
    insertPair_spec (btreeInsertLevel fuel) s.height hrow hfill rfl
    (show (a ++ b).length < _ by omega) (by simpa using hx) (hzero ▸ zero_le _) hxtop nofun hkey hup
  have hfind : findLevel s key s.height = some (s, p) := by
    rw [findLevel, Nat.sub_self, findLoop, hnode]
    exact if_neg (ne_zero_of_load hload)
  refine ⟨s', ?_, by simpa using hup', hframe, hh⟩
  rw [hfind]
  exact hrun

/-- `btree_grow` with the memory for it. -/
theorem btreeInsertLevel_grow (hval : x.word ≠ 0) (hlevel : level = s.height + 1)
    (halloc : btreeNodeAlloc s = (s1, some p)) (hgrow : growPair s1 p = some s2)
    (hh : s2.height = s.height) :
    btreeInsertLevel (fuel + 1) s key x.word level =
      findLevel { s2 with node := p, height := s.height + 1 } key (s.height + 1) >>= fun r =>
        insertInto (btreeInsertLevel fuel) r.1 key x.word (s.height + 1) r.2 := by
  have hg : btreeGrow s = some ({ s2 with node := p, height := s.height + 1 }, 0) := by
    unfold btreeGrow
    rw [halloc]
    dsimp only
    rw [hgrow, ← hh]
    rfl
  rw [hlevel, btreeInsertLevel, if_neg hval, growTo, if_pos (lt_succ_self _), hg]
  rfl

/-- `btree_grow` without. -/
theorem btreeInsertLevel_enomem (hval : x.word ≠ 0) (hlevel : level = s.height + 1)
    (halloc : btreeNodeAlloc s = (s1, none)) :
    btreeInsertLevel (fuel + 1) s key x.word level = some (s1, -ENOMEM) := by
  have hg : btreeGrow s = some (s1, -ENOMEM) := by
    unfold btreeGrow
    rw [halloc]
  rw [hlevel, btreeInsertLevel, if_neg hval, growTo, if_pos (lt_succ_self _), hg]
  rfl

/-- The pair that is to lead to the root has the last key in it. -/
def RootKey (s : Head g) (E : List (Ent g.keylen)) : Prop :=
  ∃ l e', s.load s.node = some (ofPairs ((l ++ [e']).map Ent.pair)) ∧
    (l ++ [e']).length ≤ g.noPairs ∧ (∀ y ∈ l ++ [e'], y.word ≠ 0) ∧ ∀ e ∈ E, e.lo = e'.lo

/-- `btree_insert_level` above the root. -/
theorem btreeInsertLevel_root (hup : Up s 0 (a ++ b) Q ps) (hx : Fresh x a b)
    (hkey : KeyIs s key x.lo ps) (hroot : RootKey s (a ++ b)) (hlevel : level = s.height + 1) :
    Ends (btreeInsertLevel (fuel + 1) s key x.word level) (Inserted s 0 a b x Q ps) := by
  have hsorted := hup.sorted
  obtain ⟨rfl, e, hE, hew, hne, hle, hq⟩ := hup
  obtain ⟨l, e', hload, hroom, hword, hlast⟩ := hroot
  have hlo : e.lo = e'.lo := hlast e (hE ▸ mem_singleton_self e)
  rcases btreeNodeAlloc_cases s with ⟨s1, halloc, hs1, hn1, hh1⟩ | ⟨s1, p, halloc, hp, hp1,
    hs1, hn1, hh1⟩
  · rw [btreeInsertLevel_enomem hx.ne hlevel halloc]
    refine .ret
      (.inr ⟨rfl, hh1, ⟨rfl, e, hE, hew.trans hn1.symm, hn1 ▸ hne, hle, by rwa [hh1, hn1]⟩, ?_⟩)
    exact ⟨fun q nd _ hq => (hs1 q).trans hq, fun q hq => .inl hq⟩
  have hnp : s1.node ≠ p := fun hc => by
    rw [← hc, hn1, hload] at hp
    cases hp
  have hgrow : growPair s1 p = some (s1.store p (ofPairs [e.pair])) := by
    unfold growPair
    rw [if_neg (hn1 ▸ hne), hs1 _ hnp, hn1, hload]
    dsimp only [bind_eq_bind, bind_some]
    rw [getfill_slots hroom (zero_le _) hword, if_neg (by simp), hp1, bind_some, length_append,
      length_singleton, Nat.add_sub_cancel, key_slots, ← hlo, ← hew]
    exact congrArg (fun nd => some (s1.store p nd)) (shiftRight_ofPairs (a := []) (b := []) rfl)
  let s2 : Head g := { s1.store p (ofPairs [e.pair]) with node := p, height := s.height + 1 }
  have hframe : Frame s s2 [] [p] := by
    refine ⟨fun q nd _ hq => ?_, fun q hq => .inr (mem_singleton.1 hq ▸ hp)⟩
    have hqp : q ≠ p := fun hc => by
      rw [hc, hp] at hq
      cases hq
    exact (load_store_ne hqp).trans ((hs1 q hqp).trans hq)
  have hload2 : s2.load p = some (ofPairs ((a ++ b).map Ent.pair)) := by
    rw [hE]
    exact load_store_self hp1
  obtain ⟨s3, hrun, hup3, hframe3, hh3⟩ := insertInto_newRoot (Q := Q) fuel rfl hload2
    (by rw [hE]; exact le_refl _) (fun hnil => by rw [hE] at hnil; cases hnil) hsorted hx
    (fun y hy => by rw [hE] at hy; rw [mem_singleton.1 hy]; exact le_max_left e.top x.top)
    (le_max_right ..) (hkey.frame hframe)
  refine ⟨(s3, 0), ?_, .inl ⟨rfl, 1, [p], zero_le _, hh3, hup3, hframe.trans hframe3⟩⟩
  rw [btreeInsertLevel_grow hx.ne hlevel halloc hgrow hh1]
  exact hrun

/-! ### A full node -/

theorem splitNode_eq {l₁ l₂ : List (Ent g.keylen)} {node new : Word} {half : Nat}
    (hload : s.load node = some (ofPairs ((l₁ ++ l₂).map Ent.pair)))
    (hnew : s.load new = some .zero) (h1 : l₁.length = half) (h2 : l₂.length = half) :
    splitNode s node new (half + half) =
      some ((s.store new (ofPairs (l₁.map Ent.pair))).store node (ofPairs (l₂.map Ent.pair))) := by
  have hsplit := splitPairs_ofPairs ((length_map Ent.pair).trans h1)
    ((length_map Ent.pair).trans h2)
  unfold splitNode
  rw [hload, hnew]
  dsimp only [bind_eq_bind, bind_some]
  rw [← ofPairs_nil, map_append, hsplit]

/-- The two nodes of a split: the new one has the upper half of the range. -/
abbrev upperHalf (c : Child g.keylen) (m : Ent g.keylen) (l₁ : List (Ent g.keylen)) (new : Word) :
    Child g.keylen :=
  ⟨⟨m.lo, c.ent.top, new⟩, l₁ ++ [m]⟩

abbrev lowerHalf (c : Child g.keylen) (m : Ent g.keylen) (l₂ : List (Ent g.keylen)) :
    Child g.keylen :=
  ⟨{ c.ent with top := min c.ent.top (m.low - 1) }, l₂⟩

theorem flat_halves (hslots : c.slots = l₁ ++ [m] ++ l₂) :
    flat (A ++ upperHalf c m l₁ new :: lowerHalf c m l₂ :: B) = flat (A ++ c :: B) := by
  rw [flat_append_cons, flat_append_cons, hslots]
  simp

section

variable {A B : List (Child g.keylen)} {l₁ l₂ : List (Ent g.keylen)} {m : Ent g.keylen}
  (hrow : IsRow s Q (A ++ c :: B) ps) (hslots : c.slots = l₁ ++ [m] ++ l₂)
  (h1 : (l₁ ++ [m]).length = g.noPairs / 2)

include hrow hslots h1

/-- The key of the last pair of the first half. -/
theorem IsRow.keyIs_half : KeyIs s (.slot c.word (g.noPairs / 2 - 1)) m.lo ps := by
  have hroom := g.room
  have hload := hrow.mid.load
  rw [length_append, length_singleton] at h1
  have hidx : g.noPairs / 2 - 1 = l₁.length := by omega
  rw [hslots, append_assoc, singleton_append] at hload
  have hk := KeyIs.slot hload (show g.noPairs / 2 - 1 < g.noPairs by omega) hrow.notMem.2.2
  rwa [hidx, key_slots, ← hidx] at hk

variable (h2 : l₂.length = g.noPairs / 2) (hnew : new ∉ words (A ++ c :: B) ++ ps)

include h2 hnew

theorem IsRow.split (hload1 : s'.load new = some (ofPairs ((l₁ ++ [m]).map Ent.pair)))
    (hload2 : s'.load c.word = some (ofPairs (l₂.map Ent.pair)))
    (hs' : ∀ q, q ≠ new → q ≠ c.word → s'.load q = s.load q) :
    IsRow s' Q (A ++ upperHalf c m l₁ new :: lowerHalf c m l₂ :: B) ps := by
  have hsorted := hrow.sorted_slots
  have hin := hrow.mid.inside
  have hnear := hrow.mid.near
  rw [hslots] at hsorted hin hnear
  rw [map_append] at hnear
  refine ⟨?_, by rw [flat_halves hslots]; exact hrow.sorted,
    forall_mid (forall_mid (fun c' hc' => ?_) ?_) ?_⟩
  · have hn := hrow.nodup
    rw [words_append_cons] at hn hnew ⊢
    rw [append_assoc, cons_append] at hnew ⊢
    rw [append_assoc] at hn
    exact nodup_middle.2 (nodup_cons.2 ⟨hnew, hn⟩)
  · refine (hrow.child c' (mem_mid_of_mem hc')).congr (hs' _ (fun heq => ?_) (hrow.word_ne hc'))
    exact hnew (mem_append_left _ (heq ▸ mem_map_of_mem (mem_mid_of_mem hc')))
  · refine ⟨hload2, by show l₂.length ≤ _; omega, fun y hy => ⟨?_, ?_⟩, ?_⟩
    · exact (hin y (mem_append_right _ hy)).1
    · have hlt := hsorted.lt_of_append (mem_append_right l₁ (mem_singleton_self m)) hy
      exact Nat.le_min.2 ⟨(hin y (mem_append_right _ hy)).2, Nat.le_sub_one_of_lt hlt⟩
    · exact hnear.right g.two_le_half (by rwa [length_map])
  · refine ⟨hload1, by show (l₁ ++ [m]).length ≤ _; omega, fun y hy => ⟨?_, ?_⟩, ?_⟩
    · show m.low ≤ y.low
      rcases mem_append.1 hy with hy | hy
      · have hlt := (hsorted.sublist (sublist_append_left _ l₂)).lt_of_append hy
          (mem_singleton_self m)
        have hle := hsorted.le m (by simp)
        omega
      · rw [mem_singleton.1 hy]
    · exact (hin y (mem_append_left _ hy)).2
    · exact hnear.left g.two_le_half (by rwa [length_map])

/-- The pairs move once the new node is known above. -/
theorem splitNode_spec (hload : s.load new = some .zero)
    (hup : Up s d (entries A ++ (upperHalf c m l₁ new).ent :: cut m.low (c.ent :: entries B))
      (fun w => Big (A ++ c :: B) w ∨ w = new) ps) :
    ∃ s', splitNode s c.word new g.noPairs = some s' ∧
      IsRow s' Q (A ++ upperHalf c m l₁ new :: lowerHalf c m l₂ :: B) ps ∧
      Up s' d (entries (A ++ upperHalf c m l₁ new :: lowerHalf c m l₂ :: B))
        (Big (A ++ upperHalf c m l₁ new :: lowerHalf c m l₂ :: B)) ps ∧
      Frame s s' [new, c.word] [] ∧ s'.node = s.node ∧ s'.height = s.height := by
  have hroom := g.room
  have heven := g.even
  have hcw : c.word ≠ new := fun hc => hnew (hc ▸ by simp)
  have hcload := hrow.mid.load
  rw [hslots] at hcload
  have hsplit := splitNode_eq hcload hload h1 h2
  rw [show g.noPairs / 2 + g.noPairs / 2 = g.noPairs by omega] at hsplit
  have hother : ∀ q, q ≠ new → q ≠ c.word →
      ((s.store new (ofPairs ((l₁ ++ [m]).map Ent.pair))).store c.word
      (ofPairs (l₂.map Ent.pair))).load q = s.load q :=
    fun q hq hq' => (load_store_ne hq').trans (load_store_ne hq)
  refine ⟨_, hsplit, ?_, ?_, ⟨fun q nd hq hnd => ?_, nofun⟩, rfl, rfl⟩
  · refine hrow.split hslots h1 h2 hnew ?_ ?_ hother
    · exact (load_store_ne hcw.symm).trans (load_store_self hload)
    · exact load_store_self ((load_store_ne hcw).trans hcload)
  · have hup' := hup.congr (fun p hp => hother p ?_ ?_) rfl rfl
    · rw [entries_append_cons]
      refine hup'.mono fun y _ hy =>
        big_mid.2 (hy.imp (fun hy => big_mid.2 ?_) fun hy => ⟨hy.symm, ?_⟩)
      · exact (big_mid.1 hy).imp_right fun hc => ⟨hc.1, by show 2 ≤ l₂.length; omega⟩
      · show 2 ≤ (l₁ ++ [m]).length
        omega
    · exact fun hc => hnew (mem_append_right _ (hc ▸ hp))
    · exact fun hc => hrow.notMem.2.2 (hc ▸ hp)
  · rw [mem_cons, mem_singleton, not_or] at hq
    exact (hother q hq.1 hq.2).trans hnd

end

/-- Where the node to be split is: its key is the last one if it is the root, and the new pair is in
its range otherwise. -/
def Placed (s : Head g) (d : Nat) (A : List (Child g.keylen)) (c : Child g.keylen)
    (B : List (Child g.keylen)) (z x : Ent g.keylen) : Prop :=
  d = 0 ∧ A = [] ∧ B = [] ∧ c.ent.lo = z.lo ∧ s.node = c.word ∨ d ≠ 0 ∧ c.ent.low ≤ x.low

/-- The key of the pair that leads to the root may be chosen. -/
theorem Up.rekey_root (hup : Up s d (entries (A ++ c :: B)) M ps)
    (hrow : IsRow s Q (A ++ c :: B) ps) (hslots : c.slots = l₁ ++ [z]) (hlow : c.ent.low ≤ x.low) :
    ∃ e, e.word = c.word ∧ e.top = c.ent.top ∧ Up s d (entries (A ++ ⟨e, c.slots⟩ :: B)) M ps ∧
      IsRow s Q (A ++ ⟨e, c.slots⟩ :: B) ps ∧ Placed s d A ⟨e, c.slots⟩ B z x := by
  cases d with
  | succ d => exact ⟨c.ent, rfl, rfl, hup, hrow, .inr ⟨succ_ne_zero d, hlow⟩⟩
  | zero =>
    obtain ⟨hps, rfl, rfl, hw, hne, hle, hq⟩ := hup.root
    have hsorted := hrow.sorted_slots
    have hz : z ∈ c.slots := hslots ▸ mem_append_right _ (mem_singleton_self z)
    have hzle := hsorted.le z hz
    refine ⟨{ c.ent with lo := z.lo }, rfl, rfl, ⟨hps, _, rfl, hw, hne, ?_, hq⟩, ?_,
      .inl ⟨rfl, rfl, rfl, rfl, hw.symm⟩⟩
    · exact le_trans hzle (hrow.mid.inside z hz).2
    refine hrow.rekey rfl fun y hy => ⟨?_, (hrow.mid.inside y hy).2⟩
    show z.low ≤ y.low
    rw [hslots] at hy hsorted
    rcases mem_append.1 hy with hy | hy
    · have hlt := hsorted.lt_of_append hy (mem_singleton_self z)
      omega
    · rw [mem_singleton.1 hy]

/-- The new node, with the key in the middle and the upper half of the range. -/
theorem fresh_upperHalf (hrow : IsRow s Q (A ++ c :: B) ps)
    (hup : Up s d (entries (A ++ c :: B)) M ps) (hslots : c.slots = l₁ ++ [m] ++ (l₂ ++ [z]))
    (hnew : new ≠ 0) :
    Fresh (upperHalf c m l₁ new).ent (entries A) (c.ent :: entries B) := by
  have hsorted := hrow.sorted_slots
  have hin := hrow.mid.inside
  rw [hslots] at hsorted hin
  have hz : z ∈ l₁ ++ [m] ++ (l₂ ++ [z]) := by simp
  have hm : m ∈ l₁ ++ [m] ++ (l₂ ++ [z]) := by simp
  have hlt : c.ent.low < m.low := by
    have hzm := hsorted.lt_of_append (mem_append_right l₁ (mem_singleton_self m))
      (mem_append_right l₂ (mem_singleton_self z))
    exact lt_of_le_of_lt (le_trans (hin z hz).1 (hsorted.le z hz)) hzm
  have hent := hup.sorted
  rw [entries_append_cons] at hent
  refine ⟨(Sorted.append_cons_iff.1 hent).2.1, fun y hy => ?_, le_trans (hsorted.le m hm)
    (hin m hm).2, hnew, .inr ⟨c.ent, mem_append_cons_self, le_of_lt hlt, le_refl _⟩⟩
  rcases mem_cons.1 hy with rfl | hy
  · exact hlt
  · exact lt_trans (hent.low_lt hy) hlt

/-- `btree_insert_level` for pairs `d` levels under the root. -/
def InsertSpec (ins : Head g → KeyPtr g.keylen → Word → Nat → Option (Head g × Int))
    (d : Nat) : Prop :=
  ∀ ⦃s : Head g⦄ ⦃Q : Word → Prop⦄ ⦃ps : List Word⦄ ⦃a b : List (Ent g.keylen)⦄ ⦃x : Ent g.keylen⦄
    ⦃key : KeyPtr g.keylen⦄ ⦃level : Nat⦄, Up s d (a ++ b) Q ps → Fresh x a b →
    KeyIs s key x.lo ps → d ≤ s.height → (d = 0 → RootKey s (a ++ b)) → level = s.height + 1 - d →
    Ends (ins s key x.word level) (Inserted s d a b x Q ps)

/-- A full node in two halves. -/
theorem exists_halves (hl : l.length = g.noPairs) :
    ∃ l₁ m l₂ z, l = l₁ ++ [m] ++ (l₂ ++ [z]) ∧ (l₁ ++ [m]).length = g.noPairs / 2 ∧
      (l₂ ++ [z]).length = g.noPairs / 2 := by
  have hroom := g.room
  have heven := g.even
  have h1 : (l.take (g.noPairs / 2)).length = g.noPairs / 2 := by
    rw [length_take]
    omega
  have h2 : (l.drop (g.noPairs / 2)).length = g.noPairs / 2 := by
    rw [length_drop]
    omega
  obtain ⟨l₁, m, hm⟩ := (eq_nil_or_concat' (l.take (g.noPairs / 2))).resolve_left fun hnil => by
    rw [hnil, length_nil] at h1
    omega
  obtain ⟨l₂, z, hz⟩ := (eq_nil_or_concat' (l.drop (g.noPairs / 2))).resolve_left fun hnil => by
    rw [hnil, length_nil] at h2
    omega
  refine ⟨l₁, m, l₂, z, ?_, hm ▸ h1, hz ▸ h2⟩
  rw [← hm, ← hz, take_append_drop]

/-- The node found on the second turn is one of the halves. -/
theorem room_halves (hplace : Placed s d A c B z x) (hx : x.low ≤ x.top) (htop : x.top ≤ c.ent.top)
    (h1 : (l₁ ++ [m]).length < g.noPairs) (h2 : l₂.length < g.noPairs)
    (hR : A ++ upperHalf c m l₁ new :: lowerHalf c m l₂ :: B = A' ++ c' :: B')
    (hA' : ∀ y ∈ A', x.low < y.ent.low) (hB' : ∀ y ∈ B', y.ent.top < x.low) :
    c'.slots.length < g.noPairs := by
  suffices h : upperHalf c m l₁ new = c' ∨ lowerHalf c m l₂ = c' by
    rcases h with rfl | rfl
    · exact h1
    · exact h2
  rcases hplace with ⟨_, rfl, rfl, _⟩ | ⟨_, hlow⟩
  · have hmem : c' ∈ [upperHalf c m l₁ new, lowerHalf c m l₂] := by
      rw [nil_append] at hR
      rw [hR]
      exact mem_append_cons_self
    rcases mem_cons.1 hmem with rfl | hmem
    · exact .inl rfl
    · exact .inr (mem_singleton.1 hmem).symm
  -- the half that has the key in its range
  · have hin : ∀ y, y ∈ A ++ upperHalf c m l₁ new :: lowerHalf c m l₂ :: B → y.ent.low ≤ x.low →
        x.low ≤ y.ent.top → y = c' := by
      intro y hy hyl hyt
      rw [hR] at hy
      rcases mem_mid.1 hy with hy | hy | hy
      · exact absurd (hA' y hy) (not_lt.2 hyl)
      · exact hy
      · exact absurd (hB' y hy) (not_lt.2 hyt)
    by_cases hm : m.low ≤ x.low
    · exact .inl (hin _ (by simp) hm (le_trans hx htop))
    · refine .inr (hin _ (by simp) hlow ?_)
      show x.low ≤ min c.ent.top (m.low - 1)
      omega

/-- The key of the root is that of its last pair. -/
theorem Placed.rootKey (hplace : Placed s 0 A c B z x) (hrow : IsRow s' Q (A ++ c :: B) ps)
    (hslots : c.slots = l ++ [z]) (hnode : s'.node = s.node) :
    RootKey s' (entries A ++ c.ent :: entries B) := by
  obtain ⟨-, rfl, rfl, hlo, hroot⟩ := hplace.resolve_right fun h => h.1 rfl
  refine ⟨l, z, ?_, ?_, ?_, fun e he => ?_⟩
  · rw [hnode, hroot, hrow.mid.load, hslots]
  · rw [← hslots]
    exact hrow.mid.room
  · rw [← hslots]
    exact hrow.sorted_slots.ne
  · rw [mem_singleton.1 he, hlo]

/-- The split of a full node and the second turn. -/
theorem splitAndRetry_spec (hins : InsertSpec (g := g) (btreeInsertLevel (fuel + 1)) d)
    (hrow : IsRow s Q (A ++ c :: B) ps) (hfill : Filled s (A ++ c :: B))
    (hslots : c.slots = l₁ ++ [m] ++ (l₂ ++ [z])) (h1 : (l₁ ++ [m]).length = g.noPairs / 2)
    (h2 : (l₂ ++ [z]).length = g.noPairs / 2) (hE : flat (A ++ c :: B) = a ++ b) (hx : Fresh x a b)
    (hplace : Placed s d A c B z x) (htop : x.top ≤ c.ent.top)
    (hup : Up s d (entries (A ++ c :: B)) (Big (A ++ c :: B)) ps) (hd : d < s.height)
    (hlevel : level = s.height - d) (hkey : KeyIs s key x.lo (words (A ++ c :: B) ++ ps)) :
    Ends (splitAndRetry (btreeInsertLevel (fuel + 1)) s key x.word level c.word g.noPairs)
      (Inserted s (d + 1) a b x Q (words (A ++ c :: B) ++ ps)) := by
  have hroom := g.room
  let ws := words (A ++ c :: B) ++ ps
  have hup0 : Up s (d + 1) (a ++ b) Q ws := hE ▸ ⟨_, ps, rfl, rfl, hrow, hfill, hup⟩
  unfold splitAndRetry
  rcases btreeNodeAlloc_cases s with ⟨s1, halloc, hs1, hn1, hh1⟩ | ⟨s1, new, halloc, hnew, hnew1,
    hs1, hn1, hh1⟩
  · -- no memory for the new node
    rw [halloc]
    exact .ret (.inr ⟨rfl, hh1, hup0.congr (fun p _ => hs1 p) hn1 hh1,
      fun q nd _ hq => (hs1 q).trans hq, fun q hq => .inl hq⟩)
  rw [halloc]
  have hnewout : new ∉ words (A ++ c :: B) ++ ps := fun hc => by
    obtain ⟨nd, hnd⟩ := hup0.loaded new hc
    rw [hnew] at hnd
    cases hnd
  have hload_ne : ∀ q nd, s.load q = some nd → q ≠ new := fun q nd hq hc => by
    rw [hc, hnew] at hq
    cases hq
  have hframe1 : Frame s s1 ps ps :=
    ⟨fun q nd _ hq => (hs1 q (hload_ne q nd hq)).trans hq, fun q hq => .inl hq⟩
  have hrow1 := hrow.frame hframe1 hup.nodup
  have hup1 : Up s1 d (entries A ++ c.ent :: entries B) (Big (A ++ c :: B)) ps := by
    rw [← entries_append_cons]
    exact hup.congr (fun p hp => hs1 p fun hc => hnewout (mem_append_right _ (hc ▸ hp))) hn1 hh1
  have hkey1 := hrow1.keyIs_half hslots h1
  have hroot : d = 0 → RootKey s1 (entries A ++ c.ent :: entries B) := by
    rintro rfl
    rw [← append_assoc] at hslots
    exact hplace.rootKey hrow1 hslots hn1
  have hcall := hins (x := (upperHalf c m l₁ new).ent) hup1
    (fresh_upperHalf hrow hup hslots (ne_zero_of_load hnew1)) hkey1 (by omega) hroot
    (show level + 1 = s1.height + 1 - d by omega)
  refine Ends.bind hcall ?_
  intro ⟨s2, err⟩ hr
  dsimp only
  have hnewps : new ∉ ps := fun hc => hnewout (mem_append_right _ hc)
  rcases hr with ⟨rfl, d', ps2, hd', hh2, hup2, hframe2⟩ | ⟨rfl, hh2, hup2, hframe2⟩
  · -- the second turn
    rw [if_neg (by decide)]
    have hrow2 := hrow1.frame hframe2 hup2.nodup
    have hnew2 := hframe2.keep new _ hnewps hnew1
    have hnewout2 : new ∉ words (A ++ c :: B) ++ ps2 := by
      rw [mem_append, not_or]
      exact ⟨fun hc => hnewout (mem_append_left _ hc), hframe2.notMem hnewps hnew1⟩
    obtain ⟨s3, hsplit, hrow3, hup3, hframe3, hn3, hh3⟩ :=
      splitNode_spec hrow2 hslots h1 h2 hnewout2 hnew2 hup2
    refine .bind_eq hsplit ?_
    have hframe : Frame s s3 ws
        (words (A ++ upperHalf c m l₁ new :: lowerHalf c m (l₂ ++ [z]) :: B) ++ ps2) := by
      have hf1 : Frame s s1 ws (new :: ws) := by
        refine ⟨fun q nd _ hq => (hs1 q (hload_ne q nd hq)).trans hq, fun q hq => ?_⟩
        rcases mem_cons.1 hq with rfl | hq
        · exact .inr hnew
        · exact .inl hq
      refine (hf1.trans (hframe2.wider (new :: words (A ++ c :: B)))).trans
        (hframe3.mono (by simp) fun q hq => .inl ?_)
      rw [words_append_cons] at hq ⊢
      simp only [mem_cons, mem_append, map_cons] at hq ⊢
      tauto
    have hfill3 : Filled s3 (A ++ upperHalf c m l₁ new :: lowerHalf c m (l₂ ++ [z]) :: B) := by
      refine forall_mid (forall_mid (fun c' hc' hnil => ?_) (by simp)) (by simp)
      have hone := hfill c' (mem_mid_of_mem hc') hnil
      rcases hplace with ⟨_, rfl, rfl, _⟩ | ⟨hne, _⟩
      · simp at hc'
      · omega
    obtain ⟨s4, hrun, hup4, hframe4, hh4⟩ := btreeInsertLevel_room fuel hrow3 hfill3
      ((flat_halves hslots).trans hE) hx hup3 (by omega) (show level = s3.height - d' by omega)
      (hkey.frame hframe) fun A' c' B' hR hA' hB' => room_halves hplace hx.le htop (by omega)
      (by omega) hR hA' hB'
    refine ⟨(s4, 0), hrun, .inl ⟨rfl, d' + 1, _, succ_le_succ hd', ?_, hup4, hframe.trans hframe4⟩⟩
    show s4.height + (d + 1) = s.height + (d' + 1)
    omega
  · -- no memory further up
    rw [if_pos (by decide)]
    refine .ret (.inr ⟨rfl, ?_, ?_, ?_⟩)
    · exact hh2.trans hh1
    · have hrow2 : IsRow (s2.free new) Q (A ++ c :: B) ps :=
        (hrow1.frame hframe2 hup2.nodup).congr fun p hp =>
        load_free_ne fun hc => hnewout (mem_append_left _ (hc ▸ hp))
      refine hE ▸ ⟨_, ps, rfl, rfl, hrow2, fun c' hc' hnil => (hh2.trans hh1).trans
        (hfill c' hc' hnil), ?_⟩
      rw [entries_append_cons]
      exact hup2.congr (fun p hp => load_free_ne fun hc => hnewps (hc ▸ hp)) rfl rfl
    · refine ⟨fun q nd hq hnd => ?_, fun q hq => .inl hq⟩
      have hqn := hload_ne q nd hnd
      have hqps : q ∉ ps := fun hc => hq (mem_append_right _ hc)
      exact (load_free_ne hqn).trans (hframe2.keep q nd hqps ((hs1 q hqn).trans hnd))

/-! ### The whole of it -/

theorem btreeInsertLevel_spec : ∀ (d : Nat) {fuel : Nat}, d + 1 ≤ fuel →
    InsertSpec (g := g) (btreeInsertLevel fuel) d
  | 0, fuel + 1, _ => by
    intro s Q ps a b x key level hup hx hkey _ hroot hlevel
    exact btreeInsertLevel_root hup hx hkey (hroot rfl) hlevel
  | d + 1, fuel + 2, hfuel => by
    intro s Q ps a b x key level hup hx hkey hd _ hlevel
    obtain ⟨R, ps', hE, rfl, hrow, hfill, hupR⟩ := hup
    have hkey' : KeyIs s key x.lo ps' := hkey.mono fun p hp => mem_append_right _ hp
    obtain ⟨s1, A, c, B, u, v, rfl, hfind, hslots, rfl, rfl, hA, hB, hrow1, hup1,
        hframe, hn1, hh1⟩ :=
      findLevel_fresh hrow hE.symm hx hupR (by omega) (show level = s.height - d by omega) hkey'
    have hframe' := hframe.wider (words (A ++ c :: B))
    have hkey1 := hkey.frame hframe'
    have hfill1 : Filled s1 (A ++ c :: B) := fun c' hc' hnil => hh1.trans (hfill c' hc' hnil)
    rw [btreeInsertLevel_succ hx.ne (by omega), hfind, bind_eq_bind, bind_some]
    by_cases hroom : c.slots.length < g.noPairs
    · obtain ⟨s2, hrun, hup2, hframe2, hh2⟩ := insertInto_room (fuel + 1) level hrow1 hfill1 hslots
        hroom hx hB hkey1 hup1
      refine ⟨(s2, 0), hrun, .inl ⟨rfl, d + 1, _, le_refl _, ?_, hup2, hframe'.trans hframe2⟩⟩
      show s2.height + (d + 1) = s.height + (d + 1)
      omega
    have hfull : c.slots.length = g.noPairs := le_antisymm hrow1.mid.room (not_lt.1 hroom)
    obtain ⟨l₁, m, l₂, z, hhalves, h1, h2⟩ := exists_halves hfull
    have hlow : (c.ent.widen x.lo x.top).low ≤ x.low := by
      rw [Ent.low_widen]
      exact min_le_right ..
    obtain ⟨e, hew, het, hup2, hrow2, hplace⟩ := hup1.rekey_root hrow1
      (hhalves.trans (append_assoc (l₁ ++ [m]) l₂ [z]).symm) hlow
    have hwords : words (A ++ ⟨e, c.slots⟩ :: B) = words (A ++ c :: B) := by
      rw [words_append_cons, words_append_cons, show Child.word ⟨e, c.slots⟩ = c.word from hew]
    have hflat : flat (A ++ ⟨e, c.slots⟩ :: B) = flat A ++ u ++ (v ++ flat B) := by
      rw [flat_append_cons, hslots]
      simp
    have hsplit := splitAndRetry_spec
      (btreeInsertLevel_spec d (show d + 1 ≤ fuel + 1 by omega)) hrow2
      (hfill1.replace rfl (hfill1 c mem_append_cons_self)) hhalves h1 h2 hflat hx hplace
      (het ▸ le_max_right ..) (hup2.mono fun y _ hbig => hbig.replace hew (le_refl _))
      (show d < s1.height by omega) (show level = s1.height - d by omega) (hwords ▸ hkey1)
    rw [hwords, show Child.word ⟨e, c.slots⟩ = c.word from hew] at hsplit
    have hload : s1.load c.word = some (ofPairs ((u ++ v).map Ent.pair)) := hslots ▸ hrow1.mid.load
    have hword : ∀ y ∈ u ++ v, y.word ≠ 0 := hslots ▸ hrow1.sorted_slots.ne
    rw [hslots] at hfull
    rw [insertInto_eq hload (le_of_eq hfull)
      (fun y hy => lt_of_le_of_lt hx.le (hx.before y (mem_append_right _ hy)))
      (fun y hy => hx.after y (mem_append_left _ hy)) hword hkey1.eq, if_pos hfull, hfull]
    exact hsplit.mono fun r hr => hr.of_frame hframe' hh1

end SilanKernel.Btree
