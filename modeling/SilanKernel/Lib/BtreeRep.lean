import SilanKernel.Data.NearEnds
import SilanKernel.Lib.BtreeNode
import Mathlib.Data.List.Nodup

/-!
# SilanKernel.Lib.BtreeRep

What a B+tree of `lib/btree.c` looks like while it is worked on.

The functions go down from the root to one level, and then upwards again, one level at a time.
So the tree is described from a level upwards: `Up s d E Q ps` says that the pairs `E` stand
side by side `d` levels under the root, in nodes that are linked to the root by the nodes `ps`.

Each pair has a range, from its key to a number `top` that is kept nowhere. All that is under a
pair lies in its range, and the ranges of a row are apart. The key may be less than the keys under
it, as a removal leaves the keys above alone.

A node that has lost pairs may be left with one, or with none. It is found again only through a
neighbour that can be merged, so the nodes with at least two pairs (`Big`) must not be far from the
ends of the node above them. `Q` says which of the pairs `E` lead to such nodes.
-/

namespace SilanKernel.Btree

open List

theorem Geo.two_le_half (g : Geo) : 2 ≤ g.noPairs / 2 := by
  have := g.room
  omega

/-! ### Rows of pairs -/

/-- A pair of a node with the range of the keys under it. -/
structure Ent (n : Nat) where
  lo : Key n
  top : Nat
  word : Word

namespace Ent

def low (e : Ent n) : Nat := num e.lo

def pair (e : Ent n) : Key n × Word := (e.lo, e.word)

/-- The pair with a range that has `k` and `t` in it. -/
def widen (e : Ent n) (k : Key n) (t : Nat) : Ent n :=
  ⟨if num k < e.low then k else e.lo, max e.top t, e.word⟩

section

variable (e : Ent n) (k : Key n) (t : Nat)

include e k t

theorem low_widen : (e.widen k t).low = min e.low (num k) := by
  unfold widen low
  split
  case isTrue h => exact (Nat.min_eq_right (Nat.le_of_lt h)).symm
  case isFalse h => exact (Nat.min_eq_left (Nat.not_lt.1 h)).symm

theorem top_widen : (e.widen k t).top = max e.top t := rfl

theorem word_widen : (e.widen k t).word = e.word := rfl

end

theorem pair_widen {e : Ent n} {k : Key n} (t : Nat) (h : e.low ≤ num k) :
    (e.widen k t).pair = e.pair := by
  unfold widen pair
  rw [if_neg (Nat.not_lt.2 h)]

theorem widen_of_le {e : Ent n} {k : Key n} {t : Nat} (hk : e.low ≤ num k) (ht : t ≤ e.top) :
    e.widen k t = e := by
  unfold widen
  rw [if_neg (Nat.not_lt.2 hk), Nat.max_eq_left ht]

end Ent

variable {a b E : List (Ent n)} {e x : Ent n}

/-- The ranges fall from left to right. -/
structure Sorted (E : List (Ent n)) : Prop where
  falling : E.Pairwise fun x y => y.top < x.low
  le : ∀ x ∈ E, x.low ≤ x.top
  ne : ∀ x ∈ E, x.word ≠ 0

namespace Sorted

theorem nil : Sorted ([] : List (Ent n)) := ⟨.nil, nofun, nofun⟩

theorem sublist (h : Sorted E) (hs : List.Sublist a E) : Sorted a :=
  ⟨h.falling.sublist hs, fun x hx => h.le x (hs.subset hx), fun x hx => h.ne x (hs.subset hx)⟩

/-- A pair in a row. -/
theorem append_cons_iff : Sorted (a ++ e :: b) ↔
    Sorted (a ++ b) ∧ (∀ x ∈ a, e.top < x.low) ∧ (∀ x ∈ b, x.top < e.low) ∧ e.low ≤ e.top ∧
    e.word ≠ 0 := by
  constructor
  · intro h
    have hf := pairwise_append.1 h.falling
    have he : e ∈ a ++ e :: b := mem_append_cons_self
    exact ⟨h.sublist ((sublist_cons_self e b).append_left a), fun x hx => hf.2.2 x hx e
      (mem_cons_self ..), (pairwise_cons.1 hf.2.1).1, h.le e he, h.ne e he⟩
  · intro ⟨h, ha, hb, hle, hne⟩
    have hf := pairwise_append.1 h.falling
    refine ⟨pairwise_append.2 ⟨hf.1, pairwise_cons.2 ⟨hb, hf.2.1⟩, fun x hx y hy => ?_⟩,
      forall_mid h.le hle, forall_mid h.ne hne⟩
    rcases mem_cons.1 hy with rfl | hy
    · exact ha x hx
    · exact hf.2.2 x hx y hy

theorem singleton (hle : e.low ≤ e.top) (hne : e.word ≠ 0) : Sorted [e] :=
  (append_cons_iff (a := [])).2 ⟨nil, nofun, nofun, hle, hne⟩

theorem lt_of_append (h : Sorted (a ++ b)) (hx : x ∈ a) (hy : y ∈ b) : y.top < x.low :=
  (pairwise_append.1 h.falling).2.2 x hx y hy

theorem low_lt (h : Sorted (a ++ e :: b)) (hx : x ∈ b) : x.low < e.low :=
  Nat.lt_of_le_of_lt (h.le x (mem_mid_right hx)) ((append_cons_iff.1 h).2.2.1 x hx)

/-- The pairs above a number, and the others. -/
theorem split : ∀ {E : List (Ent n)}, Sorted E → ∀ k, ∃ u v, E = u ++ v ∧ (∀ x ∈ u, k < x.low) ∧
    ∀ x ∈ v, x.low ≤ k
  | [], _, _ => ⟨[], [], rfl, nofun, nofun⟩
  | e :: E, h, k => by
    by_cases hk : k < e.low
    · obtain ⟨u, v, rfl, hu, hv⟩ := (h.sublist (sublist_cons_self e E)).split k
      exact ⟨e :: u, v, rfl, forall_mem_cons.2 ⟨hk, hu⟩, hv⟩
    · refine ⟨[], e :: E, rfl, nofun, forall_mem_cons.2 ⟨Nat.not_lt.1 hk, fun x hx => ?_⟩⟩
      have hlt := (pairwise_cons.1 h.falling).1 x hx
      have hle := h.le x (mem_cons_of_mem e hx)
      omega

end Sorted

/-! ### Rows of nodes -/

/-- A node with the pair that leads to it and its own pairs. -/
structure Child (n : Nat) where
  ent : Ent n
  slots : List (Ent n)

abbrev Child.word (c : Child n) : Word := c.ent.word

abbrev entries (R : List (Child n)) : List (Ent n) := R.map Child.ent

abbrev words (R : List (Child n)) : List Word := R.map Child.word

abbrev flat (R : List (Child n)) : List (Ent n) := R.flatMap Child.slots

/-- The node has at least two pairs. -/
def Big (R : List (Child n)) (w : Word) : Prop := ∃ c ∈ R, c.word = w ∧ 2 ≤ c.slots.length

variable {A B R : List (Child n)} {c : Child n}

theorem exists_of_mem_entries (hy : y ∈ entries A ∨ y ∈ entries B) : ∃ c ∈ A ++ B, c.ent = y :=
  mem_map.1 (map_append ▸ mem_append.2 hy)

theorem Big.mono (h : Big A w) (hs : ∀ c ∈ A, c ∈ B) : Big B w := by
  obtain ⟨c, hc, hcw⟩ := h
  exact ⟨c, hs c hc, hcw⟩

theorem big_mid : Big (A ++ c :: B) w ↔ Big (A ++ B) w ∨ c.word = w ∧ 2 ≤ c.slots.length := by
  constructor
  · rintro ⟨x, hx, hw⟩
    rcases mem_mid.1 hx with hx | rfl | hx
    · exact .inl ⟨x, mem_append_left _ hx, hw⟩
    · exact .inr hw
    · exact .inl ⟨x, mem_append_right _ hx, hw⟩
  · rintro (h | h)
    · exact h.mono fun _ => mem_mid_of_mem
    · exact ⟨c, mem_append_cons_self, h⟩

theorem flat_append_cons : flat (A ++ c :: B) = flat A ++ c.slots ++ flat B := by
  rw [flat, flatMap_append, flatMap_cons, append_assoc]

theorem entries_append_cons : entries (A ++ c :: B) = entries A ++ c.ent :: entries B := by
  rw [entries, map_append, map_cons]

theorem words_append_cons : words (A ++ c :: B) = words A ++ c.word :: words B := by
  rw [words, map_append, map_cons]

theorem words_append : words (A ++ B) = words A ++ words B := map_append

theorem mem_flat (hc : c ∈ R) (hx : x ∈ c.slots) : x ∈ flat R := mem_flatMap.2 ⟨c, hc, hx⟩

theorem exists_of_entries_eq (h : entries R = a ++ e :: b) :
    ∃ A c B, R = A ++ c :: B ∧ entries A = a ∧ c.ent = e ∧ entries B = b := by
  obtain ⟨A, R', rfl, hA, hR'⟩ := map_eq_append_iff.1 h
  obtain ⟨c, B, rfl, hc, hB⟩ := map_eq_cons_iff.1 hR'
  exact ⟨A, c, B, rfl, hA, hc, hB⟩

variable {g : Geo} {s s' s'' : Head g} {Q Q' : Word → Prop} {ps ps' ps'' : List Word} {d : Nat}
  {c : Child g.keylen} {R : List (Child g.keylen)}

structure ChildOk (s : Head g) (Q : Word → Prop) (c : Child g.keylen) : Prop where
  load : s.load c.word = some (ofPairs (c.slots.map Ent.pair))
  room : c.slots.length ≤ g.noPairs
  inside : ∀ x ∈ c.slots, c.ent.low ≤ x.low ∧ x.top ≤ c.ent.top
  near : NearEnds (g.noPairs / 2) Q (c.slots.map Ent.word)

/-- The nodes `R`, with the nodes `ps` above them. -/
structure IsRow (s : Head g) (Q : Word → Prop) (R : List (Child g.keylen))
    (ps : List Word) : Prop where
  nodup : (words R ++ ps).Nodup
  sorted : Sorted (flat R)
  child : ∀ c ∈ R, ChildOk s Q c

/-- Only the root of a tree of one level is empty. -/
def Filled (s : Head g) (R : List (Child g.keylen)) : Prop := ∀ c ∈ R, c.slots = [] → s.height = 1

/-- The pairs `E`, `d` levels under the root, with the nodes `ps` above them. -/
def Up (s : Head g) : Nat → List (Ent g.keylen) → (Word → Prop) → List Word → Prop
  | 0, E, Q, ps =>
    ps = [] ∧ ∃ e, E = [e] ∧ e.word = s.node ∧ s.node ≠ 0 ∧ e.low ≤ e.top ∧
      (s.height = 1 ∨ Q s.node)
  | d + 1, E, Q, ps => ∃ R ps', E = flat R ∧ ps = words R ++ ps' ∧ IsRow s Q R ps' ∧ Filled s R ∧
      Up s d (entries R) (Big R) ps'

theorem ChildOk.mono (h : ChildOk s Q c) (hQ : ∀ x ∈ c.slots, Q x.word → Q' x.word) :
    ChildOk s Q' c := by
  refine ⟨h.load, h.room, h.inside, h.near.mono fun w hw hq => ?_⟩
  obtain ⟨x, hx, rfl⟩ := mem_map.1 hw
  exact hQ x hx hq

theorem ChildOk.congr (h : ChildOk s Q c) (hs : s'.load c.word = s.load c.word) : ChildOk s' Q c :=
  ⟨hs.trans h.load, h.room, h.inside, h.near⟩

theorem IsRow.congr (h : IsRow s Q R ps) (hs : ∀ p ∈ words R, s'.load p = s.load p) :
    IsRow s' Q R ps :=
  ⟨h.nodup, h.sorted, fun c hc => (h.child c hc).congr (hs _ (mem_map_of_mem hc))⟩

theorem IsRow.mono (h : IsRow s Q R ps) (hQ : ∀ x ∈ flat R, Q x.word → Q' x.word) :
    IsRow s Q' R ps :=
  ⟨h.nodup, h.sorted, fun c hc => (h.child c hc).mono fun x hx => hQ x (mem_flat hc hx)⟩

namespace Up

variable {E : List (Ent g.keylen)}

theorem sorted (h : Up s d E Q ps) : Sorted E := by
  cases d with
  | zero =>
    obtain ⟨_, e, rfl, hw, hne, hle, _⟩ := h
    exact .singleton hle (hw ▸ hne)
  | succ d =>
    obtain ⟨R, ps', rfl, _, hrow, _⟩ := h
    exact hrow.sorted

theorem nodup (h : Up s d E Q ps) : ps.Nodup := by
  cases d with
  | zero => exact h.1 ▸ nodup_nil
  | succ d =>
    obtain ⟨R, ps', _, rfl, hrow, _⟩ := h
    exact hrow.nodup

theorem mono (h : Up s d E Q ps) (hQ : ∀ x ∈ E, Q x.word → Q' x.word) : Up s d E Q' ps := by
  cases d with
  | zero =>
    obtain ⟨hps, e, rfl, hw, hne, hle, hq⟩ := h
    exact ⟨hps, e, rfl, hw, hne, hle, hq.imp_right fun hq => hw ▸
      hQ e (mem_singleton_self e) (hw ▸ hq)⟩
  | succ d =>
    obtain ⟨R, ps', rfl, hps, hrow, hup⟩ := h
    exact ⟨R, ps', rfl, hps, hrow.mono hQ, hup⟩

/-- The root is alone on its level. -/
theorem root {A B : List (Child g.keylen)} (h : Up s 0 (entries (A ++ c :: B)) Q ps) :
    ps = [] ∧ A = [] ∧ B = [] ∧ c.word = s.node ∧ s.node ≠ 0 ∧ c.ent.low ≤ c.ent.top ∧
      (s.height = 1 ∨ Q s.node) := by
  obtain ⟨hps, e, hE, hw, hne, hle, hq⟩ := h
  obtain ⟨A', c', B', hR, hA, rfl, hB⟩ := exists_of_entries_eq (a := []) (b := []) hE
  obtain rfl : A' = [] := map_eq_nil_iff.1 hA
  obtain rfl : B' = [] := map_eq_nil_iff.1 hB
  obtain ⟨rfl, rfl, rfl⟩ : A = [] ∧ c = c' ∧ B = [] := by
    cases A with
    | nil => simpa using hR
    | cons _ A => simp at hR
  exact ⟨hps, rfl, rfl, hw, hne, hle, hq⟩

/-- Only the nodes above, the root and the height are read. -/
theorem congr : ∀ {d : Nat} {E : List (Ent g.keylen)} {Q : Word → Prop} {ps : List Word},
    Up s d E Q ps → (∀ p ∈ ps, s'.load p = s.load p) → s'.node = s.node → s'.height = s.height →
    Up s' d E Q ps
  | 0, E, Q, ps, ⟨hps, e, hE, hw, hne, hle, hq⟩, _, hn, hh =>
    ⟨hps, e, hE, hw.trans hn.symm, hn ▸ hne, hle, by rwa [hh, hn]⟩
  | d + 1, E, Q, ps, ⟨R, ps', hE, hps, hrow, hfill, hup⟩, hs, hn, hh => by
    subst hps
    refine ⟨R, ps', hE, rfl, hrow.congr fun p hp => hs p (mem_append_left _ hp), ?_, ?_⟩
    · intro c hc hnil
      exact hh.trans (hfill c hc hnil)
    · exact hup.congr (fun p hp => hs p (mem_append_right _ hp)) hn hh

/-- The nodes above are there. -/
theorem loaded : ∀ {d : Nat} {E : List (Ent g.keylen)} {Q : Word → Prop} {ps : List Word},
    Up s d E Q ps → ∀ p ∈ ps, ∃ nd, s.load p = some nd
  | 0, _, _, _, ⟨hps, _⟩, p, hp => by simp [hps] at hp
  | d + 1, _, _, _, ⟨R, ps', _, hps, hrow, _, hup⟩, p, hp => by
    subst hps
    rcases mem_append.1 hp with hp | hp
    · obtain ⟨c, hc, rfl⟩ := mem_map.1 hp
      exact ⟨_, (hrow.child c hc).load⟩
    · exact hup.loaded p hp

end Up

/-! ### Memory -/

namespace Head

variable {p q : Word} {nd nd' : Node g.keylen}

theorem load_store_self (h : s.load p = some nd') : (s.store p nd).load p = some nd := by
  unfold load store at *
  dsimp only
  split at h
  case isTrue => exact absurd h nofun
  case isFalse hp => rw [if_neg hp, Function.update_self]

theorem load_store_ne (h : q ≠ p) : (s.store p nd).load q = s.load q := by
  unfold load store
  dsimp only
  rw [Function.update_of_ne h]

theorem load_free_ne (h : q ≠ p) : (s.free p).load q = s.load q := by
  simp [load, free, h]

theorem keyAt_slot (i : Nat) : s.keyAt (.slot p i) =
    s.load p >>= fun nd => if i < g.noPairs then some (nd.key i) else none := rfl

theorem ne_zero_of_load (h : s.load p = some nd) : p ≠ 0 := by
  rintro rfl
  rw [load, if_pos (.inl rfl)] at h
  cases h

end Head

theorem btreeNodeAlloc_cases (s : Head g) :
    (∃ s', btreeNodeAlloc s = (s', none) ∧ (∀ q, s'.load q = s.load q) ∧ s'.node = s.node ∧
      s'.height = s.height) ∨
    ∃ s' p, btreeNodeAlloc s = (s', some p) ∧ s.load p = none ∧ s'.load p = some .zero ∧
      (∀ q, q ≠ p → s'.load q = s.load q) ∧ s'.node = s.node ∧ s'.height = s.height := by
  unfold btreeNodeAlloc
  cases hpool : s.pool with
  | nil => exact .inl ⟨s, rfl, fun _ => rfl, rfl, rfl⟩
  | cons p pool =>
    dsimp only
    by_cases hp : p = 0 ∨ s.live p
    · rw [if_pos hp]
      exact .inl ⟨_, rfl, fun _ => rfl, rfl, rfl⟩
    rw [if_neg hp]
    push Not at hp
    refine .inr ⟨_, p, rfl, ?_, ?_, ?_, rfl, rfl⟩
    · rw [Head.load, if_pos (.inr (by simpa using hp.2))]
    · simpa [Head.load, Head.store] using hp.1
    · intro q hq
      simp [Head.load, Head.store, hq]

/-- A call that works on the nodes `ps` and leaves it with `ps'`. -/
structure Frame (s s' : Head g) (ps ps' : List Word) : Prop where
  keep : ∀ p nd, p ∉ ps → s.load p = some nd → s'.load p = some nd
  fresh : ∀ p ∈ ps', p ∈ ps ∨ s.load p = none

namespace Frame

theorem refl (s : Head g) (ps : List Word) : Frame s s ps ps :=
  ⟨fun _ _ _ h => h, fun _ h => .inl h⟩

section

variable (h : Frame s s' ps ps') {nd : Node g.keylen} {p : Word}

include h

theorem trans (h' : Frame s' s'' ps' ps'') : Frame s s'' ps ps'' := by
  have hout : ∀ p nd, p ∉ ps → s.load p = some nd → p ∉ ps' := by
    intro p nd hp hnd hp'
    rcases h.fresh p hp' with hc | hc
    · exact hp hc
    · rw [hnd] at hc
      cases hc
  refine ⟨fun p nd hp hnd => h'.keep p nd (hout p nd hp hnd) (h.keep p nd hp hnd), fun p hp => ?_⟩
  rcases h'.fresh p hp with hp' | hp'
  · exact h.fresh p hp'
  by_cases hps : p ∈ ps
  · exact .inl hps
  cases hnd : s.load p with
  | none => exact .inr rfl
  | some nd =>
    rw [h.keep p nd hps hnd] at hp'
    cases hp'

theorem mono (hs : ∀ p ∈ ps, p ∈ qs) (hs' : ∀ p ∈ qs', p ∈ qs ∨ p ∈ ps') : Frame s s' qs qs' := by
  refine ⟨fun p nd hp => h.keep p nd fun hc => hp (hs p hc), fun p hp => ?_⟩
  rcases hs' p hp with hp | hp
  · exact .inl hp
  · exact (h.fresh p hp).imp_left (hs p)

theorem notMem (hp : p ∉ ps) (hnd : s.load p = some nd) : p ∉ ps' := by
  intro hc
  rcases h.fresh p hc with hc | hc
  · exact hp hc
  · rw [hnd] at hc
    cases hc

/-- The call may work on more nodes. -/
theorem wider (qs : List Word) : Frame s s' (qs ++ ps) (qs ++ ps') :=
  h.mono (fun _ => mem_append_right qs) fun _ hp => (mem_append.1 hp).imp_left (mem_append_left ps)

end

theorem of_store (hp : p ∈ ps) : Frame s (s.store p nd) ps ps := by
  refine ⟨fun q nd' hq h => ?_, fun _ h => .inl h⟩
  have hqp : q ≠ p := fun hc => hq (hc ▸ hp)
  rwa [Head.load_store_ne hqp]

theorem of_free (hp : p ∈ ps) : Frame s (s.free p) ps ps := by
  refine ⟨fun q nd' hq h => ?_, fun _ h => .inl h⟩
  have hqp : q ≠ p := fun hc => hq (hc ▸ hp)
  rwa [Head.load_free_ne hqp]

end Frame

/-- The key behind a pointer that does not lead into the nodes `ps`. -/
structure KeyIs (s : Head g) (key : KeyPtr g.keylen) (k : Key g.keylen)
    (ps : List Word) : Prop where
  eq : s.keyAt key = some k
  out : ∀ p i, key = .slot p i → p ∉ ps

namespace KeyIs

variable {key : KeyPtr g.keylen} {k : Key g.keylen}

theorem arg : KeyIs s (.arg k) k ps := ⟨rfl, nofun⟩

theorem slot (hnd : s.load p = some nd) (hi : i < g.noPairs) (hp : p ∉ ps) :
    KeyIs s (.slot p i) (nd.key i) ps := by
  refine ⟨?_, ?_⟩
  · rw [Head.keyAt_slot, hnd]
    exact if_pos hi
  · intro q j h
    cases h
    exact hp

theorem loaded (h : KeyIs s (.slot p i) k ps) : ∃ nd, s.load p = some nd := by
  have heq := h.eq
  rw [Head.keyAt_slot] at heq
  cases hnd : s.load p with
  | none => rw [hnd] at heq; cases heq
  | some nd => exact ⟨nd, rfl⟩

theorem frame (h : KeyIs s key k ps) (hf : Frame s s' ps ps') : KeyIs s' key k ps' := by
  cases key with
  | arg key => exact ⟨h.eq, nofun⟩
  | slot p i =>
    obtain ⟨nd, hnd⟩ := h.loaded
    have hp : p ∉ ps := h.out p i rfl
    refine ⟨?_, fun q j hq => ?_⟩
    · have heq := h.eq
      rw [Head.keyAt_slot] at heq ⊢
      rw [hf.keep p nd hp hnd]
      rwa [hnd] at heq
    · cases hq
      exact hf.notMem hp hnd

theorem mono (h : KeyIs s key k ps) (hs : ∀ p ∈ ps', p ∈ ps) : KeyIs s key k ps' :=
  ⟨h.eq, fun p i hp hc => h.out p i hp (hs p hc)⟩

end KeyIs

/-! ### Changing one node of a row -/

namespace IsRow

variable {A B : List (Child g.keylen)} {c c' : Child g.keylen}

section

variable (h : IsRow s Q (A ++ c :: B) ps)

include h

theorem sorted_slots : Sorted c.slots := by
  refine h.sorted.sublist ?_
  rw [flat_append_cons]
  exact (sublist_append_right _ _).trans (sublist_append_left _ _)

theorem mid : ChildOk s Q c :=
  h.child c mem_append_cons_self

theorem notMem : c.word ∉ words A ∧ c.word ∉ words B ∧ c.word ∉ ps := by
  have hn := h.nodup
  rw [words_append_cons, append_assoc, cons_append, nodup_middle, nodup_cons,
    mem_append, mem_append, not_or, not_or] at hn
  exact hn.1

theorem word_ne (hc' : c' ∈ A ++ B) : c'.word ≠ c.word := by
  intro heq
  rcases mem_append.1 hc' with hc' | hc'
  · exact h.notMem.1 (heq ▸ mem_map_of_mem hc')
  · exact h.notMem.2.1 (heq ▸ mem_map_of_mem hc')

theorem drop : IsRow s Q (A ++ B) ps := by
  refine ⟨h.nodup.sublist ?_, h.sorted.sublist ?_, fun c' hc' => h.child c' ?_⟩
  · exact (((sublist_cons_self c B).append_left A).map Child.word).append_right ps
  · rw [flat_append_cons, flat, flatMap_append]
    exact (sublist_append_left _ _).append_right _
  · exact ((sublist_cons_self c B).append_left A).subset hc'

end

/-- A call that works on the nodes above leaves the row alone. -/
theorem frame (h : IsRow s Q R ps) (hf : Frame s s' ps ps') (hn : ps'.Nodup) :
    IsRow s' Q R ps' := by
  have hout : ∀ c ∈ R, c.word ∉ ps := fun c hc hp =>
    (nodup_append.1 h.nodup).2.2 _ (mem_map_of_mem hc) _ hp rfl
  refine ⟨nodup_append.2 ⟨(nodup_append.1 h.nodup).1, hn, ?_⟩, h.sorted, fun c hc => ?_⟩
  · intro w hw p hp heq
    obtain ⟨c, hc, rfl⟩ := mem_map.1 hw
    exact hf.notMem (hout c hc) (h.child c hc).load (heq ▸ hp)
  · have hload := (h.child c hc).load
    exact (h.child c hc).congr ((hf.keep _ _ (hout c hc) hload).trans hload.symm)

/-- The node becomes another one at the same place. -/
theorem replace (h : IsRow s Q (A ++ c :: B) ps) (hw : c'.word = c.word) (hc : ChildOk s' Q c')
    (hsorted : Sorted (flat A ++ c'.slots ++ flat B))
    (hs : ∀ q, q ≠ c.word → s'.load q = s.load q) :
    IsRow s' Q (A ++ c' :: B) ps := by
  refine ⟨?_, by rwa [flat_append_cons], ?_⟩
  · have hn := h.nodup
    rwa [words_append_cons, ← hw, ← words_append_cons] at hn
  · exact forall_mid (fun x hx => (h.child x (mem_mid_of_mem hx)).congr (hs _ (h.word_ne hx))) hc

/-- The pair that leads to a node gets another range. -/
theorem rekey {e : Ent g.keylen} (h : IsRow s Q (A ++ c :: B) ps) (hw : e.word = c.word)
    (hin : ∀ y ∈ c.slots, e.low ≤ y.low ∧ y.top ≤ e.top) :
    IsRow s Q (A ++ ⟨e, c.slots⟩ :: B) ps := by
  have hsorted := h.sorted
  rw [flat_append_cons] at hsorted
  exact h.replace hw ⟨(congrArg s.load hw).trans h.mid.load, h.mid.room, hin, h.mid.near⟩ hsorted
    fun _ _ => rfl

end IsRow

theorem Filled.replace {A B : List (Child g.keylen)} {c' : Child g.keylen}
    (h : Filled s (A ++ c :: B)) (hh : s'.height = s.height) (hc : c'.slots = [] → s.height = 1) :
    Filled s' (A ++ c' :: B) := by
  refine forall_mid (fun x hx hnil => ?_) fun hnil => hh.trans (hc hnil)
  exact hh.trans (h x (mem_mid_of_mem hx) hnil)

/-- No node of a row becomes smaller. -/
theorem Big.replace {A B : List (Child n)} {c c' : Child n} {w : Word} (h : Big (A ++ c :: B) w)
    (hw : c'.word = c.word) (hc : c.slots.length ≤ c'.slots.length) : Big (A ++ c' :: B) w := by
  rw [big_mid] at h ⊢
  exact h.imp_right fun h => ⟨hw.trans h.1, Nat.le_trans h.2 hc⟩

end SilanKernel.Btree
