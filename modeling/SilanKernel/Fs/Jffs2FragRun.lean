import SilanKernel.Fs.Jffs2FragAdd

/-!
# SilanKernel.Fs.Jffs2FragRun

**A fragment tree is a function** from file offsets to data nodes or holes.

Nodes are added and the file is truncated in any order, with allocations that may fail. A node
is handed in with its record; it must not have fragments already, since its count is set to 1.
A call that gets its first fragment and is refused the second leaves a node that counts a
fragment it does not have; along runs without such calls (`Call.Granted`) every count is right.
-/

namespace SilanKernel.Jffs2

open Rbtree Pieces

inductive Call
  | add (fn : Ptr) (node : FullDnode) (answer answer' : Option Ptr)
  | truncate (size : BitVec 32)

/-- What a call returns: an error code, or a size. -/
inductive Ret
  | code (ret : Int)
  | size (size : BitVec 32)

def fragStep (s : Inode) : Call → Option (Inode × Ret)
  | .add fn node answer answer' => do
    let (s, ret) ← jffs2AddFullDnodeToInode (s.setDnode fn node) answer answer' fn
    some (s, .code ret)
  | .truncate size => do
    let (s, size) ← jffs2TruncateFragtree s size
    some (s, .size size)

/-- No call gets one fragment and is refused the other that it wants. -/
def Call.Granted (s : Inode) : Call → Prop
  | .add _ node answer answer' => ∀ order, RbOk (s.heap, order) →
      ¬s.Refuses order answer answer' node.ofs.toNat (node.ofs.toNat + node.size.toNat)
  | .truncate _ => True

/-- An inode without fragments. -/
def Inode.empty (mem : Ptr → RbNode) (frag : Ptr → NodeFrag) (dnode : Ptr → FullDnode)
    (live : Ptr → Bool) : Inode :=
  ⟨Heap.empty mem, frag, dnode, live⟩

/-- A file: the node at each offset, with the null pointer for a hole, and the nodes handed in. -/
structure File where
  map : Nat → Option Ptr
  known : Known

namespace File

def empty : File := ⟨fun _ => none, ⟨fun _ => False, fun _ => False, id⟩⟩

/-- The node `fn` from `ofs` to `stop`, and a hole in front of it if the file was shorter. -/
def put (m : File) (ofs stop : Nat) (fn : Ptr) : Nat → Option Ptr := fun a =>
  if ofs ≤ a ∧ a < stop then some fn
  else if a < ofs ∧ m.map a = none then some 0
  else m.map a

/-- A node may be added that has no part of the file and is not obsolete. -/
def Legal (m : File) : Call → Prop
  | .add fn node _ _ =>
    fn ≠ 0 ∧ (∀ a, m.map a ≠ some fn) ∧ node.raw ≠ .obsolete ∧
      node.ofs.toNat + node.size.toNat < 2 ^ 32
  | .truncate _ => True

/-- What the calls do to a file; `lost` allows that the count of a node is no longer known. -/
def Spec (lost : Prop) (m : File) : Call → Ret → File → Prop
  | .add fn node _ _, .code ret, m' =>
    if node.size = 0 then ret = 0 ∧ m'.map = m.map ∧ m'.known = m.known.hand fn node.frags
    else
      ret = 0 ∧ m'.map = m.put node.ofs.toNat (node.ofs.toNat + node.size.toNat) fn ∧
        m'.known = (m.known.forget fn).add fn ∨
      ret = -ENOMEM ∧ m'.map = m.map ∧
        (m'.known = m.known.hand fn node.frags ∨ lost ∧ m'.known = m.known.forget fn)
  | .truncate size, .size len, m' =>
    (m'.map = fun a => if a < size.toNat then m.map a else none) ∧ m'.known = m.known ∧
      ∀ a, m'.map a ≠ none ↔ a < len.toNat
  | _, _, _ => False

end File

/-- **The tree stands for the file**: its fragments in order are not empty, follow each other from
0 on and have the nodes of the file; the known nodes count their fragments and are obsolete just
if they have lost them all. -/
def StandsFor (s : Inode) (m : File) : Prop :=
  ∃ order hi, Good m.known s order ∧ Chain 0 (s.pieces order) hi ∧ hi < 2 ^ 32 ∧
    m.map = view (s.pieces order)

variable {lost : Prop} {s : Inode} {m : File} {order : List Ptr} {fn : Ptr} {hi : Nat}
  {node : FullDnode}

/-- A fragment's node is the node at its offset. -/
theorem view_start (hc : Chain 0 (s.pieces order) hi) (hq : q ∈ order) :
    view (s.pieces order) (s.start q) = some (s.frag q).node := by
  obtain ⟨A, B, rfl⟩ := List.append_of_mem hq
  obtain ⟨hA, hlt, hB⟩ := chain_around hc
  rw [pieces_append, pieces_cons, hA.view_append (B := s.piece q :: s.pieces B) ⟨rfl, hlt, hB⟩,
    if_neg (Nat.lt_irrefl _), view]
  exact if_pos ⟨Nat.le_refl _, hlt⟩

/-- The file with a node put in, as a piece written. -/
theorem put_eq (hmap : m.map = view (s.pieces order)) (hc : Chain 0 (s.pieces order) hi)
    (hlt : ofs < stop) :
    m.put ofs stop fn = view (write ofs stop fn (fill 0 hi ofs (s.pieces order))) := by
  funext a
  have hfill := hc.fill (v := 0) (s := ofs)
  rw [hfill.view_write (Nat.zero_le _) (Nat.le_max_right ..) hlt, hc.view_fill, File.put, hmap]
  have hgap : (a < ofs ∧ view (s.pieces order) a = none) ↔ hi ≤ a ∧ a < ofs := by
    rw [hc.view_eq_none_iff]
    omega
  simp only [hgap]

/-- A node that is handed in and has no fragment. -/
theorem Owned.hand {known : Known} (h : Owned known s order)
    (hfn : ∀ q ∈ order, (s.frag q).node ≠ fn) (h0 : fn ≠ 0) (hraw : node.raw ≠ .obsolete) :
    Owned (known.hand fn node.frags) (s.setDnode fn node) order := by
  have hkept := (h.forget hfn).setDnode (p := fn) (d := node) fun hc => hc.2 rfl
  constructor
  · rintro p (hp | ⟨rfl, hfrags⟩)
    · exact hkept.frags p hp
    · rw [setDnode_self, hfrags]
      exact (owners_eq_zero hfn).symm
  · rintro p (hp | ⟨rfl, -⟩)
    · exact hkept.mark p hp
    · rw [setDnode_self]
      exact iff_of_false hraw fun hc => hc.2.2 rfl
  · exact hkept.node
  · rintro (hc | ⟨hc, -⟩)
    · exact hkept.null hc
    · exact h0 hc.symm

theorem fragStep_add (answer answer' : Option Ptr) (hR : StandsFor s m)
    (hlegal : m.Legal (.add fn node answer answer'))
    (hlost : ¬lost → Call.Granted s (.add fn node answer answer')) :
    ∃ s' r m', fragStep s (.add fn node answer answer') = some (s', r) ∧
      m.Spec lost (.add fn node answer answer') r m' ∧ StandsFor s' m' := by
  obtain ⟨order, hi, hg, hc, hhi, hmap⟩ := hR
  obtain ⟨h0, hfree, hraw, hfit⟩ := hlegal
  have hfn : ∀ q ∈ order, (s.frag q).node ≠ fn := fun q hq hc' => by
    apply hfree (s.start q)
    rw [hmap, view_start hc hq, hc']
  have hg1 : Good (m.known.forget fn) (s.setDnode fn node) order :=
    ⟨hg.tree, hg.live, (hg.owned.forget hfn).setDnode fun hc => hc.2 rfl⟩
  have hg2 : Good (m.known.hand fn node.frags) (s.setDnode fn node) order :=
    ⟨hg.tree, hg.live, hg.owned.hand hfn h0 hraw⟩
  have hself : (s.setDnode fn node).dnode fn = node := setDnode_self
  obtain ⟨⟨s', ret⟩, hcall, hout⟩ := jffs2AddFullDnodeToInode_spec answer answer' hg1 hc hhi h0
    (fun hc => hc.2 rfl) (by rw [hself]; exact hraw) (by rw [hself]; exact hfit)
  have hstep : fragStep s (.add fn node answer answer') = some (s', .code ret) := by
    rw [fragStep, hcall]
    rfl
  rw [AddOutcome, hself] at hout
  rcases hout with ⟨hsize, hsame⟩ | ⟨hsize, hret, order', hg', hwrite⟩ | ⟨hsize, hsame⟩ |
    ⟨hsize, hret, hg', hsame, hrefuses⟩
  · obtain ⟨rfl, rfl⟩ := Prod.mk.inj hsame
    refine ⟨_, _, ⟨m.map, m.known.hand fn node.frags⟩, hstep, ?_, order, hi, hg2, hc, hhi, hmap⟩
    rw [File.Spec, if_pos hsize]
    exact ⟨rfl, rfl, rfl⟩
  · have hpos : node.size.toNat ≠ 0 := fun hc => hsize (BitVec.eq_of_toNat_eq hc)
    have hlt : node.ofs.toNat < node.ofs.toNat + node.size.toNat := by omega
    have hchain := hc.fill (v := 0) (s := node.ofs.toNat) |>.write (v := fn) (Nat.zero_le _)
      (Nat.le_max_right ..) hlt
    refine ⟨s', .code ret, ⟨m.put node.ofs.toNat (node.ofs.toNat + node.size.toNat) fn,
      (m.known.forget fn).add fn⟩, hstep, ?_, order', _, hg', hwrite ▸ hchain, ?_, ?_⟩
    · rw [File.Spec, if_neg hsize]
      exact Or.inl ⟨hret, rfl, rfl⟩
    · omega
    · rw [put_eq hmap hc hlt]
      exact congrArg view hwrite.symm
  · obtain ⟨rfl, rfl⟩ := Prod.mk.inj hsame
    refine ⟨_, _, ⟨m.map, m.known.hand fn node.frags⟩, hstep, ?_, order, hi, hg2, hc, hhi, hmap⟩
    rw [File.Spec, if_neg hsize]
    exact .inr ⟨rfl, rfl, .inl rfl⟩
  · refine ⟨s', .code ret, ⟨m.map, m.known.forget fn⟩, hstep, ?_, order, hi, hg',
      hsame ▸ hc, hhi, ?_⟩
    · rw [File.Spec, if_neg hsize]
      exact Or.inr ⟨hret, rfl, .inr ⟨not_not.mp fun h => hlost h order hg.tree hrefuses, rfl⟩⟩
    · exact hmap.trans (congrArg view hsame.symm)

theorem fragStep_truncate (size : BitVec 32) (hR : StandsFor s m) :
    ∃ s' r m', fragStep s (.truncate size) = some (s', r) ∧ m.Spec lost (.truncate size) r m' ∧
      StandsFor s' m' := by
  obtain ⟨order, hi, hg, hc, hhi, hmap⟩ := hR
  obtain ⟨⟨s', len⟩, hcall, order', hg', hkeep, hlen⟩ := jffs2TruncateFragtree_spec size hg hc hhi
  have hstep : fragStep s (.truncate size) = some (s', .size len) := by
    rw [fragStep, hcall]
    rfl
  have hcut : (fun a => if a < size.toNat then m.map a else none) = view (s'.pieces order') := by
    funext a
    rw [show s'.pieces order' = _ from hkeep, hc.view_keepBelow, hmap]
  have hchain : Chain 0 (s'.pieces order') (min size.toNat hi) := by
    rw [show s'.pieces order' = _ from hkeep]
    exact hc.keepBelow_min
  have hfit : min size.toNat hi < 2 ^ 32 := Nat.lt_of_le_of_lt (Nat.min_le_right ..) hhi
  refine ⟨s', .size len, ⟨_, m.known⟩, hstep, ⟨rfl, rfl, fun a => ?_⟩, order', _, hg',
    hchain, hfit, hcut⟩
  have hlen : len.toNat = min size.toNat hi := hlen
  show (fun a => if a < size.toNat then m.map a else none) a ≠ none ↔ _
  rw [hcut, hlen, Ne, hchain.view_eq_none_iff]
  omega

/-- **Every call** on a tree that stands for a file does to it what the file is to become. -/
theorem fragStep_spec (s : Inode) (m : File) (call : Call) (hR : StandsFor s m)
    (hlegal : m.Legal call) (hlost : ¬lost → call.Granted s) :
    ∃ s' r m', fragStep s call = some (s', r) ∧ m.Spec lost call r m' ∧ StandsFor s' m' := by
  cases call with
  | add fn node answer answer' => exact fragStep_add answer answer' hR hlegal hlost
  | truncate size => exact fragStep_truncate size hR

theorem standsFor_empty (mem : Ptr → RbNode) (frag : Ptr → NodeFrag) (dnode : Ptr → FullDnode)
    (live : Ptr → Bool) :
    StandsFor (.empty mem frag dnode live) .empty := by
  refine ⟨[], 0, ⟨rbOk_empty mem, nofun, ⟨nofun, nofun, nofun, fun hc => hc⟩⟩, rfl, by decide, rfl⟩

/-- **Along every sequence of calls** a fragment tree that was empty at first stands for the file
that the calls make: every call ends, adding a node makes just its offsets map to it, with a hole
in front if the file was shorter, truncation removes just the offsets from the new size on, and a
call that fails leaves the file as it is. Every node that was handed in counts its fragments, if
no call got one fragment and was refused the other it wanted; the count of a node may be lost by
such a call alone. -/
theorem fragtree_follows_file (mem : Ptr → RbNode) (frag : Ptr → NodeFrag) (dnode : Ptr → FullDnode)
    (live : Ptr → Bool) (calls : List Call) :
    Run.Follows File.Legal StandsFor fragStep (File.Spec True) (.empty mem frag dnode live)
      .empty calls ∧
      (Run.Along (fun s call => (fragStep s call).map Prod.fst) (fun s call => call.Granted s)
          (.empty mem frag dnode live) calls →
        Run.Follows File.Legal StandsFor fragStep (File.Spec False) (.empty mem frag dnode live)
          .empty calls) := by
  have hempty := standsFor_empty mem frag dnode live
  refine ⟨Run.follows_of_step (fun s m call hR hlegal => ?_) hempty calls, fun h =>
    Run.follows_of_along (fun s m call hR hlegal hgranted => ?_) hempty h⟩
  · exact fragStep_spec s m call hR hlegal fun hc => absurd trivial hc
  · exact fragStep_spec s m call hR hlegal fun _ => hgranted

/-- A node whose hole finds no memory is left with a count of 1, and has no fragment. -/
theorem jffs2AddFullDnodeToInode_enomem_frags :
    ∃ s', fragStep
        (.empty (fun _ => ⟨0, 0, 0⟩) (fun _ => ⟨0, 0, 0⟩) (fun _ => ⟨0, 0, 0, .normal⟩)
          fun _ => false)
        (.add 4 ⟨5, 5, 0, .normal⟩ (some 8) none) = some (s', .code (-ENOMEM)) ∧
      RbOk (s'.heap, []) ∧ (s'.dnode 4).frags.toNat = 1 ∧ owners s' [] 4 = 0 :=
  ⟨_, rfl, rbOk_empty _, rfl, rfl⟩

end SilanKernel.Jffs2
