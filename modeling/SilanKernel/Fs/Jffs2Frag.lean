import SilanKernel.Lib.RbtreeWalk

/-!
# SilanKernel.Fs.Jffs2Frag

The fragment tree of a JFFS2 inode, `fs/jffs2/nodelist.c`: which data node holds each part
of the file. The fragments are the nodes of a red-black tree (`SilanKernel.Lib.RbtreeHeap`)
in the order of their offsets; a fragment without a data node is a hole.

A data node counts its fragments. When the last is gone it is marked obsolete and freed; its
record stays readable here, so that one can see the mark. The flags of its raw node
reference are kept in the record. Allocations are answered by the caller of the model: an address
that is null, misaligned or in use stands for a failed allocation, like no address at all.
`none` is a null pointer followed, a `BUG()`, or a loop without end.
-/

namespace SilanKernel.Jffs2

open Rbtree

def ENOMEM : Int := 12
def PAGE_CACHE_SHIFT : Nat := 12
def PAGE_CACHE_SIZE : BitVec 32 := 4096

/-- `struct jffs2_node_frag` without its `rb_node` -/
structure NodeFrag where
  node : Ptr
  size : BitVec 32
  ofs : BitVec 32

/-- The flags of a raw node reference. -/
inductive RefFlags
  | unchecked
  | obsolete
  | pristine
  | normal
  deriving DecidableEq

/-- `struct jffs2_full_dnode`, with the flags of `raw` -/
structure FullDnode where
  ofs : BitVec 32
  size : BitVec 32
  frags : BitVec 32
  raw : RefFlags

/-- The fragments and data nodes in memory, the fragment tree, and which fragments are
allocated. -/
structure Inode where
  heap : Heap
  frag : Ptr → NodeFrag
  dnode : Ptr → FullDnode
  live : Ptr → Bool

namespace Inode

variable (s : Inode)

def loadFrag (p : Ptr) : Option NodeFrag := if p = 0 then none else some (s.frag p)

def loadDnode (p : Ptr) : Option FullDnode := if p = 0 then none else some (s.dnode p)

/-- An assignment to fields of the fragment `p`. -/
def setFrag (p : Ptr) (f : NodeFrag) : Inode :=
  { s with frag := Function.update s.frag p f }

/-- An assignment to fields of the data node `p`. -/
def setDnode (p : Ptr) (d : FullDnode) : Inode :=
  { s with dnode := Function.update s.dnode p d }

def setRaw (p : Ptr) (r : RefFlags) : Inode :=
  s.setDnode p { s.dnode p with raw := r }

/-- `mark_ref_normal(node->raw)` for a node that may be missing -/
def markRefNormal (node : Ptr) : Inode :=
  if node = 0 then s else s.setRaw node .normal

/-- `frags++` for a node that may be missing -/
def addRef (node : Ptr) : Inode :=
  if node = 0 then s else s.setDnode node { s.dnode node with frags := (s.dnode node).frags + 1 }

/-- `jffs2_free_node_frag` -/
def freeNodeFrag (p : Ptr) : Inode :=
  { s with live := Function.update s.live p false }

def setHeap (h : Heap) : Inode := { s with heap := h }

end Inode

variable (s : Inode)

/-- `new_fragment`; `answer` is what `jffs2_alloc_node_frag` finds. -/
def newFragment (answer : Option Ptr) (fn : Ptr) (ofs size : BitVec 32) : Option (Inode × Ptr) :=
  match answer with
  | none => none
  | some p =>
    if p = 0 ∨ p &&& 3 ≠ 0 ∨ s.live p then none
    else some ({ s with live := Function.update s.live p true }.setFrag p ⟨fn, size, ofs⟩, p)

/-- `jffs2_obsolete_node_frag` -/
def jffs2ObsoleteNodeFrag (this : Ptr) : Option Inode := do
  let f ← s.loadFrag this
  if f.node = 0 then some (s.freeNodeFrag this)
  else
    let d := s.dnode f.node
    let frags := d.frags - 1
    -- `jffs2_mark_node_obsolete` or `mark_ref_normal`
    let raw := if frags = 0 then RefFlags.obsolete else .normal
    some ((s.setDnode f.node { d with frags, raw }).freeNodeFrag this)

/-- The loop of `jffs2_lookup_node_frag`. -/
def lookupLoop (s : Inode) (offset : BitVec 32) : Nat → Ptr → Ptr → Option Ptr
  | 0, _, _ => none
  | fuel + 1, next, prev =>
    if next = 0 then some prev
    else do
      let frag ← s.loadFrag next
      let n ← s.heap.load next
      if frag.ofs + frag.size ≤ offset then
        let prev := if prev = 0 ∨ (s.frag prev).ofs < frag.ofs then next else prev
        lookupLoop s offset fuel n.rbRight prev
      else if offset < frag.ofs then lookupLoop s offset fuel n.rbLeft prev
      else some next

/-- `jffs2_lookup_node_frag` -/
def jffs2LookupNodeFrag (offset : BitVec 32) : Option Ptr :=
  lookupLoop s offset loopBound s.heap.root 0

/-- The loop of `jffs2_fragtree_insert`: the node and the link to put a fragment at `ofs`. -/
def insertLink (s : Inode) (ofs : BitVec 32) : Nat → Ptr → Option (Ptr × Dir)
  | 0, _ => none
  | fuel + 1, base => do
    let frag ← s.loadFrag base
    let n ← s.heap.load base
    if frag.ofs < ofs then
      if n.rbRight = 0 then some (base, .right) else insertLink s ofs fuel n.rbRight
    else if ofs < frag.ofs then
      if n.rbLeft = 0 then some (base, .left) else insertLink s ofs fuel n.rbLeft
    else none

/-- `rb_link_node` and `rb_insert_color` -/
def linkFrag (frag parent : Ptr) (d : Dir) : Option Inode := do
  let h ← rbLinkNode s.heap frag parent d
  let h ← heapInsertColor h frag
  some (s.setHeap h)

/-- `jffs2_fragtree_insert` and `rb_insert_color`, which always follows it -/
def jffs2FragtreeInsert (newfrag base : Ptr) : Option Inode := do
  let f ← s.loadFrag newfrag
  let (parent, d) ← insertLink s f.ofs loopBound base
  linkFrag s newfrag parent d

/-- `no_overlapping_node`. Under a missing `this` a fragment becomes the root. -/
def noOverlappingNode (answer : Option Ptr) (newfrag this : Ptr) (lastend : BitVec 32) :
    Option (Inode × Int) := do
  let f ← s.loadFrag newfrag
  let fn ← s.loadDnode f.node
  if lastend < fn.ofs then
    match newFragment s answer 0 lastend (fn.ofs - lastend) with
    | none => some (s.freeNodeFrag newfrag, -ENOMEM)
    | some (s, holefrag) =>
      let s ← linkFrag s holefrag this .right
      let s ← linkFrag s newfrag holefrag .right
      some (s, 0)
  else
    let s ← linkFrag s newfrag this .right
    some (s, 0)

/-- The loop that removes the fragments the new one covers, and the first it does not. -/
def obsoleteLoop (newfrag : Ptr) : Nat → Inode → Option (Inode × Ptr)
  | 0, _ => none
  | fuel + 1, s => do
    let this ← rbNext s.heap newfrag
    if this = 0 then some (s, 0)
    else
      let n ← s.loadFrag newfrag
      let f ← s.loadFrag this
      if f.ofs + f.size ≤ n.ofs + n.size then
        let h ← heapErase s.heap this
        let s ← jffs2ObsoleteNodeFrag (s.setHeap h) this
        obsoleteLoop newfrag fuel s
      else some (s, this)

/-- The first fragment that the new one does not cover as a whole. -/
def trimFirst (newfrag this : Ptr) : Option (Inode × Int) :=
  if this = 0 then some (s, 0)
  else do
    let n ← s.loadFrag newfrag
    let f ← s.loadFrag this
    if n.ofs + n.size = f.ofs then some (s, 0)
    else
      let s := s.setFrag this { f with
        size := (f.ofs + f.size) - (n.ofs + n.size)
        ofs := n.ofs + n.size }
      some ((s.markRefNormal f.node).markRefNormal n.node, 0)

/-- The end of `jffs2_add_frag_to_fragtree`, with `newfrag` in its place in the tree. -/
def trimFollowing (newfrag : Ptr) : Option (Inode × Int) := do
  let (s, this) ← obsoleteLoop newfrag loopBound s
  trimFirst s newfrag this

/-- The new fragment lies inside `this`, and splits it. -/
def splitFrag (answer : Option Ptr) (newfrag this : Ptr) (n f : NodeFrag) : Option (Inode × Int) :=
  match newFragment s answer f.node (n.ofs + n.size) (f.ofs + f.size - n.ofs - n.size) with
  -- `newfrag` stays allocated
  | none => some (s, -ENOMEM)
  | some (s, newfrag2) => do
    let s := (s.addRef f.node).setFrag this { f with size := n.ofs - f.ofs }
    let s ← jffs2FragtreeInsert s newfrag this
    let s ← jffs2FragtreeInsert s newfrag2 newfrag
    some (s, 0)

/-- The new fragment covers the end of `this`. -/
def shortenFrag (newfrag this : Ptr) (n f : NodeFrag) : Option (Inode × Int) := do
  let s := s.setFrag this { f with size := n.ofs - f.ofs }
  let s ← jffs2FragtreeInsert s newfrag this
  trimFollowing s newfrag

/-- A new fragment that starts inside `this`. -/
def overlapInside (answer : Option Ptr) (newfrag this : Ptr) (n f : NodeFrag) :
    Option (Inode × Int) :=
  let s := (s.markRefNormal n.node).markRefNormal f.node
  if n.ofs + n.size < f.ofs + f.size then splitFrag s answer newfrag this n f
  else shortenFrag s newfrag this n f

/-- A new fragment that starts where `this` does. -/
def overlapStart (newfrag this : Ptr) (n f : NodeFrag) : Option (Inode × Int) := do
  let h ← rbReplaceNode s.heap this newfrag
  let s := s.setHeap h
  if f.ofs + f.size ≤ n.ofs + n.size then
    let s ← jffs2ObsoleteNodeFrag s this
    trimFollowing s newfrag
  else
    let s := s.setFrag this { f with ofs := f.ofs + n.size, size := f.size - n.size }
    let s ← jffs2FragtreeInsert s this newfrag
    some (s, 0)

/-- Behind the last fragment, on the page of its end. -/
def markSamePage (this : Ptr) (lastend : BitVec 32) (n : NodeFrag) : Inode :=
  if lastend ≠ 0 ∧ (lastend - 1) >>> PAGE_CACHE_SHIFT = n.ofs >>> PAGE_CACHE_SHIFT then
    (s.markRefNormal (s.frag this).node).markRefNormal n.node
  else s

/-- `jffs2_add_frag_to_fragtree` -/
def jffs2AddFragToFragtree (answer : Option Ptr) (newfrag : Ptr) : Option (Inode × Int) := do
  let n ← s.loadFrag newfrag
  let fn ← s.loadDnode n.node
  let this ← jffs2LookupNodeFrag s fn.ofs
  let lastend := if this = 0 then 0 else (s.frag this).ofs + (s.frag this).size
  if lastend ≤ n.ofs then
    noOverlappingNode (markSamePage s this lastend n) answer newfrag this lastend
  else
    let f ← s.loadFrag this
    if f.ofs < n.ofs then overlapInside s answer newfrag this n f
    else overlapStart s newfrag this n f

/-- Marks the new node and the one in front of it if they share a page. -/
def markPrev (newfrag fn : Ptr) : Option Inode := do
  let n ← s.loadFrag newfrag
  if n.ofs &&& (PAGE_CACHE_SIZE - 1) = 0 then some s
  else
    let prev ← rbPrev s.heap newfrag
    let s := s.markRefNormal fn
    let p ← s.loadFrag prev
    some (s.markRefNormal p.node)

/-- The same for the one behind it. -/
def markNext (newfrag fn : Ptr) : Option Inode := do
  let n ← s.loadFrag newfrag
  if (n.ofs + n.size) &&& (PAGE_CACHE_SIZE - 1) = 0 then some s
  else
    let next ← rbNext s.heap newfrag
    if next = 0 then some s
    else
      let s := s.markRefNormal fn
      let p ← s.loadFrag next
      some (s.markRefNormal p.node)

/-- `jffs2_add_full_dnode_to_inode`; the two answers are for the new fragment and for the one
more that a hole or a split takes. -/
def jffs2AddFullDnodeToInode (answer answer' : Option Ptr) (fn : Ptr) : Option (Inode × Int) := do
  let d ← s.loadDnode fn
  if d.size = 0 then some (s, 0)
  else
    match newFragment s answer fn d.ofs d.size with
    | none => some (s, -ENOMEM)
    | some (s, newfrag) =>
      let s := s.setDnode fn { d with frags := 1 }
      let (s, ret) ← jffs2AddFragToFragtree s answer' newfrag
      if ret ≠ 0 then some (s, ret)
      else
        let s ← markPrev s newfrag fn
        let s ← markNext s newfrag fn
        some (s, 0)

/-! ### Truncation -/

/-- The loop of `jffs2_truncate_fragtree`. -/
def truncateLoop (size : BitVec 32) : Nat → Inode → Ptr → Option Inode
  | 0, _, _ => none
  | fuel + 1, s, frag =>
    if frag = 0 then some s
    else do
      let f ← s.loadFrag frag
      if f.ofs < size then some s
      else
        let next ← rbNext s.heap frag
        let h ← heapErase s.heap frag
        let s ← jffs2ObsoleteNodeFrag (s.setHeap h) frag
        truncateLoop size fuel s next

/-- What comes before the loop: the fragment across the new end is shortened. -/
def truncateHead (size : BitVec 32) (frag : Ptr) : Option (Inode × Ptr) :=
  if frag = 0 ∨ (s.frag frag).ofs = size then some (s, frag)
  else do
    let f := s.frag frag
    let s := if size < f.ofs + f.size then s.setFrag frag { f with size := size - f.ofs } else s
    let next ← rbNext s.heap frag
    some (s, next)

/-- What comes after it: the size of the file, and the mark of its last node. -/
def truncateTail (size : BitVec 32) : Option (Inode × BitVec 32) :=
  if size = 0 then some (s, 0)
  else do
    let frag ← rbLast s.heap
    if frag = 0 then some (s, 0)
    else
      let f := s.frag frag
      if f.ofs + f.size < size then some (s, f.ofs + f.size)
      else if f.node ≠ 0 ∧ f.ofs &&& (PAGE_CACHE_SIZE - 1) = 0 then
        some (s.setRaw f.node .pristine, size)
      else some (s, size)

/-- `jffs2_truncate_fragtree` -/
def jffs2TruncateFragtree (size : BitVec 32) : Option (Inode × BitVec 32) := do
  let frag ← jffs2LookupNodeFrag s size
  let (s, frag) ← truncateHead s size frag
  let s ← truncateLoop size loopBound s frag
  truncateTail s size

end SilanKernel.Jffs2
