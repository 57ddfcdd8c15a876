import Mathlib.Algebra.Group.Nat.Defs
import SilanKernel.Lib.Rbtree

/-!
# SilanKernel.Lib.RbtreeHeap

`lib/rbtree.c` **on the heap**: nodes with child pointers and a word that holds the parent
pointer and the colour.

`SilanKernel.Lib.Rbtree` has the algorithms on trees with a cursor; here they are with the
assignments of the source, one by one. A pointer is a 32-bit word and 0 is the null
pointer. The functions of the source treat the two sides of a node in mirrored branches; the
side is a parameter here. `none` stands for a null pointer that is followed, and for a loop
that has not ended after `loopBound` turns, more than there are nodes.
-/

namespace SilanKernel.Rbtree

abbrev Ptr := BitVec 32

def RB_RED : BitVec 32 := 0
def RB_BLACK : BitVec 32 := 1

/-- `struct rb_node` -/
structure RbNode where
  rbParentColor : BitVec 32
  rbRight : Ptr
  rbLeft : Ptr

namespace RbNode

/-- `rb_parent` -/
def rbParent (n : RbNode) : Ptr := n.rbParentColor &&& ~~~3

/-- `rb_color` -/
def rbColor (n : RbNode) : BitVec 32 := n.rbParentColor &&& 1

/-- `rb_is_red` -/
def rbIsRed (n : RbNode) : Bool := n.rbColor = 0

/-- `rb_left` or `rb_right` -/
def child (n : RbNode) : Dir → Ptr
  | .left => n.rbLeft
  | .right => n.rbRight

def setChild (n : RbNode) (d : Dir) (p : Ptr) : RbNode :=
  match d with
  | .left => { n with rbLeft := p }
  | .right => { n with rbRight := p }

end RbNode

/-- The nodes in memory and `root->rb_node`. -/
structure Heap where
  mem : Ptr → RbNode
  root : Ptr

namespace Heap

/-- The empty root; nothing is known of the memory. -/
def empty (mem : Ptr → RbNode) : Heap where
  mem := mem
  root := 0

variable (h : Heap)

def load (p : Ptr) : Option RbNode := if p = 0 then none else some (h.mem p)

/-- An assignment to fields of the node `p`. -/
def modify (p : Ptr) (f : RbNode → RbNode) : Option Heap :=
  if p = 0 then none else some { h with mem := Function.update h.mem p (f (h.mem p)) }

def setChild (p : Ptr) (d : Dir) (v : Ptr) : Option Heap :=
  h.modify p fun n => n.setChild d v

/-- `rb_set_parent` -/
def rbSetParent (rb p : Ptr) : Option Heap :=
  h.modify rb fun n => { n with rbParentColor := n.rbParentColor &&& 3 ||| p }

/-- `rb_set_color` -/
def rbSetColor (rb : Ptr) (color : BitVec 32) : Option Heap :=
  h.modify rb fun n => { n with rbParentColor := n.rbParentColor &&& ~~~1 ||| color }

/-- `rb_set_red` -/
def rbSetRed (r : Ptr) : Option Heap :=
  h.modify r fun n => { n with rbParentColor := n.rbParentColor &&& ~~~1 }

/-- `rb_set_black` -/
def rbSetBlack (r : Ptr) : Option Heap :=
  h.modify r fun n => { n with rbParentColor := n.rbParentColor ||| 1 }

/-- `if (p) rb_set_parent(p, parent)` -/
def setParentOf (p parent : Ptr) : Option Heap :=
  if p = 0 then some h else h.rbSetParent p parent

/-- `new` takes the place of `old` as a child of `parent`, or as the root if that is null. The
source compares with the child on the side `d`. -/
def replaceChild (d : Dir) (parent old new : Ptr) : Option Heap :=
  if parent = 0 then some { h with root := new }
  else
    (h.load parent).bind fun p =>
      if p.child d = old then h.setChild parent d new else h.setChild parent d.flip new

/-- `p` is null or points to a black node. -/
def isBlack (p : Ptr) : Bool := p = 0 || !(h.mem p).rbIsRed

end Heap

open Heap

def loopBound : Nat := 2 ^ 33

/-- `__rb_rotate_left` for the side `left`, `__rb_rotate_right` for the side `right`. -/
def rbRotate (d : Dir) (h : Heap) (node : Ptr) : Option Heap := do
  let n ← h.load node
  let right := n.child d.flip
  let parent := n.rbParent
  let r ← h.load right
  let h ← h.setChild node d.flip (r.child d)
  let h ← h.setParentOf (r.child d) node
  let h ← h.setChild right d node
  let h ← h.rbSetParent right parent
  let h ← h.replaceChild d parent node right
  h.rbSetParent node right

/-! ### Insertion -/

variable (h : Heap)

/-- `rb_link_node`; the link is a child of `parent`, or the root if that is null. -/
def rbLinkNode (node parent : Ptr) (d : Dir) : Option Heap := do
  let h ← h.modify node fun _ => { rbParentColor := parent, rbLeft := 0, rbRight := 0 }
  if parent = 0 then some { h with root := node } else h.setChild parent d node

/-- The first rotation, for a node on the inner side of its parent, and which of the two is
the parent then. -/
def insertInner (d : Dir) (h : Heap) (node parent : Ptr) : Option (Heap × Ptr × Ptr) := do
  let p ← h.load parent
  if p.child d.flip = node then do
    let h ← rbRotate d h parent
    some (h, parent, node)
  else some (h, node, parent)

/-- The last rotation. -/
def insertOuter (d : Dir) (h : Heap) (parent gparent : Ptr) : Option Heap := do
  let h ← h.rbSetBlack parent
  let h ← h.rbSetRed gparent
  rbRotate d.flip h gparent

/-- A red uncle: the colours change. -/
def insertRecolor (uncle parent gparent : Ptr) : Option Heap := do
  let h ← h.rbSetBlack uncle
  let h ← h.rbSetBlack parent
  h.rbSetRed gparent

/-- The `while` loop of `rb_insert_color`. -/
def insertLoop : Nat → Heap → Ptr → Option Heap
  | 0, _, _ => none
  | fuel + 1, h, node =>
    (h.load node).bind fun n =>
      let parent := n.rbParent
      if h.isBlack parent then some h
      else
        let gparent := (h.mem parent).rbParent
        (h.load gparent).bind fun g =>
          let d := if parent = g.rbLeft then Dir.left else Dir.right
          let uncle := g.child d.flip
          if h.isBlack uncle then do
            let (h, node, parent) ← insertInner d h node parent
            let h ← insertOuter d h parent gparent
            insertLoop fuel h node
          else do
            let h ← insertRecolor h uncle parent gparent
            insertLoop fuel h gparent

/-- `rb_insert_color` -/
def heapInsertColor (node : Ptr) : Option Heap := do
  let h ← insertLoop loopBound h node
  h.rbSetBlack h.root

/-! ### Removal -/

/-- A red sibling is rotated above the parent. The result includes the new sibling. -/
def eraseRedOther (d : Dir) (h : Heap) (parent other : Ptr) : Option (Heap × Ptr) := do
  let o ← h.load other
  if o.rbIsRed then do
    let h ← h.rbSetBlack other
    let h ← h.rbSetRed parent
    let h ← rbRotate d h parent
    let p ← h.load parent
    some (h, p.child d.flip)
  else some (h, other)

/-- A sibling with a red child on the near side only is rotated below it. -/
def eraseNearRed (d : Dir) (h : Heap) (parent other : Ptr) : Option (Heap × Ptr) := do
  let o ← h.load other
  if h.isBlack (o.child d.flip) then do
    let h ← h.rbSetBlack (o.child d)
    let h ← h.rbSetRed other
    let h ← rbRotate d.flip h other
    let p ← h.load parent
    some (h, p.child d.flip)
  else some (h, other)

/-- The last case, after which the loop is left. -/
def eraseFarRed (d : Dir) (h : Heap) (parent other : Ptr) : Option Heap := do
  let p ← h.load parent
  let h ← h.rbSetColor other p.rbColor
  let h ← h.rbSetBlack parent
  let o ← h.load other
  let h ← h.rbSetBlack (o.child d.flip)
  rbRotate d h parent

/-- The part of a turn with a black sibling. The result says whether the loop goes on from the
parent. -/
def eraseBlackOther (d : Dir) (h : Heap) (parent other : Ptr) : Option (Heap × Bool) :=
  (h.load other).bind fun o =>
    if h.isBlack o.rbLeft ∧ h.isBlack o.rbRight then do
      let h ← h.rbSetRed other
      some (h, true)
    else do
      let (h, other) ← eraseNearRed d h parent other
      let h ← eraseFarRed d h parent other
      some (h, false)

/-- The `while` loop of `__rb_erase_color`; the result includes `node` after it. -/
def eraseLoop : Nat → Heap → Ptr → Ptr → Option (Heap × Ptr)
  | 0, _, _, _ => none
  | fuel + 1, h, node, parent =>
    if h.isBlack node ∧ node ≠ h.root then
      (h.load parent).bind fun p =>
        let d := if p.rbLeft = node then Dir.left else Dir.right
        (eraseRedOther d h parent (p.child d.flip)).bind fun (h, other) =>
          (eraseBlackOther d h parent other).bind fun (h, goOn) =>
            if goOn then (h.load parent).bind fun p => eraseLoop fuel h parent p.rbParent
            else some (h, h.root)
    else some (h, node)

/-- `__rb_erase_color` -/
def heapEraseColor (node parent : Ptr) : Option Heap := do
  let (h, node) ← eraseLoop loopBound h node parent
  if node = 0 then some h else h.rbSetBlack node

/-- The label `color` of `rb_erase`. -/
def eraseColorLabel (child parent : Ptr) (color : BitVec 32) : Option Heap :=
  if color = RB_BLACK then heapEraseColor h child parent else some h

/-- `while ((left = node->rb_left) != NULL) node = left;` -/
def goLeft : Nat → Heap → Ptr → Option Ptr
  | 0, _, _ => none
  | fuel + 1, h, node =>
    (h.load node).bind fun n => if n.rbLeft = 0 then some node else goLeft fuel h n.rbLeft

/-- The successor `node` of `old` leaves its place below `old`, if that is not right below; the
result includes the parent of the place. -/
def detachSucc (old node child parent : Ptr) : Option (Heap × Ptr) :=
  if parent = old then some (h, node)
  else do
    let h ← h.setParentOf child parent
    let h ← h.setChild parent .left child
    let o ← h.load old
    let h ← h.setChild node .right o.rbRight
    let h ← h.rbSetParent o.rbRight node
    some (h, parent)

/-- The successor `node` takes the place of `old`. The result includes `child`, `parent` and
`color` at the label `color`. -/
def spliceSucc (old node : Ptr) : Option (Heap × Ptr × Ptr × BitVec 32) := do
  let o ← h.load old
  let h ← h.replaceChild .left o.rbParent old node
  let n ← h.load node
  let (h, parent) ← detachSucc h old node n.rbRight n.rbParent
  let o ← h.load old
  let h ← h.modify node fun n => { n with rbParentColor := o.rbParentColor, rbLeft := o.rbLeft }
  let h ← h.rbSetParent o.rbLeft node
  some (h, n.rbRight, parent, n.rbColor)

/-- `rb_erase` of a node with two children. -/
def eraseTwo (old : Ptr) : Option Heap := do
  let o ← h.load old
  let node ← goLeft loopBound h o.rbRight
  let (h, child, parent, color) ← spliceSucc h old node
  eraseColorLabel h child parent color

/-- The only child of `node`, or null, takes its place. -/
def unlinkOne (node child parent : Ptr) : Option Heap := do
  let h ← h.setParentOf child parent
  h.replaceChild .left parent node child

/-- `rb_erase` of a node with one child or none. -/
def eraseOne (node child : Ptr) : Option Heap := do
  let n ← h.load node
  let h ← unlinkOne h node child n.rbParent
  eraseColorLabel h child n.rbParent n.rbColor

/-- `rb_erase` -/
def heapErase (node : Ptr) : Option Heap :=
  (h.load node).bind fun n =>
    if n.rbLeft = 0 then eraseOne h node n.rbRight
    else if n.rbRight = 0 then eraseOne h node n.rbLeft
    else eraseTwo h node

/-! ### Replacement -/

/-- `rb_replace_node` -/
def rbReplaceNode (victim new : Ptr) : Option Heap := do
  let v ← h.load victim
  let h ← h.replaceChild .left v.rbParent victim new
  let h ← h.setParentOf v.rbLeft new
  let h ← h.setParentOf v.rbRight new
  let v ← h.load victim
  h.modify new fun _ => v

end SilanKernel.Rbtree
