import Mathlib.Data.List.Basic

/-!
# SilanKernel.Lib.Rbtree

A model of `lib/rbtree.c`: **red-black trees with a cursor**.

The C code walks up a tree along the parent pointers. Here a place in a tree is a `Path`,
the frames from the place up to the root, and `plug` puts a subtree back into its place.
The loops of `rb_insert_color` and `__rb_erase_color` are recursions along the path. Both
are written twice in the source, once for each side of the parent; the side is a parameter
here. Following a null pointer is `none`.
-/

namespace SilanKernel.Rbtree

inductive Color where
  | red
  | black
  deriving DecidableEq, Repr

/-- Which child of its parent a node is. -/
inductive Dir where
  | left
  | right
  deriving DecidableEq, Repr

def Dir.flip : Dir → Dir
  | .left => .right
  | .right => .left

inductive Tree (α : Type) where
  | leaf
  | node (color : Color) (left : Tree α) (entry : α) (right : Tree α)
  deriving DecidableEq, Repr

variable {α : Type}

namespace Tree

/-- The nodes in order. -/
def toList : Tree α → List α
  | leaf => []
  | node _ l x r => l.toList ++ x :: r.toList

def size : Tree α → Nat
  | leaf => 0
  | node _ l _ r => l.size + r.size + 1

/-- A null child counts as black. -/
def isBlack : Tree α → Bool
  | node .red _ _ _ => false
  | _ => true

def setColor (c : Color) : Tree α → Tree α
  | leaf => leaf
  | node _ l x r => node c l x r

def child : Dir → Tree α → Tree α
  | _, leaf => leaf
  | .left, node _ l _ _ => l
  | .right, node _ _ _ r => r

end Tree

/-- The node with the given child on its `d` side and the other one on the far side. -/
def join (d : Dir) (c : Color) (near : Tree α) (x : α) (far : Tree α) : Tree α :=
  match d with
  | .left => .node c near x far
  | .right => .node c far x near

/-- A node above a place: the place is its child on the `dir` side, `other` the child on
the far side. -/
structure Frame (α : Type) where
  dir : Dir
  color : Color
  entry : α
  other : Tree α
  deriving DecidableEq, Repr

/-- The frames from a place up to the root, the parent first. -/
abbrev Path (α : Type) := List (Frame α)

def Frame.fill (f : Frame α) (t : Tree α) : Tree α := join f.dir f.color t f.entry f.other

/-- The whole tree, with `t` at the place. -/
def plug : Path α → Tree α → Tree α
  | [], t => t
  | f :: path, t => plug path (f.fill t)

/-! ### Insertion -/

/-- The rotations of `rb_insert_color`, for a red `node` under a red `parent`. On the inner
side a first rotation makes `node` the parent. -/
def insertRotate (node : Tree α) (parent gparent : Frame α) : Option (Tree α) :=
  let d := gparent.dir
  if parent.dir = d then
    some (join d .black node parent.entry (join d .red parent.other gparent.entry gparent.other))
  else
    match node with
    | .leaf => none
    | .node _ _ x _ =>
      some (join d .black
        (join d parent.color parent.other parent.entry (node.child d)) x
        (join d .red (node.child d.flip) gparent.entry gparent.other))

/-- `rb_insert_color`, with `node` the subtree at the place. A red parent has a parent
of its own in a valid tree; the source follows the pointer without a check. -/
def rbInsertColor (node : Tree α) : Path α → Option (Tree α)
  | [] => some (node.setColor .black)
  | [parent] => if parent.color = .red then none else some ((parent.fill node).setColor .black)
  | parent :: gparent :: path =>
    if parent.color = .red then
      if gparent.other.isBlack then do
        let top ← insertRotate node parent gparent
        some ((plug path top).setColor .black)
      else
        -- The uncle is red: recolour and go on from the grandparent.
        rbInsertColor (join gparent.dir .red (join parent.dir .black node parent.entry parent.other)
            gparent.entry (gparent.other.setColor .black)) path
    else
      some ((plug (parent :: gparent :: path) node).setColor .black)

/-- `rb_link_node` at the end of `path`, then `rb_insert_color`. -/
def rbInsert (x : α) (path : Path α) : Option (Tree α) :=
  rbInsertColor (.node .red .leaf x .leaf) path

/-! ### Removal -/

/-- One pass of `__rb_erase_color` once the sibling is black. Either the sibling turns red
and the parent is the next node to look at (`up`), or the loop is left (`done`). -/
inductive EraseStep (α : Type) where
  | up (parent : Tree α)
  | done (top : Tree α)
  deriving DecidableEq, Repr

def eraseStep (node : Tree α) (parent : Frame α) : Option (EraseStep α) :=
  let d := parent.dir
  match parent.other with
  | .leaf => none
  | .node c ol x or =>
    let other : Tree α := .node c ol x or
    let near := other.child d
    let far := other.child d.flip
    if near.isBlack && far.isBlack then
      some (.up (join d parent.color node parent.entry (other.setColor .red)))
    else if far.isBlack then
      match near with
      | .leaf => none
      | .node _ _ y _ =>
        some (.done (join d parent.color (join d .black node parent.entry (near.child d)) y
          (join d .black (near.child d.flip) x far)))
    else
      some (.done (join d parent.color (join d .black node parent.entry near) x
        (far.setColor .black)))

/-- `__rb_erase_color`: the paths through `node` lack one black node. -/
def rbEraseColor (node : Tree α) : Path α → Option (Tree α)
  | [] => some (node.setColor .black)
  | parent :: path =>
    if !node.isBlack then
      some (plug (parent :: path) (node.setColor .black))
    else
      match parent.other with
      | .leaf => none
      | .node .red ol x or => do
        -- A red sibling is rotated above the parent; the parent is red then, so that the
        -- loop is left at the latest when it gets to it.
        let other : Tree α := .node .red ol x or
        let d := parent.dir
        let top := { dir := d, color := .black, entry := x, other := other.child d.flip }
        match ← eraseStep node { parent with color := .red, other := other.child d } with
        | .up t => some (plug (top :: path) (t.setColor .black))
        | .done t => some ((plug (top :: path) t).setColor .black)
      | .node .black _ _ _ => do
        match ← eraseStep node parent with
        | .up t => rbEraseColor t path
        | .done t => some ((plug path t).setColor .black)

/-- The leftmost node of a subtree at `path`: the path to it, its colour and entry, and
its right child. -/
def leftmost : Tree α → Path α → Option (Path α × Color × α × Tree α)
  | .leaf, _ => none
  | .node c .leaf x r, path => some (path, c, x, r)
  | .node c l x r, path => leftmost l ({ dir := .left, color := c, entry := x, other := r } :: path)

/-- The last part of `rb_erase`: `child` has taken the place of a node of colour `c`. -/
def eraseFinish (c : Color) (child : Tree α) (path : Path α) : Option (Tree α) :=
  if c = .black then rbEraseColor child path else some (plug path child)

/-- `rb_erase` of the node at `path` with colour `c` and these children. A node with two
children is replaced by its successor, which takes over its colour. -/
def eraseAt (path : Path α) (c : Color) : Tree α → Tree α → Option (Tree α)
  | .leaf, r => eraseFinish c r path
  | l, .leaf => eraseFinish c l path
  | l, r => do
    let (down, color, succ, child) ← leftmost r []
    eraseFinish color child
      (down ++ { dir := .right, color := c, entry := succ, other := l } :: path)

/-- The place of a node, which the C code has in the node itself. -/
def locate [DecidableEq α] (x : α) : Tree α → Path α → Option (Path α × Color × Tree α × Tree α)
  | .leaf, _ => none
  | .node c l y r, path =>
    if x = y then some (path, c, l, r)
    else
      (locate x l ({ dir := .left, color := c, entry := y, other := r } :: path)).or
        (locate x r ({ dir := .right, color := c, entry := y, other := l } :: path))

/-- `rb_erase`; a node that is not in the tree is a fault. -/
def rbErase [DecidableEq α] (x : α) (t : Tree α) : Option (Tree α) := do
  let (path, c, l, r) ← locate x t []
  eraseAt path c l r

end SilanKernel.Rbtree
