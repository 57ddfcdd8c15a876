import SilanKernel.Data.Digits

/-!
# SilanKernel.Lib.RadixTree

The **radix tree** of `lib/radix-tree.c`: insertion, deletion, lookup and tags.

A pointer in the tree is NULL, an item or a node; a node is owned by the one slot
that points to it, so that the tree is a value. The indirect bit of `root->rnode` is
not stored: a node is put there with the bit set, and an item as it is. To take an item
for a node is a fault, and a fault and a failed `BUG_ON` are both `none`.

The source walks down the tree and, to clear tags and to free nodes, up again along the
path it has noted; here the walk down is a recursion on the height and the path is its
stack.

Nodes come from a slab cache whose objects the constructor zeroes once only: a node
that was freed is handed out again with what `radix_tree_node_rcu_free` left in it. Which
allocations fail and which object an allocation finds is an input.
-/

namespace SilanKernel.Lib

/-- A tag, below `RADIX_TREE_MAX_TAGS`. -/
abbrev Tag := Fin 3

/-- `struct radix_tree_node`, with the pointers of type `P`. -/
structure Node (P : Type) where
  height : Nat
  count : Nat
  slots : Nat → P
  tags : Tag → Nat → Bool

/-- What a slot holds. -/
inductive Ptr where
  | null
  | item (v : BitVec 32)
  | node (n : Node Ptr)

/-- `struct radix_tree_root`; the tags are the upper bits of `gfp_mask`. -/
structure Root where
  height : Nat
  rnode : Ptr
  tags : Tag → Bool

/-- `INIT_RADIX_TREE` -/
def Root.init : Root := { height := 0, rnode := .null, tags := fun _ => false }

def Ptr.isNull : Ptr → Bool
  | .null => true
  | .item v => v == 0
  | .node _ => false

/-- `radix_tree_is_indirect_ptr`, of what `root->rnode` holds. -/
def Ptr.isIndirect : Ptr → Bool
  | .null => false
  | .item v => v.getLsbD 0
  | .node _ => true

def EEXIST : Int := 17
def ENOMEM : Int := 12

/-! ### Node allocation -/

/-- What an allocation does: fail, hand out an object never used, or the `i`-th of those
that were freed. -/
inductive Choice where
  | fail
  | fresh
  | reuse (i : Nat)

/-- The slab cache: the free objects, and what the allocations to come will do. -/
structure Mem where
  slab : List (Node Ptr)
  choices : List Choice

/-- `radix_tree_node_ctor` -/
def nodeCtor : Node Ptr :=
  { height := 0, count := 0, slots := fun _ => .null, tags := fun _ _ => false }

def nodeAlloc (m : Mem) : Option (Node Ptr) × Mem :=
  match m.choices with
  | [] => (none, m)
  | .fail :: rest => (none, { m with choices := rest })
  | .fresh :: rest => (some nodeCtor, { m with choices := rest })
  | .reuse i :: rest =>
    match m.slab[i]? with
    | none => (none, { m with choices := rest })
    | some n => (some n, { slab := m.slab.eraseIdx i, choices := rest })

/-- `radix_tree_node_rcu_free` clears the first slot only. -/
def nodeRcuFree (n : Node Ptr) : Node Ptr :=
  { n with
    tags := fun t i => if i = 0 then false else n.tags t i
    slots := Function.update n.slots 0 .null
    count := 0 }

def nodeFree (m : Mem) (n : Node Ptr) : Mem := { m with slab := nodeRcuFree n :: m.slab }

/-! ### Heights and offsets -/

/-- `RADIX_TREE_MAP_SHIFT` -/
def mapShift (baseSmall : Bool) : Nat := if baseSmall then 4 else 6

/-- `RADIX_TREE_MAX_PATH` -/
def maxPath (k : Nat) : Nat := (32 + k - 1) / k

variable (k : Nat)

/-- `__maxindex`, which fills the table that `radix_tree_maxindex` reads. -/
def maxindex (height : Nat) : Nat :=
  let width := height * k
  if 32 < width then 2 ^ 32 - 1
  else if 32 ≤ 32 - width then 0
  else (2 ^ 32 - 1) / 2 ^ (32 - width)

/-- `(index >> shift) & RADIX_TREE_MAP_MASK`, at a node `h + 1` levels high, where `shift`
is `h * RADIX_TREE_MAP_SHIFT`. -/
def offset (h : Nat) (index : BitVec 32) : Nat := digit k h index.toNat

/-! ### Tags of a node -/

def tagSet (n : Node Ptr) (tag : Tag) (offset : Nat) : Node Ptr :=
  { n with tags := Function.update n.tags tag (Function.update (n.tags tag) offset true) }

def tagClear (n : Node Ptr) (tag : Tag) (offset : Nat) : Node Ptr :=
  { n with tags := Function.update n.tags tag (Function.update (n.tags tag) offset false) }

def anyTagSet (n : Node Ptr) (tag : Tag) : Bool := (List.range (2 ^ k)).any (n.tags tag)

def setSlot (n : Node Ptr) (offset : Nat) (p : Ptr) : Node Ptr :=
  { n with slots := Function.update n.slots offset p }

/-! ### Insertion -/

/-- The height that `radix_tree_extend` figures out, from `height` up. -/
def extendHeight (index : BitVec 32) : Nat → Nat → Nat
  | 0, height => height
  | n + 1, height =>
    if maxindex k height < index.toNat then extendHeight index n (height + 1) else height

/-- The levels that `radix_tree_extend` adds; false where an allocation fails. -/
def extendLoop : Nat → Root → Mem → Root × Mem × Bool
  | 0, root, m => (root, m, true)
  | n + 1, root, m =>
    match nodeAlloc m with
    | (none, m) => (root, m, false)
    | (some node, m) =>
      let node := setSlot node 0 root.rnode
      -- Propagate the aggregated tag info into the new root.
      let node := { node with
        tags := fun t i => if i = 0 ∧ root.tags t = true then true else node.tags t i
        height := root.height + 1
        count := 1 }
      extendLoop n { root with rnode := .node node, height := root.height + 1 } m

def radixTreeExtend (root : Root) (m : Mem) (index : BitVec 32) : Root × Mem × Bool :=
  let height := extendHeight k index (maxPath k) (root.height + 1)
  if root.rnode.isNull then ({ root with height := height }, m, true)
  else extendLoop (height - root.height) root m

/-- The loop of `radix_tree_insert` and what follows it, seen from the slot that the walk has
reached: what the slot holds in the end, and the value returned. A node counts a slot that
was NULL and is given a node, or the item. -/
def insertLoop (index item : BitVec 32) : Nat → Ptr → Mem → Option (Ptr × Mem × Int)
  | 0, slot, m => if slot.isNull then some (.item item, m, 0) else some (slot, m, -EEXIST)
  | h + 1, slot, m =>
    -- Have to add a child node where there is none.
    let (slot, m) :=
      match slot with
      | .null =>
        match nodeAlloc m with
        | (none, m) => (Ptr.null, m)
        | (some n, m) => (Ptr.node { n with height := h + 1 }, m)
      | slot => (slot, m)
    match slot with
    | .null => some (.null, m, -ENOMEM)
    | .item _ => none
    | .node n =>
      let child := n.slots (offset k h index)
      match insertLoop index item h child m with
      | none => none
      | some (child', m, ret) =>
        let count := if child.isNull && (h == 0 || !child'.isNull) then n.count + 1 else n.count
        let n := { setSlot n (offset k h index) child' with count := count }
        -- `BUG_ON`: the slot of a new item carries no tag.
        if h = 0 ∧ ret = 0 ∧
            (n.tags 0 (offset k h index) = true ∨ n.tags 1 (offset k h index) = true) then
          none
        else some (.node n, m, ret)

def radixTreeInsert (root : Root) (m : Mem) (index item : BitVec 32) :
    Option (Root × Mem × Int) :=
  -- An item is told from a node by its low bit.
  if (Ptr.item item).isIndirect then none
  else
    -- Make sure the tree is high enough.
    let (root, m, ok) :=
      if maxindex k root.height < index.toNat then radixTreeExtend k root m index
      else (root, m, true)
    if !ok then some (root, m, -ENOMEM)
    else
      match insertLoop k index item root.height root.rnode m with
      | none => none
      | some (rnode, m, ret) =>
        if root.height = 0 ∧ ret = 0 ∧ (root.tags 0 = true ∨ root.tags 1 = true) then none
        else some ({ root with rnode := rnode }, m, ret)

/-! ### Lookup -/

def lookupLoop (index : BitVec 32) : Nat → Ptr → Option Ptr
  | 0, p => some p
  | h + 1, .node n =>
    let p := n.slots (offset k h index)
    if p.isNull then some .null else lookupLoop index h p
  | _ + 1, _ => none

/-- `radix_tree_lookup`; it goes by the height of the node at the root. -/
def radixTreeLookup (root : Root) (index : BitVec 32) : Option Ptr :=
  match root.rnode with
  | .null => some .null
  | .item v =>
    if (Ptr.item v).isIndirect then none
    else if index.toNat > 0 then some .null else some (.item v)
  | .node n =>
    if maxindex k n.height < index.toNat then some .null
    else if n.height = 0 then none
    else lookupLoop k index n.height (.node n)

/-! ### Tags -/

def tagSetLoop (index : BitVec 32) (tag : Tag) : Nat → Ptr → Option (Ptr × Ptr)
  | 0, slot => some (slot, slot)
  | h + 1, .node n =>
    let n := if n.tags tag (offset k h index) then n else tagSet n tag (offset k h index)
    let child := n.slots (offset k h index)
    if child.isNull then none
    else
      match tagSetLoop index tag h child with
      | none => none
      | some (child, slot) => some (.node (setSlot n (offset k h index) child), slot)
  | _ + 1, _ => none

/-- `radix_tree_tag_set`, with the item it returns. -/
def radixTreeTagSet (root : Root) (index : BitVec 32) (tag : Tag) : Option (Root × Ptr) :=
  if maxindex k root.height < index.toNat then none
  else
    match tagSetLoop k index tag root.height root.rnode with
    | none => none
    | some (rnode, slot) =>
      let tags := if slot.isNull then root.tags else Function.update root.tags tag true
      some ({ root with rnode := rnode, tags := tags }, slot)

/-- Both loops of `radix_tree_tag_clear`: the node after it, whether the walk up goes on to
the next node, and the slot at the bottom. -/
def tagClearLoop (index : BitVec 32) (tag : Tag) : Nat → Ptr → Option (Ptr × Bool × Ptr)
  | 0, slot => some (slot, !slot.isNull, slot)
  | _ + 1, .null => some (.null, false, .null)
  | _ + 1, .item _ => none
  | h + 1, .node n =>
    match tagClearLoop index tag h (n.slots (offset k h index)) with
    | none => none
    | some (child, go, slot) =>
      let n := setSlot n (offset k h index) child
      if !go then some (.node n, false, slot)
      else if !n.tags tag (offset k h index) then some (.node n, false, slot)
      else
        let n := tagClear n tag (offset k h index)
        some (.node n, !anyTagSet k n tag, slot)

/-- `radix_tree_tag_clear`, with the item it returns. -/
def radixTreeTagClear (root : Root) (index : BitVec 32) (tag : Tag) : Option (Root × Ptr) :=
  if maxindex k root.height < index.toNat then some (root, .null)
  else
    match tagClearLoop k index tag root.height root.rnode with
    | none => none
    | some (rnode, go, slot) =>
      let tags := if go then Function.update root.tags tag false else root.tags
      some ({ root with rnode := rnode, tags := tags }, slot)

def tagGetLoop (index : BitVec 32) (tag : Tag) : Nat → Ptr → Option Bool
  | 0, _ => none
  | _ + 1, .null => some false
  | _ + 1, .item _ => none
  | h + 1, .node n =>
    if h = 0 then some (n.tags tag (offset k h index))
    else tagGetLoop index tag h (n.slots (offset k h index))

def radixTreeTagGet (root : Root) (index : BitVec 32) (tag : Tag) : Option Bool :=
  if !root.tags tag then some false
  else
    match root.rnode with
    | .null => some false
    | .item v => if (Ptr.item v).isIndirect then none else some (index.toNat == 0)
    | .node n =>
      if maxindex k n.height < index.toNat then some false
      else tagGetLoop k index tag n.height (.node n)

def radixTreeTagged (root : Root) (tag : Tag) : Bool := root.tags tag

/-! ### Deletion -/

/-- `|= RADIX_TREE_INDIRECT_PTR`, for lookups under RCU that still see the slot. -/
def Ptr.setIndirect : Ptr → Ptr
  | .item v => .item (v ||| 1)
  | p => p

/-- `radix_tree_shrink`; the number is `root->height`. -/
def shrinkLoop : Nat → Root → Mem → Option (Root × Mem)
  | 0, root, m => some (root, m)
  | h + 1, root, m =>
    match root.rnode with
    | .node toFree =>
      if toFree.count ≠ 1 then some (root, m)
      else if (toFree.slots 0).isNull then some (root, m)
      else
        let root := { root with rnode := toFree.slots 0, height := h }
        let toFree :=
          if h = 0 then setSlot toFree 0 (toFree.slots 0).setIndirect else toFree
        shrinkLoop h root (nodeFree m toFree)
    | _ => none

/-- The slot at the bottom of the path, NULL where the path ends before. -/
def descend (index : BitVec 32) : Nat → Ptr → Option Ptr
  | 0, slot => some slot
  | _ + 1, .null => some .null
  | _ + 1, .item _ => none
  | h + 1, .node n => descend index h (n.slots (offset k h index))

/-- `tag_get` at the last node of the path. -/
def leafTag (index : BitVec 32) (tag : Tag) : Nat → Ptr → Bool
  | h + 1, .node n =>
    if h = 0 then n.tags tag (offset k h index)
    else leafTag index tag h (n.slots (offset k h index))
  | _, _ => false

/-- How far the nodes on the path have been freed, seen from a slot on it. -/
inductive Removal where
  /-- A node further down still has slots in use. -/
  | stopped (p : Ptr)
  /-- The node here has lost a slot and still has others. -/
  | keeps (n : Node Ptr)
  /-- Nothing is left: the slot is to be cleared and then `toFree` to be freed. -/
  | emptied (toFree : Option (Node Ptr))

def freePending (m : Mem) : Option (Node Ptr) → Mem
  | none => m
  | some n => nodeFree m n

/-- The last loop of `radix_tree_delete`. -/
def removeLoop (index : BitVec 32) : Nat → Ptr → Mem → Option (Removal × Mem)
  | 0, _, m => some (.emptied none, m)
  | h + 1, .node n, m =>
    match removeLoop index h (n.slots (offset k h index)) m with
    | none => none
    | some (.stopped p, m) => some (.stopped (.node (setSlot n (offset k h index) p)), m)
    | some (.keeps child, m) =>
      some (.stopped (.node (setSlot n (offset k h index) (.node child))), m)
    | some (.emptied toFree, m) =>
      let n := { setSlot n (offset k h index) .null with count := n.count - 1 }
      let m := freePending m toFree
      if n.count ≠ 0 then some (.keeps n, m) else some (.emptied (some n), m)
  | _ + 1, _, _ => none

/-- Clear the tags `ts` of the item that is deleted. -/
def clearTags (index : BitVec 32) : List Tag → Root → Option Root
  | [], root => some root
  | t :: ts, root =>
    if leafTag k index t root.height root.rnode then
      match radixTreeTagClear k root index t with
      | none => none
      | some (root, _) => clearTags index ts root
    else clearTags index ts root

/-- `radix_tree_delete`, with the item it returns. -/
def radixTreeDelete (root : Root) (m : Mem) (index : BitVec 32) : Option (Root × Mem × Ptr) :=
  if maxindex k root.height < index.toNat then some (root, m, .null)
  else if root.height = 0 then
    some ({ root with tags := fun _ => false, rnode := .null }, m, root.rnode)
  else
    match descend k index root.height root.rnode with
    | none => none
    | some slot =>
      if slot.isNull then some (root, m, slot)
      else
        match clearTags k index [0, 1, 2] root with
        | none => none
        | some root =>
          match removeLoop k index root.height root.rnode m with
          | none => none
          | some (.stopped p, m) => some ({ root with rnode := p }, m, slot)
          | some (.keeps n, m) =>
            match shrinkLoop root.height { root with rnode := .node n } m with
            | none => none
            | some (root, m) => some (root, m, slot)
          | some (.emptied toFree, m) =>
            some ({ height := 0, rnode := .null, tags := fun _ => false }, freePending m toFree,
              slot)

end SilanKernel.Lib
