import Mathlib.Logic.Function.Basic

/-!
# SilanKernel.Lib.Btree

The in-memory B+tree of `lib/btree.c`.

A node is an array of pairs of a key and a value. The keys fall from left to right; the unused
pairs on the right are zero, and that is how the functions know them. In a leaf the values are
the caller's pointers, above it they are the nodes one level below, each with a key that is not
greater than any in it. Levels are counted from the leaves, which are on level 1.

A key argument is a pointer. The recursive calls pass pointers into nodes, which are written to
while the pointer is in use, so a `KeyPtr` is read at each use. Memory is what `mempool_alloc`
answers, in turn; an answer that is null or in use stands for a failed allocation. `none` is a
`BUG_ON`, an access to a null pointer, to a freed node or outside a node's pairs, or a loop
without end.
-/

namespace SilanKernel.Btree

abbrev Word := BitVec 32

/-- A key of `n` longs. -/
abbrev Key (n : Nat) := Vector Word n

def ENOENT : Int := 2
def ENOMEM : Int := 12

/-- `NODESIZE / sizeof(long)` -/
def NODELONGS : Nat := 32

/-- `struct btree_geo`; `no_longs` is only where the values start. -/
structure Geo where
  keylen : Nat
  noPairs : Nat
  even : noPairs % 2 = 0
  room : 4 ≤ noPairs

def btreeGeo32 : Geo := ⟨1, NODELONGS / 2, by decide, by decide⟩
def btreeGeo64 : Geo := ⟨2, NODELONGS / (1 + 2), by decide, by decide⟩
def btreeGeo128 : Geo := ⟨4, NODELONGS / (1 + 2 * 2), by decide, by decide⟩

/-! ### Keys -/

/-- The loop of `longcmp`. -/
def longcmpLoop : List Word → List Word → Int
  | a :: l₁, b :: l₂ => if a < b then -1 else if b < a then 1 else longcmpLoop l₁ l₂
  | _, _ => 0

def longcmp {n : Nat} (k₁ k₂ : Key n) : Int := longcmpLoop k₁.toList k₂.toList

def zeroKey (n : Nat) : Key n := Vector.replicate n 0

/-! ### Nodes -/

structure Node (n : Nat) where
  key : Nat → Key n
  val : Nat → Word

namespace Node

variable {n : Nat}

def zero : Node n := ⟨fun _ => zeroKey n, fun _ => 0⟩

def setkey (nd : Node n) (i : Nat) (k : Key n) : Node n :=
  { nd with key := Function.update nd.key i k }

def setval (nd : Node n) (i : Nat) (v : Word) : Node n :=
  { nd with val := Function.update nd.val i v }

/-- `setkey` and `setval` -/
def setpair (nd : Node n) (i : Nat) (k : Key n) (v : Word) : Node n := (nd.setkey i k).setval i v

def clearpair (nd : Node n) (i : Nat) : Node n := nd.setpair i (zeroKey n) 0

/-- What is read as a key behind the last one: the values start there. -/
def pastKeys (nd : Node n) : Key n := Vector.ofFn fun i => nd.val i

end Node

variable {g : Geo}

variable (nd : Node g.keylen)

/-- `bkey` -/
def bkey (i : Nat) : Key g.keylen := if i = g.noPairs then nd.pastKeys else nd.key i

/-- The loop of `getpos`, `find_level` and others: the first pair with a key that is not greater. -/
def getposLoop (nd : Node g.keylen) (key : Key g.keylen) : Nat → Nat → Nat
  | 0, i => i
  | n + 1, i => if longcmp (nd.key i) key ≤ 0 then i else getposLoop nd key n (i + 1)

def getpos (key : Key g.keylen) : Nat := getposLoop nd key g.noPairs 0

/-- The loop of `getfill`: the first pair without a value. -/
def getfillLoop (nd : Node g.keylen) : Nat → Nat → Nat
  | 0, i => i
  | n + 1, i => if nd.val i = 0 then i else getfillLoop nd n (i + 1)

def getfill (start : Nat) : Nat := getfillLoop nd (g.noPairs - start) start

/-- `for (i = fill; i > pos; i--)`: the pairs from `pos` on go one to the right. -/
def shiftRight {n : Nat} (pos : Nat) : Nat → Node n → Node n
  | 0, nd => nd
  | i + 1, nd =>
    if pos < i + 1 then shiftRight pos i (nd.setpair (i + 1) (nd.key i) (nd.val i)) else nd

/-- `for (i = pos; i < fill - 1; i++)`: the pairs behind `i` go one to the left. -/
def shiftLeft {n : Nat} : Nat → Nat → Node n → Node n
  | 0, _, nd => nd
  | m + 1, i, nd => shiftLeft m (i + 1) (nd.setpair i (nd.key (i + 1)) (nd.val (i + 1)))

/-- The loop of a split, on the new node and the old one. -/
def splitLoop {n : Nat} (half : Nat) : Nat → Nat → Node n × Node n → Node n × Node n
  | 0, _, nodes => nodes
  | m + 1, i, (new, nd) =>
    let new := new.setpair i (nd.key i) (nd.val i)
    let nd := nd.setpair i (nd.key (i + half)) (nd.val (i + half))
    splitLoop half m (i + 1) (new, nd.clearpair (i + half))

/-- The pairs of a full node, split between the new node and the old one. -/
def splitPairs {n : Nat} (fill : Nat) (new nd : Node n) : Node n × Node n :=
  let (new, nd) := splitLoop (fill / 2) (fill / 2) 0 (new, nd)
  if fill % 2 = 1 then
    (new, (nd.setpair (fill / 2) (nd.key (fill - 1)) (nd.val (fill - 1))).clearpair (fill - 1))
  else (new, nd)

/-- The loop of `merge`: the pairs of the right node behind those of the left one. -/
def mergeLoop {n : Nat} (lfill : Nat) (right : Node n) : Nat → Nat → Node n → Node n
  | 0, _, left => left
  | m + 1, i, left =>
    mergeLoop lfill right m (i + 1) (left.setpair (lfill + i) (right.key i) (right.val i))

/-! ### The tree -/

/-- `struct btree_head` with the memory: the nodes, which are allocated, and the answers of the
pool. -/
structure Head (g : Geo) where
  mem : Word → Node g.keylen
  live : Word → Bool
  pool : List Word
  node : Word
  height : Nat

/-- A pointer to a key: the caller's, or one into a node. -/
inductive KeyPtr (n : Nat)
  | arg (key : Key n)
  | slot (node : Word) (pos : Nat)

namespace Head

def load (s : Head g) (p : Word) : Option (Node g.keylen) :=
  if p = 0 ∨ s.live p = false then none else some (s.mem p)

def store (s : Head g) (p : Word) (nd : Node g.keylen) : Head g :=
  { s with mem := Function.update s.mem p nd }

/-- The key behind a pointer. -/
def keyAt (s : Head g) : KeyPtr g.keylen → Option (Key g.keylen)
  | .arg key => some key
  | .slot node pos => do
    let nd ← s.load node
    if pos < g.noPairs then some (nd.key pos) else none

/-- `mempool_free` -/
def free (s : Head g) (p : Word) : Head g := { s with live := Function.update s.live p false }

end Head

/-- `btree_node_alloc` -/
def btreeNodeAlloc (s : Head g) : Head g × Option Word :=
  match s.pool with
  | [] => (s, none)
  | p :: pool =>
    if p = 0 ∨ s.live p then ({ s with pool }, none)
    else ({ s with pool, live := Function.update s.live p true }.store p .zero, some p)

/-! ### Reading -/

/-- One level of the way down of `btree_lookup` and `btree_update`; `some none` is a miss. -/
def lookupStep (s : Head g) (key : Key g.keylen) (node : Word) : Option (Option Word) := do
  let nd ← s.load node
  let i := getpos nd key
  if i = g.noPairs ∨ nd.val i = 0 then some none else some (some (nd.val i))

/-- The first `n` turns of that loop. -/
def lookupLoop (s : Head g) (key : Key g.keylen) : Nat → Option (Option Word)
  | 0 => some (some s.node)
  | n + 1 => do
    match ← lookupLoop s key n with
    | none => some none
    | some node => lookupStep s key node

/-- The first pair of a leaf with this key. -/
def leafLoop (nd : Node g.keylen) (key : Key g.keylen) : Nat → Nat → Option Nat
  | 0, _ => none
  | n + 1, i => if longcmp (nd.key i) key = 0 then some i else leafLoop nd key n (i + 1)

/-- The leaf and the pair `btree_lookup` and `btree_update` stop at. -/
def lookupPair (s : Head g) (key : Key g.keylen) : Option (Option (Word × Nat)) :=
  if s.height = 0 then some none
  else do
    match ← lookupLoop s key (s.height - 1) with
    | none => some none
    | some node =>
      if node = 0 then some none
      else
        let nd ← s.load node
        some ((leafLoop nd key g.noPairs 0).map fun i => (node, i))

/-- `btree_lookup`; NULL is 0. -/
def btreeLookup (s : Head g) (key : Key g.keylen) : Option Word := do
  match ← lookupPair s key with
  | none => some 0
  | some (node, i) =>
    let nd ← s.load node
    some (nd.val i)

/-- `btree_update` -/
def btreeUpdate (s : Head g) (key : Key g.keylen) (val : Word) : Option (Head g × Int) := do
  match ← lookupPair s key with
  | none => some (s, -ENOENT)
  | some (node, i) =>
    let nd ← s.load node
    some (s.store node (nd.setval i val), 0)

/-- The first `n` turns of the loop of `btree_last`: down on the left. -/
def lastLoop (s : Head g) : Nat → Option Word
  | 0 => some s.node
  | n + 1 => do
    let node ← lastLoop s n
    let nd ← s.load node
    some (nd.val 0)

/-- `btree_last`: the value, and the key if it is written. -/
def btreeLast (s : Head g) : Option (Word × Option (Key g.keylen)) :=
  if s.height = 0 then some (0, none)
  else do
    let node ← lastLoop s (s.height - 1)
    let nd ← s.load node
    some (nd.val 0, some (nd.key 0))

/-! ### The way to a level -/

/-- One level of `find_level`. The right-most key is lowered if it is too large. -/
def findStep (s : Head g) (key : KeyPtr g.keylen) (node : Word) : Option (Head g × Word) := do
  let nd ← s.load node
  let k ← s.keyAt key
  let i := getpos nd k
  if i = g.noPairs ∨ nd.val i = 0 then
    -- `BUG_ON(i < 0)`, behind a write in front of the node
    if i = 0 then none
    else some (s.store node (nd.setkey (i - 1) k), nd.val (i - 1))
  else some (s, nd.val i)

/-- The first `n` turns of the loop of `find_level`. -/
def findLoop (s : Head g) (key : KeyPtr g.keylen) : Nat → Option (Head g × Word)
  | 0 => some (s, s.node)
  | n + 1 => do
    let (s, node) ← findLoop s key n
    findStep s key node

/-- `find_level` -/
def findLevel (s : Head g) (key : KeyPtr g.keylen) (level : Nat) : Option (Head g × Word) := do
  let (s, node) ← findLoop s key (s.height - level)
  if node = 0 then none else some (s, node)

/-! ### Insertion -/

/-- The first pair of a new root. -/
def growPair (s : Head g) (node : Word) : Option (Head g) :=
  if s.node = 0 then some s
  else do
    let nd ← s.load s.node
    let fill := getfill nd 0
    if fill = 0 then none
    else
      let new ← s.load node
      some (s.store node (new.setpair 0 (nd.key (fill - 1)) s.node))

/-- `btree_grow` -/
def btreeGrow (s : Head g) : Option (Head g × Int) :=
  match btreeNodeAlloc s with
  | (s, none) => some (s, -ENOMEM)
  | (s, some node) => do
    let s ← growPair s node
    some ({ s with node, height := s.height + 1 }, 0)

/-- The end of `btree_insert_level`: shift and insert. -/
def insertPair (s : Head g) (node : Word) (pos fill : Nat) (key : KeyPtr g.keylen) (val : Word) :
    Option (Head g) := do
  let nd ← s.load node
  let nd := shiftRight pos fill nd
  let k ← (s.store node nd).keyAt key
  some (s.store node (nd.setpair pos k val))

/-- Moves half of the pairs of `node` to `new`. -/
def splitNode (s : Head g) (node new : Word) (fill : Nat) : Option (Head g) := do
  let nd ← s.load node
  let nw ← s.load new
  some ((s.store new (splitPairs fill nw nd).1).store node (splitPairs fill nw nd).2)

section

-- `btree_insert_level`
variable (insert : Head g → KeyPtr g.keylen → Word → Nat → Option (Head g × Int))

/-- The split of a full node. `goto retry` is the function itself: on the second turn there is a
value and there is the level, so that nothing is done before the label. -/
def splitAndRetry (s : Head g) (key : KeyPtr g.keylen) (val : Word) (level : Nat) (node : Word)
    (fill : Nat) : Option (Head g × Int) :=
  match btreeNodeAlloc s with
  | (s, none) => some (s, -ENOMEM)
  | (s, some new) => do
    let (s, err) ← insert s (.slot node (fill / 2 - 1)) new (level + 1)
    if err ≠ 0 then some (s.free new, err)
    else
      let s ← splitNode s node new fill
      insert s key val level

/-- `btree_insert_level` from the label `retry` on, behind `find_level`. -/
def insertInto (s : Head g) (key : KeyPtr g.keylen) (val : Word) (level : Nat) (node : Word) :
    Option (Head g × Int) := do
  let nd ← s.load node
  let k ← s.keyAt key
  let pos := getpos nd k
  let fill := getfill nd pos
  if pos < fill ∧ longcmp (nd.key pos) k = 0 then none
  else if fill = g.noPairs then splitAndRetry insert s key val level node fill
  else
    let s ← insertPair s node pos fill key val
    some (s, 0)

end

/-- The start of `btree_insert_level`: there is such a level. -/
def growTo (s : Head g) (level : Nat) : Option (Head g × Int) :=
  if s.height < level then btreeGrow s else some (s, 0)

/-- `btree_insert_level` -/
def btreeInsertLevel : Nat → Head g → KeyPtr g.keylen → Word → Nat → Option (Head g × Int)
  | 0, _, _, _, _ => none
  | fuel + 1, s, key, val, level =>
    if val = 0 then none
    else do
      let (s, err) ← growTo s level
      if err ≠ 0 then some (s, err)
      else
        let (s, node) ← findLevel s key level
        insertInto (btreeInsertLevel fuel) s key val level node

/-- `btree_insert`. A level is split once before it goes on upwards. -/
def btreeInsert (s : Head g) (key : Key g.keylen) (val : Word) : Option (Head g × Int) :=
  btreeInsertLevel (s.height + 2) s (.arg key) val 1

/-! ### Removal -/

/-- `btree_shrink` -/
def btreeShrink (s : Head g) : Option (Head g) :=
  if s.height ≤ 1 then some s
  else do
    let nd ← s.load s.node
    if 1 < getfill nd 0 then none
    else some ({ s with node := nd.val 0, height := s.height - 1 }.free s.node)

section

-- `btree_remove_level`, one level up
variable (remove : Head g → KeyPtr g.keylen → Nat → Option (Head g × Word))

/-- `merge`. The left and the right node are not the same. -/
def merge (s : Head g) (level : Nat) (left : Word) (lfill : Nat) (right : Word) (rfill : Nat)
    (parent : Word) (lpos : Nat) : Option (Head g) := do
  let lnd ← s.load left
  let rnd ← s.load right
  if g.noPairs < lfill + rfill then none
  else
    let s := s.store left (mergeLoop lfill rnd rfill 0 lnd)
    let pnd ← s.load parent
    let s := s.store parent ((pnd.setval lpos right).setval (lpos + 1) left)
    let (s, _) ← remove s (.slot parent lpos) (level + 1)
    some (s.free right)

/-- The second half of `rebalance`: the right neighbour. -/
def mergeRight (s : Head g) (level : Nat) (child : Word) (fill : Nat) (parent : Word) (i : Nat) :
    Option (Head g) := do
  let pnd ← s.load parent
  if i + 1 < getfill pnd i then
    let right := pnd.val (i + 1)
    let rnd ← s.load right
    if fill + getfill rnd 0 ≤ g.noPairs then
      merge remove s level child fill right (getfill rnd 0) parent i
    else some s
  else some s

/-- The first half of `rebalance`, with the node at the place `i` of its parent: the left
neighbour. -/
def mergeLeft (s : Head g) (level : Nat) (child : Word) (fill : Nat) (parent : Word)
    (pnd : Node g.keylen) (i : Nat) :
    Option (Head g) :=
  if 0 < i then do
    let left := pnd.val (i - 1)
    let lnd ← s.load left
    if fill + getfill lnd 0 ≤ g.noPairs then
      merge remove s level left (getfill lnd 0) child fill parent (i - 1)
    else mergeRight remove s level child fill parent i
  else mergeRight remove s level child fill parent i

/-- `rebalance` -/
def rebalance (s : Head g) (key : KeyPtr g.keylen) (level : Nat) (child : Word)
    (fill : Nat) : Option (Head g) :=
  if fill = 0 then do
    let (s, _) ← remove s key (level + 1)
    some (s.free child)
  else do
    let (s, parent) ← findLevel s key (level + 1)
    let pnd ← s.load parent
    let k ← s.keyAt key
    let i := getpos pnd k
    if i = g.noPairs then none
    else if pnd.val i ≠ child then none
    else mergeLeft remove s level child fill parent pnd i

/-- What follows a removal that leaves `fill` pairs. -/
def afterRemoval (s : Head g) (key : KeyPtr g.keylen) (level : Nat) (node : Word) (fill : Nat) :
    Option (Head g) :=
  if fill < g.noPairs / 2 then
    if level < s.height then rebalance remove s key level node fill
    else if fill = 1 then btreeShrink s
    else some s
  else some s

end

/-- `btree_remove_level` behind `find_level`. -/
def removeFrom (remove : Head g → KeyPtr g.keylen → Nat → Option (Head g × Word)) (s : Head g)
    (key : KeyPtr g.keylen) (level : Nat) (node : Word) : Option (Head g × Word) := do
  let nd ← s.load node
  let k ← s.keyAt key
  let pos := getpos nd k
  let fill := getfill nd pos
  if level = 1 ∧ longcmp (bkey nd pos) k ≠ 0 then some (s, 0)
  -- `bval` behind the pairs reads a long that is zero, if the node has one to spare
  else if pos = g.noPairs ∧ NODELONGS ≤ g.noPairs * (g.keylen + 1) ∨ fill = 0 then none
  else
    let s := s.store node ((shiftLeft (fill - 1 - pos) pos nd).clearpair (fill - 1))
    let s ← afterRemoval remove s key level node (fill - 1)
    some (s, nd.val pos)

/-- `btree_remove_level`; NULL is 0. -/
def btreeRemoveLevel : Nat → Head g → KeyPtr g.keylen → Nat → Option (Head g × Word)
  | 0, _, _, _ => none
  | fuel + 1, s, key, level =>
    if s.height < level then some ({ s with height := 0, node := 0 }, 0)
    else do
      let (s, node) ← findLevel s key level
      removeFrom (btreeRemoveLevel fuel) s key level node

/-- `btree_remove` -/
def btreeRemove (s : Head g) (key : Key g.keylen) : Option (Head g × Word) :=
  if s.height = 0 then some (s, 0) else btreeRemoveLevel (s.height + 1) s (.arg key) 1

end SilanKernel.Btree
