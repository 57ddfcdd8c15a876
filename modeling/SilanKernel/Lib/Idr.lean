import SilanKernel.Data.Memory

/-!
# SilanKernel.Lib.Idr

The **id allocator** of `lib/idr.c`, for a machine with 32-bit words (`IDR_BITS` is 5).

A pointer in the tree is NULL, an item or a layer; a layer is owned by the one slot that points to
it, so that the tree is a value. The array `pa` of the layers above the one a walk has reached is a
list of these layers, each with the slot of it that the walk took; to go back up is to put the layer
back into that slot (`plug`). An `int` is given by its bit pattern, a number below `2 ^ 32`.

To take an item for a layer is a fault, and a fault, a `BUG_ON` that fires and a loop that has not
ended after `loopBound` turns are `none`. Locks and RCU are left out: a layer that is freed is free
at once.
-/

namespace SilanKernel.IdTree

open Memory (loopBound)

def IDR_BITS : Nat := 5

def IDR_SIZE : Nat := 2 ^ IDR_BITS

def IDR_MASK : Nat := IDR_SIZE - 1

def MAX_ID_BIT : Nat := 2 ^ 31

def MAX_ID_MASK : Nat := MAX_ID_BIT - 1

def MAX_LEVEL : Nat := 7

def IDR_NOMORE_SPACE : Int := -3

def IDR_FREE_MAX : Nat := MAX_LEVEL + MAX_LEVEL

def EAGAIN : Int := 11
def ENOSPC : Int := 28
def EINVAL : Int := 22
def ENOENT : Int := 2

/-- `struct idr_layer`, with the pointers of type `P`. -/
structure Layer (P : Type) where
  bitmap : Nat → Bool
  ary : Nat → P
  count : Int
  layer : Nat

/-- What a slot holds. -/
inductive Entry (α : Type) where
  | null
  | item (v : α)
  | node (p : Layer (Entry α))

abbrev Node (α : Type) := Layer (Entry α)

/-- `pa`, from the layer below the top down. -/
abbrev Path (α : Type) := List (Node α × Nat)

/-- `struct idr`; `id_free_cnt` is the length of the list. -/
structure Idr (α : Type) where
  top : Entry α
  idFree : List (Node α)
  layers : Nat

/-- `idr_init` -/
def idrInit (α : Type) : Idr α := { top := .null, idFree := [], layers := 0 }

variable {α : Type}

/-! ### Layers -/

/-- A layer as `kmem_cache_zalloc` returns it. -/
def Layer.zero : Node α where
  bitmap := fun _ => false
  ary := fun _ => .null
  count := 0
  layer := 0

variable (p : Node α)

def Layer.put (n : Nat) (e : Entry α) : Node α :=
  { p with ary := Function.update p.ary n e }

/-- A new layer in an empty slot. -/
def Layer.adopt (n : Nat) (new : Node α) : Node α :=
  { p.put n (.node new) with count := p.count + 1 }

/-- `__set_bit` -/
def Layer.setBit (n : Nat) : Node α :=
  { p with bitmap := Function.update p.bitmap n true }

/-- `__clear_bit` -/
def Layer.clearBit (n : Nat) : Node α :=
  { p with bitmap := Function.update p.bitmap n false }

/-- `p->bitmap == IDR_FULL` -/
def Layer.isFull : Bool := (List.range IDR_SIZE).all p.bitmap

/-- The layer `p` back in its place. -/
def plug (p : Node α) : Path α → Node α
  | [] => p
  | (q, n) :: pa => plug (q.put n (.node p)) pa

/-- `find_next_bit` -/
def findNextBit (bits : Nat → Bool) (size offset : Nat) : Nat :=
  ((List.range size).find? fun i => decide (offset ≤ i) && bits i).getD size

/-- `(id >> (IDR_BITS * l)) & IDR_MASK` -/
def slotIndex (l id : Nat) : Nat := (id >>> (IDR_BITS * l)) &&& IDR_MASK

/-- The comparison of `int`s, `id >= v`. -/
def intGe (id v : Nat) : Bool := decide (id < 2 ^ 31) && decide (v ≤ id)

/-! ### The slab cache and the free list -/

/-- `sizeof(struct idr_layer)` -/
def layerSize : Nat := 148

/-- `idr_layer_cache`: the number of layers in use. -/
structure Cache where
  inUse : Nat

variable (c : Cache)

/-- `kmem_cache_zalloc`. Layers do not overlap, so that no more are in use than fit into the address
space of `2 ^ 32` bytes; that is less than the layers of a tree that is full. -/
def kmemCacheZalloc (granted : Bool) : Option Cache :=
  if granted && decide ((c.inUse + 1) * layerSize ≤ 2 ^ 32) then some ⟨c.inUse + 1⟩ else none

/-- `kmem_cache_free` -/
def kmemCacheFree : Cache := ⟨c.inUse - 1⟩

/-- `get_from_free_list`; the first slot is the link of the list. -/
def getFromFreeList (free : List (Node α)) : Option (Node α × List (Node α)) :=
  match free with
  | [] => none
  | p :: free => some (p.put 0 .null, free)

/-- `idr_pre_get`, with the outcomes of the allocations. -/
def idrPreGet (c : Cache) (s : Idr α) (granted : List Bool) : Cache × Idr α × Int :=
  if s.idFree.length < IDR_FREE_MAX then
    match granted with
    | [] => (c, s, 0)
    | g :: granted =>
      match kmemCacheZalloc c g with
      | none => (c, s, 0)
      | some c => idrPreGet c { s with idFree := Layer.zero :: s.idFree } granted
  else (c, s, 1)

/-! ### Allocation -/

/-- What `sub_alloc` comes to: an id and the layers down to its slot, or one of the values -1,
`IDR_NEED_TO_GROW` and `IDR_NOMORE_SPACE`, and the tree. -/
inductive Alloc (α : Type) where
  | slot (id : Nat) (leaf : Node α) (pa : Path α)
  | noMemory (top : Node α)
  | needToGrow (id : Nat) (top : Node α)
  | noMoreSpace (top : Node α)

/-- `(id | ((1 << (IDR_BITS * l)) - 1)) + 1` -/
def nextBlock (id l : Nat) : Nat := ((id ||| (2 ^ (IDR_BITS * l) - 1)) + 1) % 2 ^ 32

/-- The loop of `sub_alloc`; `restart` is to begin at the top again. -/
def subAllocLoop (layers : Nat) :
    Nat → List (Node α) → Nat → Nat → Node α → Path α → Option (Alloc α × List (Node α))
  | 0, _, _, _, _, _ => none
  | fuel + 1, free, id, l, p, pa =>
    let n := slotIndex l id
    let m := findNextBit (fun i => !p.bitmap i) IDR_SIZE n
    if m = IDR_SIZE then
      -- No space available: go back to the previous layer.
      let next := nextBlock id (l + 1)
      if intGe next (2 ^ (layers * IDR_BITS)) then some (.needToGrow next (plug p pa), free)
      else
        match pa with
        | [] => none
        | (q, k) :: pa =>
          let q := q.put k (.node p)
          if id >>> (IDR_BITS * (l + 2)) = next >>> (IDR_BITS * (l + 2)) then
            subAllocLoop layers fuel free next (l + 1) q pa
          else subAllocLoop layers fuel free next (layers - 1) (plug q pa) []
    else
      let id := if m ≠ n then ((id >>> (IDR_BITS * l)) ^^^ n ^^^ m) <<< (IDR_BITS * l) else id
      if id ≥ MAX_ID_BIT then some (.noMoreSpace (plug p pa), free)
      else if l = 0 then some (.slot id p pa, free)
      else
        match p.ary m with
        | .node c => subAllocLoop layers fuel free id (l - 1) c ((p, m) :: pa)
        | .item _ => none
        | .null =>
          -- Create the layer below if it is missing.
          match getFromFreeList free with
          | none => some (.noMemory (plug p pa), free)
          | some (new, free) =>
            let new := { new with layer := l - 1 }
            subAllocLoop layers fuel free id (l - 1) new ((p.adopt m new, m) :: pa)

/-- The new layer `new` over the layer `p`. -/
def Layer.over (new p : Node α) (layers : Nat) : Node α :=
  let new := { new.put 0 (.node p) with count := 1, layer := layers }
  if p.isFull then new.setBit 0 else new

/-- The tree that was built over the top of the old one, `added` layers, is torn down. -/
def tearDown : Nat → Entry α → List (Node α) → List (Node α)
  | added + 1, .node new, free =>
    tearDown added (new.ary 0)
      ({ new.put 0 .null with bitmap := fun _ => false, count := 0 } :: free)
  | _, _, free => free

/-- The loop of `idr_get_empty_slot` that adds layers at the top; `none` inside is a layer that is
missing. -/
def growLoop (id : Nat) :
    Nat → List (Node α) → Node α → Nat → Nat → Option (List (Node α) × Option (Node α × Nat))
  | 0, _, _, _, _ => none
  | fuel + 1, free, p, layers, added =>
    if decide (layers < MAX_LEVEL - 1) && intGe id (2 ^ (layers * IDR_BITS)) then
      if p.count = 0 then growLoop id fuel free { p with layer := p.layer + 1 } (layers + 1) added
      else
        match getFromFreeList free with
        | none => some (tearDown added (.node p) free, none)
        | some (new, free) =>
          growLoop id fuel free (new.over p layers) (layers + 1) (added + 1)
    else some (free, some (p, layers))

variable (s : Idr α)

/-- The first layer of the tree and the number of layers, with a new layer if there is none. -/
def topLayer : Option (Option (Node α × Nat × List (Node α))) :=
  match s.top with
  | .node p => some (some (p, s.layers, s.idFree))
  | .item _ => none
  | .null =>
    match getFromFreeList s.idFree with
    | none => some none
    | some (p, free) => some (some ({ p with layer := 0 }, 1, free))

/-- What `idr_get_empty_slot` comes to: an id and the layers down to its slot, or a negative
value. -/
inductive Empty (α : Type) where
  | slot (s : Idr α) (id : Nat) (leaf : Node α) (pa : Path α)
  | error (s : Idr α) (rc : Int)

/-- The loop of `idr_get_empty_slot` over the label `build_up`. -/
def buildUp : Nat → Idr α → Nat → Option (Empty α)
  | 0, _, _ => none
  | fuel + 1, s, id =>
    (topLayer s).bind fun first =>
      match first with
      | none => some (.error s (-1))
      | some (p, layers, free) =>
        (growLoop id MAX_LEVEL free p layers 0).bind fun (free, grown) =>
          match grown with
          | none => some (.error { s with idFree := free } (-1))
          | some (p, layers) =>
            (subAllocLoop layers loopBound free id (layers - 1) p []).bind fun (v, free) =>
              match v with
              | .needToGrow id top => buildUp fuel ⟨.node top, free, layers⟩ id
              | .slot id leaf pa => some (.slot ⟨.node (plug leaf pa), free, layers⟩ id leaf pa)
              | .noMemory top => some (.error ⟨.node top, free, layers⟩ (-1))
              | .noMoreSpace top => some (.error ⟨.node top, free, layers⟩ IDR_NOMORE_SPACE)

/-- `idr_get_empty_slot` -/
def idrGetEmptySlot (startingId : Nat) : Option (Empty α) := buildUp loopBound s startingId

/-- The loop of `idr_mark_full`: a full layer is marked in the layer above. -/
def markUp : Node α → Path α → Nat → Node α
  | p, [], _ => p
  | p, (q, n) :: pa, id =>
    if p.isFull then
      markUp ((q.put n (.node p)).setBit ((id >>> IDR_BITS) &&& IDR_MASK)) pa (id >>> IDR_BITS)
    else plug p ((q, n) :: pa)

/-- `idr_mark_full`, with `leaf` for `pa[0]`. -/
def idrMarkFull (leaf : Node α) (pa : Path α) (id : Nat) : Node α :=
  markUp (leaf.setBit (id &&& IDR_MASK)) pa id

/-- A pointer of the caller. -/
def Entry.ofPtr : Option α → Entry α
  | none => .null
  | some v => .item v

/-- `idr_get_new_above_int` -/
def idrGetNewAboveInt (ptr : Option α) (startingId : Nat) : Option (Idr α × Int) :=
  (idrGetEmptySlot s startingId).bind fun found =>
    match found with
    | .slot s id leaf pa =>
      let leaf := { leaf.put (id &&& IDR_MASK) (.ofPtr ptr) with count := leaf.count + 1 }
      some ({ s with top := .node (idrMarkFull leaf pa id) }, id)
    | .error s rc => some (s, rc)

/-- `_idr_rc_to_errno` -/
def idrRcToErrno (rc : Int) : Int := if rc = -1 then -EAGAIN else -ENOSPC

/-- `idr_get_new_above`: an error code, or the new id. -/
def idrGetNewAbove (ptr : Option α) (startingId : Nat) : Option (Idr α × Except Int Nat) :=
  (idrGetNewAboveInt s ptr startingId).bind fun (s, rv) =>
    if rv < 0 then some (s, .error (idrRcToErrno rv)) else some (s, .ok rv.toNat)

/-- `idr_get_new`, the same from 0 on. -/
def idrGetNew (ptr : Option α) : Option (Idr α × Except Int Nat) :=
  (idrGetNewAboveInt s ptr 0).bind fun (s, rv) =>
    if rv < 0 then some (s, .error (idrRcToErrno rv)) else some (s, .ok rv.toNat)

/-! ### Removal -/

/-- The walk down to the layer of an id, `l` layers, with what it does to the layers on its way. -/
def descend (visit : Node α → Nat → Node α) (id : Nat) :
    Nat → Entry α → Path α → Option (Entry α × Path α)
  | l + 1, .node p, pa =>
    descend visit id l (p.ary (slotIndex (l + 1) id))
      ((visit p (slotIndex (l + 1) id), slotIndex (l + 1) id) :: pa)
  | _ + 1, .item _, _ => none
  | _ + 1, .null, pa => some (.null, pa)
  | 0, e, pa => some (e, pa)

/-- What a walk ended at, back in its place. -/
def plugEntry (e : Entry α) : Path α → Entry α
  | [] => e
  | (q, n) :: pa => .node (plug (q.put n e) pa)

/-- `--count` -/
def Layer.release : Node α := { p with count := p.count - 1 }

/-- The loop of `sub_remove` that frees the layers whose count comes to zero; true if none is
left. -/
def releaseLoop : Cache → Node α → Path α → Cache × Entry α × Bool
  | c, p, [] =>
    if p.release.count = 0 then (kmemCacheFree c, .null, true) else (c, .node p.release, false)
  | c, p, (q, n) :: pa =>
    if p.release.count = 0 then releaseLoop (kmemCacheFree c) (q.put n .null) pa
    else (c, .node (plug p.release ((q, n) :: pa)), false)

/-- `sub_remove`, with the number of layers for the shift. -/
def subRemove (id : Nat) : Option (Cache × Idr α) :=
  (descend Layer.clearBit id (s.layers - 1) s.top []).bind fun (e, pa) =>
    match e with
    | .item _ => none
    | .null => some (c, { s with top := plugEntry .null pa })
    | .node p =>
      let n := id &&& IDR_MASK
      if p.bitmap n then
        let (c, top, gone) := releaseLoop c ((p.clearBit n).put n .null) pa
        some (c, { s with top := top, layers := if gone then 0 else s.layers })
      else some (c, { s with top := plugEntry (.node p) pa })

def Entry.isNull : Entry α → Bool
  | .null => true
  | _ => false

/-- A single child at the leftmost slot: the tree can be shrunk. -/
def shrinkTop : Cache × Idr α :=
  match s.top with
  | .node p =>
    if p.count = 1 ∧ s.layers > 1 ∧ !(p.ary 0).isNull then
      (kmemCacheFree c, { s with top := p.ary 0, layers := s.layers - 1 })
    else (c, s)
  | _ => (c, s)

/-- What `idr_remove` takes from the free list. -/
def trimFree : Cache → List (Node α) → Cache × List (Node α)
  | c, [] => (c, [])
  | c, p :: free =>
    if (p :: free).length ≥ IDR_FREE_MAX then trimFree (kmemCacheFree c) free else (c, p :: free)

/-- `idr_remove` -/
def idrRemove (id : Nat) : Option (Cache × Idr α) :=
  (subRemove c s (id &&& MAX_ID_MASK)).bind fun (c, s) =>
    let (c, s) := shrinkTop c s
    let (c, free) := trimFree c s.idFree
    some (c, { s with idFree := free })

/-! ### Lookup -/

/-- The loop of `idr_find`, from a layer that should be `l` layers high. -/
def findLoop (id : Nat) : Nat → Entry α → Option (Entry α)
  | 0, e => some e
  | l + 1, .node p => if p.layer ≠ l then none else findLoop id l (p.ary (slotIndex l id))
  | _ + 1, .item _ => none
  | _ + 1, .null => some .null

/-- `idr_find` -/
def idrFind (id : Nat) : Option (Entry α) :=
  match s.top with
  | .null => some .null
  | .item _ => none
  | .node p =>
    let id := id &&& MAX_ID_MASK
    if intGe id (2 ^ ((p.layer + 1) * IDR_BITS)) then some .null
    else findLoop id (p.layer + 1) s.top

/-- `idr_replace`: an error code, or the old pointer. -/
def idrReplace (ptr : Option α) (id : Nat) : Option (Idr α × Except Int (Entry α)) :=
  match s.top with
  | .null => some (s, .error (-EINVAL))
  | .item _ => none
  | .node p =>
    let id := id &&& MAX_ID_MASK
    if intGe id (2 ^ ((p.layer + 1) * IDR_BITS)) then some (s, .error (-EINVAL))
    else
      (descend (fun q _ => q) id p.layer s.top []).bind fun (e, pa) =>
        match e with
        | .item _ => none
        | .null => some (s, .error (-ENOENT))
        | .node leaf =>
          let n := id &&& IDR_MASK
          if leaf.bitmap n then
            some ({ s with top := .node (plug (leaf.put n (.ofPtr ptr)) pa) }, .ok (leaf.ary n))
          else some (s, .error (-ENOENT))

/-!
### The ida

The allocator of **ids without pointers** of `lib/idr.c`.

The ids are bits of bitmaps of 992 bits, and the bitmaps hang off an idr whose bits say which
bitmaps are full. A bitmap is a value owned by its slot. Of the spare bitmap only the presence is
kept: its bits are set to zero before it is used.
-/

/-- `IDA_BITMAP_BITS`, of 31 words of 32 bits. -/
def IDA_BITMAP_BITS : Nat := 992

/-- `struct ida_bitmap` -/
structure IdaBitmap where
  nrBusy : Int
  bitmap : Nat → Bool

/-- A bitmap after `memset`. -/
def IdaBitmap.zero : IdaBitmap := { nrBusy := 0, bitmap := fun _ => false }

/-- The bit `t` is set and counted. -/
def IdaBitmap.take (b : IdaBitmap) (t : Nat) : IdaBitmap :=
  { nrBusy := b.nrBusy + 1, bitmap := Function.update b.bitmap t true }

/-- The bit `t` is cleared and no longer counted. -/
def IdaBitmap.drop (b : IdaBitmap) (t : Nat) : IdaBitmap :=
  { nrBusy := b.nrBusy - 1, bitmap := Function.update b.bitmap t false }

/-- `struct ida` -/
structure Ida where
  idr : Idr IdaBitmap
  freeBitmap : Bool

/-- `ida_init` -/
def idaInit : Ida := { idr := idrInit IdaBitmap, freeBitmap := false }

/-- `free_bitmap`: the bitmap becomes the spare one, or is freed. -/
def freeBitmap (a : Ida) : Ida := { a with freeBitmap := true }

/-- `ida_pre_get`, with the outcomes of the allocations. -/
def idaPreGet (a : Ida) (granted : List Bool) (bitmap : Bool) : Cache × Ida × Int :=
  let (c, idr, r) := idrPreGet c a.idr granted
  let a := { a with idr := idr }
  if r = 0 then (c, a, 0)
  else if a.freeBitmap then (c, a, 1)
  else if bitmap then (c, freeBitmap a, 1)
  else (c, a, 0)

/-- The bitmap in the slot `n` of `leaf`, with the leaf and whether there still is a spare bitmap: a
new bitmap is put there if there is none. -/
inductive BitmapAt where
  | found (bitmap : IdaBitmap) (leaf : Node IdaBitmap) (spare : Bool)
  | noMemory

def bitmapAt (leaf : Node IdaBitmap) (n : Nat) (spare : Bool) : Option BitmapAt :=
  match leaf.ary n with
  | .node _ => none
  | .item bitmap => some (.found bitmap leaf spare)
  | .null =>
    if spare then
      some (.found .zero { leaf.put n (.item .zero) with count := leaf.count + 1 } false)
    else some .noMemory

/-- Extra resources are thrown away one by one. -/
def throwAway (a : Ida) : Cache × Ida :=
  if a.idr.idFree.length ≠ 0 ∨ a.freeBitmap then
    match getFromFreeList a.idr.idFree with
    | none => (c, a)
    | some (_, free) => (kmemCacheFree c, { a with idr := { a.idr with idFree := free } })
  else (c, a)

/-- The bit `t` is taken in the bitmap of the slot `idrId`. -/
def takeBit (idr : Idr IdaBitmap) (leaf : Node IdaBitmap) (pa : Path IdaBitmap) (bitmap : IdaBitmap)
    (idrId t : Nat) :
    Idr IdaBitmap :=
  let leaf := leaf.put (idrId &&& IDR_MASK) (.item (bitmap.take t))
  let top := if (bitmap.take t).nrBusy = IDA_BITMAP_BITS then idrMarkFull leaf pa idrId
    else plug leaf pa
  { idr with top := .node top }

/-- The loop of `ida_get_new_above` over the label `restart`: an error code, or the new id. -/
def idaLoop : Nat → Cache → Ida → Nat → Nat → Option (Cache × Ida × Except Int Nat)
  | 0, _, _, _, _ => none
  | fuel + 1, c, a, idrId, offset =>
    (idrGetEmptySlot a.idr idrId).bind fun found =>
      match found with
      | .error idr rc => some (c, { a with idr := idr }, .error (idrRcToErrno rc))
      | .slot idr t leaf pa =>
        if t * IDA_BITMAP_BITS % 2 ^ 32 ≥ MAX_ID_BIT then
          some (c, { a with idr := idr }, .error (-ENOSPC))
        else
          let offset := if t ≠ idrId then 0 else offset
          (bitmapAt leaf (t &&& IDR_MASK) a.freeBitmap).bind fun slot =>
            match slot with
            | .noMemory => some (c, { a with idr := idr }, .error (-EAGAIN))
            | .found bitmap leaf spare =>
              let bit := findNextBit (fun i => !bitmap.bitmap i) IDA_BITMAP_BITS offset
              let a := { idr := { idr with top := .node (plug leaf pa) }, freeBitmap := spare }
              -- No empty slot after the offset: on to the next chunk.
              if bit = IDA_BITMAP_BITS then idaLoop fuel c a (t + 1) 0
              else
                let id := (t * IDA_BITMAP_BITS + bit) % 2 ^ 32
                if id ≥ MAX_ID_BIT then some (c, a, .error (-ENOSPC))
                else
                  let (c, a) := throwAway c { a with idr := takeBit idr leaf pa bitmap t bit }
                  some (c, a, .ok id)

/-- `ida_get_new_above` -/
def idaGetNewAbove (a : Ida) (startingId : Nat) : Option (Cache × Ida × Except Int Nat) :=
  idaLoop loopBound c a (startingId / IDA_BITMAP_BITS) (startingId % IDA_BITMAP_BITS)

/-- What `ida_remove` does at the leaf: the bit `offset` is cleared, and a bitmap without bits is
taken out of the idr. -/
def clearAt (a : Ida) (leaf : Node IdaBitmap) (pa : Path IdaBitmap) (idrId offset : Nat) :
    Option (Cache × Ida) :=
  let n := idrId &&& IDR_MASK
  let leaf := leaf.clearBit n
  match leaf.ary n with
  | .null => none
  | .node _ => none
  | .item bitmap =>
    if bitmap.bitmap offset then
      let leaf := leaf.put n (.item (bitmap.drop offset))
      if (bitmap.drop offset).nrBusy = 0 then
        -- The bit is set to please `idr_remove`.
        let idr := { a.idr with top := .node (plug (leaf.setBit n) pa) }
        (idrRemove c idr idrId).bind fun (c, idr) => some (c, freeBitmap { a with idr := idr })
      else some (c, { a with idr := { a.idr with top := .node (plug leaf pa) } })
    else some (c, { a with idr := { a.idr with top := .node (plug leaf pa) } })

/-- `ida_remove` -/
def idaRemove (a : Ida) (id : Nat) : Option (Cache × Ida) :=
  (descend Layer.clearBit (id / IDA_BITMAP_BITS) (a.idr.layers - 1) a.idr.top []).bind
    fun (e, pa) =>
    match e with
    | .item _ => none
    | .null => some (c, { a with idr := { a.idr with top := plugEntry .null pa } })
    | .node leaf => clearAt c a leaf pa (id / IDA_BITMAP_BITS) (id % IDA_BITMAP_BITS)

end SilanKernel.IdTree
