import SilanKernel.Data.Buddy
import SilanKernel.Data.Run

/-!
# SilanKernel.Mm.PageAlloc

The **buddy allocator** of `mm/page_alloc.c`: `__free_one_page`, `expand`,
`__rmqueue_smallest`, `__rmqueue_fallback` with `move_freepages`, and `__rmqueue`.

A page is its frame number. What the allocator keeps in `struct page` (the buddy
mark in `_mapcount`, the order in `private`) is a function of it, for the pages of
every zone; what it keeps in `struct zone` are the free lists, one per order and
migrate type, and the count of each order. `list_del` takes a page off whatever
list it is on.

Without `CONFIG_HOLES_IN_ZONE`, as here, `pfn_valid_within` is constantly true.
`MAX_ORDER`, `pageblock_order` and `page_group_by_mobility_disabled` are parameters.
The trace points, the zone statistics and the `VM_BUG_ON` checks, which are
compiled out, are left out.
-/

namespace SilanKernel.Mm

/-- `MIGRATE_*`, in the order of their numbers. -/
inductive MigrateType where
  | unmovable
  | reclaimable
  | movable
  | reserve
  | isolate
  deriving DecidableEq, Repr

/-- What does not change while the allocator runs. -/
structure ZoneCfg where
  /-- `MAX_ORDER` -/
  maxOrder : Nat
  pageblockOrder : Nat
  /-- `page_group_by_mobility_disabled` -/
  mobilityDisabled : Bool
  zoneStartPfn : Nat
  spannedPages : Nat
  /-- The zone that the flags of a page name. -/
  pageZone : Nat → Nat
  zoneId : Nat
  maxOrder_pos : 0 < maxOrder
  /-- `memmap_init_zone` links every page of the span to the zone. -/
  linked : ∀ p, zoneStartPfn ≤ p → p < zoneStartPfn + spannedPages → pageZone p = zoneId

/-- `struct zone`, and what the allocator keeps in the page structs. -/
structure Zone where
  freeList : Nat → MigrateType → List Nat
  nrFree : Nat → Int
  pageBuddy : Nat → Bool
  pagePrivate : Nat → Nat
  /-- The migrate type of each pageblock, by its number. -/
  pageblock : Nat → MigrateType

namespace Zone

/-! ### Lists, counts and marks -/

variable (z : Zone)

def setPageOrder (page order : Nat) : Zone :=
  { z with
    pagePrivate := Function.update z.pagePrivate page order
    pageBuddy := Function.update z.pageBuddy page true }

def rmvPageOrder (page : Nat) : Zone :=
  { z with
    pageBuddy := Function.update z.pageBuddy page false
    pagePrivate := Function.update z.pagePrivate page 0 }

def setList (order : Nat) (migratetype : MigrateType) (l : List Nat) : Zone :=
  { z with
    freeList := fun o m => if o = order ∧ m = migratetype then l else z.freeList o m }

def listDel (page : Nat) : Zone :=
  { z with freeList := fun o m => (z.freeList o m).erase page }

def listAdd (page order : Nat) (migratetype : MigrateType) : Zone :=
  z.setList order migratetype (page :: z.freeList order migratetype)

def listAddTail (page order : Nat) (migratetype : MigrateType) : Zone :=
  z.setList order migratetype (z.freeList order migratetype ++ [page])

def listMove (page order : Nat) (migratetype : MigrateType) : Zone :=
  (z.listDel page).listAdd page order migratetype

/-- `area->nr_free += d` -/
def addFree (order : Nat) (d : Int) : Zone :=
  { z with nrFree := Function.update z.nrFree order (z.nrFree order + d) }

end Zone

variable (c : ZoneCfg)

/-- `pfn_to_bitidx` without `CONFIG_SPARSEMEM`, as the number of a pageblock of the zone. -/
def pfnToBitidx (pfn : Nat) : Nat := (pfn - c.zoneStartPfn) / 2 ^ c.pageblockOrder

variable (z : Zone)

/-- With mobility grouping off every block is unmovable. -/
def setPageblockMigratetype (page : Nat) (migratetype : MigrateType) : Zone :=
  let m := if c.mobilityDisabled then .unmovable else migratetype
  { z with pageblock := Function.update z.pageblock (pfnToBitidx c page) m }

/-! ### Freeing -/

def findBuddyIndex (pageIdx order : Nat) : Nat := pageIdx ^^^ 2 ^ order

def pageIsBuddy (page buddy order : Nat) : Bool :=
  if c.pageZone page ≠ c.pageZone buddy then false
  else z.pageBuddy buddy && z.pagePrivate buddy == order

/-- The variables of `__free_one_page` that its loop changes. -/
structure Merge where
  zone : Zone
  page : Nat
  pageIdx : Nat
  /-- Not set before the first pass; it is not read then. -/
  buddyIdx : Nat
  order : Nat

/-- The loop of `__free_one_page`; the number is `MAX_ORDER - 1 - order`. -/
def mergeLoop : Nat → Merge → Merge
  | 0, m => m
  | n + 1, m =>
    let buddyIdx := findBuddyIndex m.pageIdx m.order
    let buddy := m.page + buddyIdx - m.pageIdx
    if !pageIsBuddy c m.zone m.page buddy m.order then
      { m with buddyIdx := buddyIdx }
    else
      -- Our buddy is free, merge with it and move up one order.
      let zone := (((m.zone.listDel buddy).addFree m.order (-1)).rmvPageOrder buddy)
      let combinedIdx := buddyIdx &&& m.pageIdx
      mergeLoop n
        { zone := zone
          page := m.page + combinedIdx - m.pageIdx
          pageIdx := combinedIdx
          buddyIdx := buddyIdx
          order := m.order + 1 }

/-- Whether the merged block goes to the tail of its list: the buddy of the next
order is free. The higher buddy is counted from `page`, as in the source, and not
from the higher page. -/
def addsToTail (m : Merge) : Bool :=
  if m.order + 2 < c.maxOrder then
    let combinedIdx := m.buddyIdx &&& m.pageIdx
    let higherPage := m.page + combinedIdx - m.pageIdx
    let buddyIdx := findBuddyIndex combinedIdx (m.order + 1)
    let higherBuddy := m.page + buddyIdx - combinedIdx
    pageIsBuddy c m.zone higherPage higherBuddy (m.order + 1)
  else
    false

/-- `__free_one_page`, of a page that is not compound. -/
def freeOnePage (page order : Nat) (migratetype : MigrateType) : Zone :=
  let m := mergeLoop c (c.maxOrder - 1 - order)
    { zone := z, page := page, pageIdx := page % 2 ^ c.maxOrder, buddyIdx := 0, order := order }
  let m := { m with zone := m.zone.setPageOrder m.page m.order }
  let z := if addsToTail c m then m.zone.listAddTail m.page m.order migratetype
    else m.zone.listAdd m.page m.order migratetype
  z.addFree m.order 1

/-! ### Allocating -/

/-- Halves the block of order `high` at `page` until it has order `low`; the upper
halves are freed. -/
def expand (z : Zone) (page low : Nat) : Nat → MigrateType → Zone
  | 0, _ => z
  | high + 1, migratetype =>
    if high + 1 > low then
      let upper := page + 2 ^ high
      expand (((z.listAdd upper high migratetype).addFree high 1).setPageOrder upper high)
        page low high migratetype
    else
      z

/-- The loop of `__rmqueue_smallest`; the number is `MAX_ORDER - current_order`. -/
def rmqueueSmallestLoop (z : Zone) (order : Nat) (migratetype : MigrateType) :
    Nat → Nat → Zone × Option Nat
  | 0, _ => (z, none)
  | n + 1, currentOrder =>
    match z.freeList currentOrder migratetype with
    | [] => rmqueueSmallestLoop z order migratetype n (currentOrder + 1)
    | page :: _ =>
      let z := ((z.listDel page).rmvPageOrder page).addFree currentOrder (-1)
      (expand z page order currentOrder migratetype, some page)

/-- `__rmqueue_smallest` -/
def rmqueueSmallest (order : Nat) (migratetype : MigrateType) : Zone × Option Nat :=
  rmqueueSmallestLoop z order migratetype (c.maxOrder - order) order

/-- The last entry of each row, and the row of isolated pages, are not initialised
and so zero. -/
def fallbacks : MigrateType → List MigrateType
  | .unmovable => [.reclaimable, .movable, .reserve, .unmovable]
  | .reclaimable => [.unmovable, .movable, .reserve, .unmovable]
  | .movable => [.reclaimable, .unmovable, .reserve, .unmovable]
  | .reserve => [.reserve, .reserve, .reserve, .unmovable]
  | .isolate => [.unmovable, .unmovable, .unmovable, .unmovable]

/-- The loop of `move_freepages`; every pass moves `page` on. -/
def moveLoop (endPage : Nat) (migratetype : MigrateType) : Nat → Zone → Nat → Nat → Zone × Nat
  | 0, z, _, moved => (z, moved)
  | n + 1, z, page, moved =>
    if page ≤ endPage then
      if !z.pageBuddy page then
        moveLoop endPage migratetype n z (page + 1) moved
      else
        let order := z.pagePrivate page
        moveLoop endPage migratetype n (z.listMove page order migratetype)
          (page + 2 ^ order) (moved + 2 ^ order)
    else
      (z, moved)

/-- `none` where the check that both ends are in one zone stops the kernel. -/
def moveFreepages (startPage endPage : Nat) (migratetype : MigrateType) :
    Option (Zone × Nat) :=
  if c.pageZone startPage ≠ c.pageZone endPage then none
  else some (moveLoop endPage migratetype (endPage + 1 - startPage) z startPage 0)

def moveFreepagesBlock (page : Nat) (migratetype : MigrateType) :
    Option (Zone × Nat) :=
  let startPfn := page - page % 2 ^ c.pageblockOrder
  let endPfn := startPfn + 2 ^ c.pageblockOrder - 1
  -- Do not cross zone boundaries.
  let startPage := if startPfn < c.zoneStartPfn then page else startPfn
  if endPfn ≥ c.zoneStartPfn + c.spannedPages then some (z, 0)
  else moveFreepages c z startPage endPfn migratetype

/-- `change_pageblock_range`, whose count is `1 << (start_order - pageblock_order)`. -/
def changePageblockRange (migratetype : MigrateType) : Nat → Zone → Nat → Zone
  | 0, z, _ => z
  | n + 1, z, page =>
    changePageblockRange migratetype n (setPageblockMigratetype c z page migratetype)
      (page + 2 ^ c.pageblockOrder)

/-- The body of `__rmqueue_fallback` once a list is found not to be empty: take its
first block, with the rest of its pageblock where the block is large. -/
def stealFallback (order currentOrder page : Nat)
    (startMigratetype migratetype : MigrateType) : Option (Zone × Option Nat) := do
  let z := z.addFree currentOrder (-1)
  let (z, migratetype) ←
    if c.pageblockOrder / 2 ≤ currentOrder ∨ startMigratetype = .reclaimable ∨
        c.mobilityDisabled then do
      let (z, pages) ← moveFreepagesBlock c z page startMigratetype
      -- Claim the whole block if over half of it is free.
      let z := if 2 ^ (c.pageblockOrder - 1) ≤ pages ∨ c.mobilityDisabled then
        setPageblockMigratetype c z page startMigratetype else z
      pure (z, startMigratetype)
    else
      pure (z, migratetype)
  let z := (z.listDel page).rmvPageOrder page
  let z := if c.pageblockOrder ≤ currentOrder then
    changePageblockRange c startMigratetype (2 ^ (currentOrder - c.pageblockOrder)) z page
    else z
  pure (expand z page order currentOrder migratetype, some page)

/-- The inner loop of `__rmqueue_fallback`, over a row of `fallbacks`; `none` where
no list of this order can be used. -/
def findFallback (z : Zone) (currentOrder : Nat) :
    List MigrateType → Option (Nat × MigrateType)
  | [] => none
  | migratetype :: rest =>
    -- `MIGRATE_RESERVE` is handled later if necessary.
    if migratetype = .reserve then findFallback z currentOrder rest
    else
      match z.freeList currentOrder migratetype with
      | [] => findFallback z currentOrder rest
      | page :: _ => some (page, migratetype)

/-- The outer loop of `__rmqueue_fallback`, from the largest order down to `order`; the
number is `current_order + 1 - order`. -/
def rmqueueFallbackLoop (z : Zone) (order : Nat) (startMigratetype : MigrateType) :
    Nat → Option (Zone × Option Nat)
  | 0 => some (z, none)
  | n + 1 =>
    match findFallback z (order + n) (fallbacks startMigratetype) with
    | none => rmqueueFallbackLoop z order startMigratetype n
    | some (page, migratetype) =>
      stealFallback c z order (order + n) page startMigratetype migratetype

/-- `__rmqueue_fallback` -/
def rmqueueFallback (order : Nat) (startMigratetype : MigrateType) :
    Option (Zone × Option Nat) :=
  rmqueueFallbackLoop c z order startMigratetype (c.maxOrder - order)

/-- `__rmqueue`. The reserve is tried last, where nothing falls back any more. -/
def rmqueue (order : Nat) (migratetype : MigrateType) : Option (Zone × Option Nat) :=
  match rmqueueSmallest c z order migratetype with
  | (z, some page) => some (z, some page)
  | (z, none) =>
    if migratetype = .reserve then some (z, none)
    else
      match rmqueueFallback c z order migratetype with
      | none => none
      | some (z, some page) => some (z, some page)
      | some (z, none) => some (rmqueueSmallest c z order .reserve)

end SilanKernel.Mm
