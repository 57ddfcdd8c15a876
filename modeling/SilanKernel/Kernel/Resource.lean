import SilanKernel.Data.Memory

/-!
# SilanKernel.Kernel.Resource

A model of the **resource tree** of `kernel/resource.c`: `request_resource`, `insert_resource`,
`insert_resource_expand_to_fit` and `release_resource`.

A resource points to its parent, its first child and its next sibling. The lock around each call
is left out, since a call is one step here, and so are names, flags and messages. `none` stands
for a null pointer that is followed and for a loop that has not ended after `loopBound` turns.
-/

namespace SilanKernel.ResourceTree

open Memory

def EINVAL : Int := 22
def EBUSY : Int := 16

/-- `struct resource` -/
structure Resource where
  start : Nat
  end_ : Nat
  parent : Ptr
  sibling : Ptr
  child : Ptr
  deriving DecidableEq, Repr

/-- What a `struct resource **` points to. -/
inductive Slot where
  | child (owner : Ptr)
  | sibling (owner : Ptr)
  deriving DecidableEq, Repr

variable (h : Mem Resource)

def readSlot : Slot → Option Ptr
  | .child r => (load h r).map Resource.child
  | .sibling r => (load h r).map Resource.sibling

def writeSlot (slot : Slot) (v : Ptr) : Option (Mem Resource) :=
  match slot with
  | .child r => modify h r fun n => { n with child := v }
  | .sibling r => modify h r fun n => { n with sibling := v }

/-- `new` is put into the slot, before `tmp`. -/
def linkBefore (root new tmp : Ptr) (slot : Slot) : Option (Mem Resource) := do
  let h ← modify h new fun n => { n with sibling := tmp }
  let h ← writeSlot h slot new
  modify h new fun n => { n with parent := root }

/-- The loop of `__request_resource`. -/
def requestLoop (fuel : Nat) (h : Mem Resource) (root new : Ptr) (start end_ : Nat) (slot : Slot) :
    Option (Mem Resource × Ptr) :=
  match fuel with
  | 0 => none
  | fuel + 1 =>
    (readSlot h slot).bind fun tmp =>
      if tmp = 0 ∨ end_ < (h tmp).start then
        (linkBefore h root new tmp slot).bind fun h => some (h, 0)
      else if (h tmp).end_ < start then requestLoop fuel h root new start end_ (.sibling tmp)
      else some (h, tmp)

/-- `__request_resource`: the result is the conflicting resource or null. -/
def requestResourceConflict (root new : Ptr) : Option (Mem Resource × Ptr) := do
  let n ← load h new
  if n.end_ < n.start then some (h, root)
  else do
    let r ← load h root
    if n.start < r.start then some (h, root)
    else if r.end_ < n.end_ then some (h, root)
    else requestLoop loopBound h root new n.start n.end_ (.child root)

/-- How the first loop of `__insert_resource` is left: by a `return`, or at a `first` that does
not contain the new resource. -/
inductive Descent where
  | ret (conflict : Ptr)
  | stop (parent first : Ptr)
  deriving DecidableEq, Repr

/-- The first loop of `__insert_resource`. -/
def descend : Nat → Mem Resource → Ptr → Ptr → Option (Mem Resource × Descent)
  | 0, _, _, _ => none
  | fuel + 1, h, parent, new =>
    (requestResourceConflict h parent new).bind fun (h, first) =>
      if first = 0 ∨ first = parent ∨ first = new then some (h, .ret first)
      else
        (load h first).bind fun f =>
          (load h new).bind fun n =>
            if n.start < f.start ∨ f.end_ < n.end_ then some (h, .stop parent first)
            else if f.start = n.start ∧ f.end_ = n.end_ then some (h, .stop parent first)
            else descend fuel h first new

/-- The result of the second loop. -/
inductive Covered where
  | conflict (next : Ptr)
  | last (next : Ptr)
  deriving DecidableEq, Repr

/-- The second loop of `__insert_resource`: the siblings from `next` on that the new resource
covers. -/
def coverLoop : Nat → Mem Resource → Ptr → Ptr → Option Covered
  | 0, _, _, _ => none
  | fuel + 1, h, new, next =>
    (load h next).bind fun x =>
      (load h new).bind fun n =>
        if x.start < n.start ∨ n.end_ < x.end_ then some (.conflict next)
        else if x.sibling = 0 then some (.last next)
        else
          (load h x.sibling).bind fun y =>
            if n.end_ < y.start then some (.last next) else coverLoop fuel h new x.sibling

/-- `for (next = first; next; next = next->sibling) next->parent = new;` -/
def adoptLoop : Nat → Mem Resource → Ptr → Ptr → Option (Mem Resource)
  | 0, _, _, _ => none
  | fuel + 1, h, new, next =>
    if next = 0 then some h
    else
      (modify h next fun n => { n with parent := new }).bind fun h =>
        (load h next).bind fun n => adoptLoop fuel h new n.sibling

/-- `while (next->sibling != first) next = next->sibling;` -/
def prevLoop : Nat → Mem Resource → Ptr → Ptr → Option Ptr
  | 0, _, _, _ => none
  | fuel + 1, h, next, first =>
    (load h next).bind fun n =>
      if n.sibling = first then some next else prevLoop fuel h n.sibling first

/-- The slot that points to `first`, among the children of `parent`. -/
def slotOf (parent first : Ptr) : Option Slot :=
  (load h parent).bind fun p =>
    if p.child = first then some (.child parent)
    else (prevLoop loopBound h p.child first).bind fun next => some (.sibling next)

/-- The last part of `__insert_resource`: the siblings from `first` to `next` become the children
of the new resource. -/
def adopt (parent new first next : Ptr) : Option (Mem Resource) := do
  let x ← load h next
  let h ← modify h new fun n => { n with parent := parent, sibling := x.sibling, child := first }
  let h ← modify h next fun n => { n with sibling := 0 }
  let h ← adoptLoop loopBound h new first
  let slot ← slotOf h parent first
  writeSlot h slot new

/-- `__insert_resource`: the result is the conflicting resource or null. -/
def insertResourceConflict (parent new : Ptr) : Option (Mem Resource × Ptr) :=
  (descend loopBound h parent new).bind fun (h, d) =>
    match d with
    | .ret conflict => some (h, conflict)
    | .stop parent first =>
      (coverLoop loopBound h new first).bind fun c =>
        match c with
        | .conflict next => some (h, next)
        | .last next => (adopt h parent new first next).bind fun h => some (h, 0)

/-- The new resource is made to cover the conflicting one. -/
def expandOver (conflict new : Ptr) : Option (Mem Resource) := do
  let c ← load h conflict
  modify h new fun n => { n with
    start := if c.start < n.start then c.start else n.start
    end_ := if n.end_ < c.end_ then c.end_ else n.end_ }

/-- The loop of `insert_resource_expand_to_fit`. -/
def expandLoop : Nat → Mem Resource → Ptr → Ptr → Option (Mem Resource)
  | 0, _, _, _ => none
  | fuel + 1, h, root, new =>
    (insertResourceConflict h root new).bind fun (h, conflict) =>
      if conflict = 0 ∨ conflict = root then some h
      else (expandOver h conflict new).bind fun h => expandLoop fuel h root new

/-- `insert_resource_expand_to_fit` -/
def insertResourceExpandToFit (root new : Ptr) : Option (Mem Resource) :=
  (load h new).bind fun n => if n.parent ≠ 0 then some h else expandLoop loopBound h root new

/-- The loop of `__release_resource`. -/
def releaseLoop : Nat → Mem Resource → Ptr → Slot → Option (Mem Resource × Int)
  | 0, _, _, _ => none
  | fuel + 1, h, old, slot =>
    (readSlot h slot).bind fun tmp =>
      if tmp = 0 then some (h, -EINVAL)
      else if tmp = old then do
        let t ← load h tmp
        let h ← writeSlot h slot t.sibling
        let h ← modify h old fun n => { n with parent := 0 }
        some (h, 0)
      else releaseLoop fuel h old (.sibling tmp)

/-- `release_resource` -/
def releaseResource (old : Ptr) : Option (Mem Resource × Int) :=
  (load h old).bind fun o => releaseLoop loopBound h old (.child o.parent)

/-- `request_resource` and `insert_resource` return this for the conflict they find. -/
def busy (conflict : Ptr) : Int := if conflict = 0 then 0 else -EBUSY

/-- The calls. Before a call that takes a new resource, the caller fills it in. -/
inductive ResCall where
  | request (root new : Ptr) (r : Resource)
  | insert (parent new : Ptr) (r : Resource)
  | insertExpandToFit (root new : Ptr) (r : Resource)
  | release (old : Ptr)
  deriving DecidableEq, Repr

/-- One call, with what it returns; `insert_resource_expand_to_fit` returns nothing. -/
def resStep (h : Mem Resource) : ResCall → Option (Mem Resource × Int)
  | .request root new r =>
    (requestResourceConflict (put h new r) root new).map fun (h, conflict) => (h, busy conflict)
  | .insert parent new r =>
    (insertResourceConflict (put h new r) parent new).map fun (h, conflict) => (h, busy conflict)
  | .insertExpandToFit root new r =>
    (insertResourceExpandToFit (put h new r) root new).map fun h => (h, 0)
  | .release old => releaseResource h old

end SilanKernel.ResourceTree
