import Advos.Schemes.Linked
import Advos.Schemes.Word

/-! The slab allocator of `slab.c`.

    A cache hands out objects of one size from slabs of eight pages. A slab starts with its header and
    one mark byte an object (1 is free), then come the objects:

        slab ─▶ | header 32 | marks nobjs | … | objects, from a multiple of 64 on      |  32 KiB

    and is linked, through its header, into one of three lists of its cache: `partial`, `full` (no
    object in use) and `empty` (all in use). Caches are found by name in a binary tree.

    Headers and caches are cells named by their addresses. The loops over a list run on fuel, one
    step for each slab there is; on a cyclic list the source loops forever and the model answers
    `hang`. -/

namespace Advos.Slab
open Linked Word

/-- `MEMORY_SLAB_NUM_PAGES` pages. -/
def slabBytes : ℕ := 8 * 4096

/-- `sizeof(memory_slab_hdr_t)`. -/
def hdrSize : ℕ := 32

/-- `MEMORY_SLAB_ALIGNMENT`. -/
def slabAlignment : ℕ := 64

/-- `MEMORY_SLAB_CACHE_NAME_MAX`. -/
def nameMax : ℕ := 64

/-- `memory_slab_hdr_t`. -/
structure Hdr where
  next : Option ℕ
  cache : Option ℕ
  nobjs : ℕ
  nused : ℤ
  objHead : ℕ
  marks : List Bool
deriving DecidableEq, Repr

/-- `memory_slab_cache_t`; the search tree is kept apart. -/
structure Cache where
  name : List UInt8
  size : ℕ
  partialHead : Option ℕ
  fullHead : Option ℕ
  emptyHead : Option ℕ
deriving DecidableEq, Repr

/-- The tree of caches that hangs at `slab->root`. -/
inductive CacheTree
  | nil
  | node (left : CacheTree) (cache : ℕ) (right : CacheTree)
deriving Repr

/-- `memory_slab_allocator_t` with the memory behind it. -/
structure Allocator where
  lock : Bool
  root : CacheTree
  cache : ℕ → Cache
  hdr : ℕ → Hdr
  /-- Every slab made so far. -/
  slabs : List ℕ

/-- How a call can fail to return: a failed `kassert` or a trap, or a loop that does not end. -/
inductive Stop
  | panic | hang
deriving DecidableEq, Repr

namespace Allocator

def setHdr (a : Allocator) (s : ℕ) (h : Hdr) : Allocator := { a with hdr := Function.update a.hdr s h }

def setCache (a : Allocator) (c : ℕ) (v : Cache) : Allocator :=
  { a with cache := Function.update a.cache c v }

/-- All `next` links at once. -/
def setNexts (a : Allocator) (next : ℕ → Option ℕ) : Allocator :=
  { a with hdr := fun s => { a.hdr s with next := next s } }

end Allocator

/-- `spin_lock(&slab->lock)`: with the lock taken it waits forever, as nobody else runs. -/
def spinLock (a : Allocator) : Except Stop Allocator :=
  if a.lock then .error .hang else pure { a with lock := true }

/-- `spin_unlock(&slab->lock)`. -/
def spinUnlock (a : Allocator) : Allocator := { a with lock := false }

/-! ### Names -/

/-- A `char` as a number: it is signed. -/
def charVal (c : UInt8) : ℤ := Int.bmod c.toNat 256

/-- `kstrncmp` on strings that end with their last byte. -/
def kstrncmp : ℕ → List UInt8 → List UInt8 → ℤ
  | 0, _, _ => 0
  | _ + 1, [], [] => 0
  | n + 1, s1, s2 =>
    let diff := charVal (s1.headD 0) - charVal (s2.headD 0)
    if diff ≠ 0 then diff else kstrncmp n s1.tail s2.tail

/-- `_find_slab_cache`. -/
def findSlabCache (cache : ℕ → Cache) : CacheTree → List UInt8 → Option ℕ
  | .nil, _ => none
  | .node left c right, name =>
    if kstrncmp nameMax (cache c).name name = 0 then some c
    else if kstrncmp nameMax (cache c).name name < 0 then findSlabCache cache left name
    else findSlabCache cache right name

/-! ### New slabs -/

/-- The number of objects of a slab; one mark byte goes with each object. -/
def objCount (objsize : ℕ) : ℕ := (slabBytes - hdrSize - slabAlignment) / add64 objsize 1

/-- Where the objects of the slab at `pages` start. -/
def objStart (pages nobjs : ℕ) : ℕ :=
  add64 (add64 (add64 pages hdrSize) nobjs) (slabAlignment - 1) / slabAlignment * slabAlignment

/-- The header `_new_slab` writes. -/
def freshHdr (pages objsize : ℕ) : Hdr where
  next := none
  cache := none
  nobjs := objCount objsize
  nused := 0
  objHead := objStart pages (objCount objsize)
  marks := List.replicate (objCount objsize) true

/-- `_new_slab`; `pages` is what `memory_alloc_pages` answered. A division by `objsize + 1 = 0`
    traps. -/
def newSlab (pages : Option ℕ) (objsize : ℕ) (a : Allocator) : Except Stop (Option ℕ × Allocator) :=
  match pages with
  | none => .ok (none, a)
  | some p =>
    if add64 objsize 1 = 0 then .error .panic
    else .ok (some p, { a.setHdr p (freshHdr p objsize) with slabs := p :: a.slabs })

/-! ### Allocation -/

/-- The first part of `_slab_alloc`: with no slab in `partial` and `full`, a new one. The flag says
    whether to go on. -/
def ensureSlab (pages : Option ℕ) (c : ℕ) (a : Allocator) : Except Stop (Bool × Allocator) :=
  if (a.cache c).partialHead = none ∧ (a.cache c).fullHead = none then do
    match ← newSlab pages (a.cache c).size a with
    | (none, a) => pure (false, a)
    | (some s, a) =>
      let a := a.setHdr s { a.hdr s with cache := some c }
      pure (true, a.setCache c { a.cache c with fullHead := some s })
  else pure (true, a)

/-- `partial = full; full = full->next`, when `partial` is NULL. The `next` of the slab stays. -/
def takeFull (c : ℕ) (a : Allocator) : Except Stop Allocator :=
  match (a.cache c).partialHead, (a.cache c).fullHead with
  | some _, _ => pure a
  | none, none => .error .panic
  | none, some s =>
    pure (a.setCache c { a.cache c with partialHead := some s, fullHead := (a.hdr s).next })

/-- The object loop on slab `s`: the first free object is marked used. -/
def takeObject (c s : ℕ) (a : Allocator) : Option ℕ × Allocator :=
  match (a.hdr s).marks.findIdx? id with
  | none => (none, a)
  | some i =>
    (some (add64 (a.hdr s).objHead (mul64 (a.cache c).size i)),
      a.setHdr s { a.hdr s with marks := (a.hdr s).marks.set i false, nused := (a.hdr s).nused + 1 })

/-- The end of `_slab_alloc`: a slab with no object left goes to the `empty` list. -/
def settle (c s : ℕ) (a : Allocator) : Allocator :=
  if (a.hdr s).nused = (a.hdr s).nobjs then
    (a.setHdr s { a.hdr s with next := (a.cache c).emptyHead }).setCache c
      { a.cache c with partialHead := (a.hdr s).next, emptyHead := some s }
  else a

/-- `_slab_alloc` once there is a slab to take from. -/
def allocObject (c : ℕ) (a : Allocator) : Except Stop (Option ℕ × Allocator) := do
  let a ← takeFull c a
  match (a.cache c).partialHead with
  | none => .error .panic
  | some s => pure ((takeObject c s a).1, settle c s (takeObject c s a).2)

/-- `_slab_alloc`. -/
def slabAlloc (pages : Option ℕ) (name : List UInt8) (a : Allocator) :
    Except Stop (Option ℕ × Allocator) :=
  match findSlabCache a.cache a.root name with
  | none => pure (none, a)
  | some c => do
    match ← ensureSlab pages c a with
    | (false, a) => pure (none, a)
    | (true, a) => allocObject c a

/-- `memory_slab_alloc`. -/
def memorySlabAlloc (pages : Option ℕ) (name : List UInt8) (a : Allocator) :
    Except Stop (Option ℕ × Allocator) := do
  let a ← spinLock a
  let (obj, a) ← slabAlloc pages name a
  pure (obj, spinUnlock a)

/-! ### Release -/

/-- The test of `_find_slab_for_object`: the object array of slab `s` holds the address. -/
def holds (a : Allocator) (size obj s : ℕ) : Bool :=
  obj ≥ (a.hdr s).objHead ∧ obj < add64 (a.hdr s).objHead (mul64 size (a.hdr s).nobjs)

/-- `_find_slab_for_object`. -/
def findSlabForObject (a : Allocator) (size : ℕ) (head : Option ℕ) (obj : ℕ) :
    Except Stop (Option ℕ) :=
  match walk (fun s => (a.hdr s).next) (holds a size obj) a.slabs.length head with
  | none => .error .hang
  | some r => pure r

/-- The two searches of `memory_slab_free`, with `wasPartly`. -/
def findOwner (a : Allocator) (c obj : ℕ) : Except Stop (Option (Bool × ℕ)) := do
  match ← findSlabForObject a (a.cache c).size (a.cache c).partialHead obj with
  | some s => pure (some (true, s))
  | none =>
    match ← findSlabForObject a (a.cache c).size (a.cache c).emptyHead obj with
    | some s => pure (some (false, s))
    | none => pure none

/-- The removal loop of `memory_slab_free`, from the list at `head`. -/
def unlinkSlab (a : Allocator) (s : ℕ) (head : Option ℕ) : Except Stop (Option ℕ × Allocator) :=
  match unlink (fun s => (a.hdr s).next) s a.slabs.length head with
  | none => .error .hang
  | some (head, next) => pure (head, a.setNexts next)

/-- `s->marks[idx] = 1; s->nused--`, with the index checked. -/
def putObject (c s obj : ℕ) (a : Allocator) : Except Stop Allocator :=
  if (a.cache c).size = 0 then .error .panic
  else
    let idx := sub64 obj (a.hdr s).objHead / (a.cache c).size
    if idx < (a.hdr s).nobjs then
      pure (a.setHdr s
        { a.hdr s with marks := (a.hdr s).marks.set idx true, nused := (a.hdr s).nused - 1 })
    else .error .panic

/-- From the `empty` to the `partial` list. -/
def emptyToPartial (c s : ℕ) (a : Allocator) : Except Stop Allocator := do
  let (head, a) ← unlinkSlab a s (a.cache c).emptyHead
  let a := a.setHdr s { a.hdr s with next := (a.cache c).partialHead }
  pure (a.setCache c { a.cache c with partialHead := some s, emptyHead := head })

/-- From the `partial` to the `full` list. -/
def partialToFull (c s : ℕ) (a : Allocator) : Except Stop Allocator := do
  let (head, a) ← unlinkSlab a s (a.cache c).partialHead
  let a := a.setHdr s { a.hdr s with next := (a.cache c).fullHead }
  pure (a.setCache c { a.cache c with partialHead := head, fullHead := some s })

/-- `if ( !wasPartly )`. -/
def leaveEmpty (c s : ℕ) (wasPartly : Bool) (a : Allocator) : Except Stop Allocator :=
  if wasPartly then pure a else emptyToPartial c s a

/-- `if ( s->nused == 0 )`. -/
def enterFull (c s : ℕ) (a : Allocator) : Except Stop Allocator :=
  if (a.hdr s).nused = 0 then partialToFull c s a else pure a

/-- `memory_slab_free` once the slab is found. -/
def freeObject (c s obj : ℕ) (wasPartly : Bool) (a : Allocator) : Except Stop (ℤ × Allocator) := do
  let a ← putObject c s obj a
  let a ← leaveEmpty c s wasPartly a
  let a ← enterFull c s a
  pure (0, a)

/-- `memory_slab_free` between lock and unlock: 0, or -1 when the cache or the object is not found. -/
def slabFree (name : List UInt8) (obj : ℕ) (a : Allocator) : Except Stop (ℤ × Allocator) :=
  match findSlabCache a.cache a.root name with
  | none => pure (-1, a)
  | some c => do
    match ← findOwner a c obj with
    | none => pure (-1, a)
    | some (wasPartly, s) => freeObject c s obj wasPartly a

/-- `memory_slab_free`. -/
def memorySlabFree (name : List UInt8) (obj : ℕ) (a : Allocator) : Except Stop (ℤ × Allocator) := do
  let a ← spinLock a
  let (ret, a) ← slabFree name obj a
  pure (ret, spinUnlock a)

/-! ### Runs on one cache -/

/-- The allocator, and the objects of the cache handed out and not freed since. -/
structure Sys where
  alloc : Allocator
  out : List ℕ

/-- Slabs at `s` and `t` share no byte. -/
def Apart (s t : ℕ) : Prop := s + slabBytes ≤ t ∨ t + slabBytes ≤ s

/-- Eight pages that are in no slab yet. -/
def FreshPages (a : Allocator) (p : ℕ) : Prop :=
  p + slabBytes ≤ 2 ^ 64 ∧ ∀ s ∈ a.slabs, Apart p s

/-- One call on the cache `name`: an allocation, in a state that meets `ok` and with whatever the page
    allocator answers, or a release of an object that is out. -/
inductive Step (ok : Allocator → Prop) (name : List UInt8) : Sys → Sys → Prop
  | alloc (st : Sys) (pages : Option ℕ) (hp : ∀ p, pages = some p → FreshPages st.alloc p)
      (hok : ok st.alloc) (obj : Option ℕ) (a : Allocator)
      (h : memorySlabAlloc pages name st.alloc = .ok (obj, a)) :
      Step ok name st ⟨a, obj.toList ++ st.out⟩
  | free (st : Sys) (obj : ℕ) (hmem : obj ∈ st.out) (ret : ℤ) (a : Allocator)
      (h : memorySlabFree name obj st.alloc = .ok (ret, a)) :
      Step ok name st ⟨a, st.out.erase obj⟩

/-- The slabs that belong to cache `c`. -/
def slabsOf (a : Allocator) (c : ℕ) : List ℕ := a.slabs.filter fun s => (a.hdr s).cache = some c

/-- Cache `c`, found under `name`, as `memory_slab_create_cache` leaves it: one slab with every object
    free in `full`. The cache of the caches itself starts with that slab in `partial` and its first
    object in use. -/
structure NewCache (a : Allocator) (name : List UInt8) (c s : ℕ) : Prop where
  found : findSlabCache a.cache a.root name = some c
  unlocked : a.lock = false
  slab : slabsOf a c = [s]
  pages : ∀ t ∈ a.slabs, t + slabBytes ≤ 2 ^ 64
  apart : a.slabs.Pairwise Apart
  lists : (a.cache c).emptyHead = none ∧
    ((a.cache c).partialHead = none ∧ (a.cache c).fullHead = some s ∧
        a.hdr s = { freshHdr s (a.cache c).size with cache := some c } ∨
      (a.cache c).partialHead = some s ∧ (a.cache c).fullHead = none ∧ 1 < objCount (a.cache c).size ∧
        a.hdr s = { freshHdr s (a.cache c).size with
          cache := some c
          nused := 1
          marks := (List.replicate (objCount (a.cache c).size) true).set 0 false })

end Advos.Slab
