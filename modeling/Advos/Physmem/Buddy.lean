import Advos.Schemes.Tiling
import Advos.Schemes.Word

/-! The buddy allocator of `physmem.c`.

    Free blocks of order `k` (`2 ^ k` pages of 4 KiB) are kept in `heads[k]`, a list sorted by address
    and linked through the first word of the free blocks themselves; NULL ends a list, so a block at
    address 0 cannot be linked. Allocation splits the first block of the next larger order that has
    one; release inserts the block and merges it with its buddy, order by order.

        heads[2]   ──▶ 0x4000
        heads[1]   ──▶ 0x2000 ──▶ 0x8000
        heads[0]   ──▶ 0x1000

    The loops that walk one list by a pointer to its links become recursions over that list; the
    list in front of the pointer is kept where the source still writes through `heads`. -/

namespace Advos.Physmem
open Word Tiling

/-- `MEMORY_PAGESIZE`. -/
def pageSize : ℕ := 2 ^ 12

/-- `MEMORY_PHYS_BUDDY_ORDER`. -/
def buddyOrder : ℕ := 18

/-- The free lists of a zone: for each order the block addresses met from `heads[order]` on. -/
abbrev Buddy := ℕ → List ℕ

/-- The lists of a zeroed zone. -/
def emptyLists : Buddy := fun _ => []

/-- `(1ULL << order) * MEMORY_PAGESIZE`. -/
def blockSize (order : ℕ) : ℕ := 2 ^ order * pageSize

/-- The list whose first link holds `addr`: a NULL link ends it, whatever stood behind. -/
def link (addr : ℕ) (rest : List ℕ) : List ℕ := if addr = 0 then [] else addr :: rest

/-- The search loop of `_add_block` and `_insert_buddy`: link `addr` before the first larger one. -/
def insertSorted (addr : ℕ) : List ℕ → List ℕ
  | [] => link addr []
  | cur :: rest => if addr < cur then link addr (cur :: rest) else cur :: insertSorted addr rest

/-- `_add_block`. -/
def addBlock (buddy : Buddy) (order addr : ℕ) : Buddy :=
  Function.update buddy order (insertSorted addr (buddy order))

/-- `(base + (blocksize - 1)) & ~(blocksize - 1)`. -/
def alignUp (base order : ℕ) : ℕ := add64 base (blockSize order - 1) &&& not64 (blockSize order - 1)

/-- `next & ~(blocksize - 1)`. -/
def alignDown (next order : ℕ) : ℕ := next &&& not64 (blockSize order - 1)

/-- `nr`, an `int`: the difference wraps when no block fits and is truncated to 32 bits. -/
def blockCount (order baseAligned nextAligned : ℕ) : ℤ :=
  toInt32 ((sub64 nextAligned baseAligned >>> order) / pageSize)

/-- `_add_region_order` at `order = n - 1`; at `n = 0` the order is negative and nothing is added. -/
def addRegionOrder : ℕ → Buddy → ℕ → ℕ → Buddy
  | 0, buddy, _, _ => buddy
  | order + 1, buddy, base, next =>
    let baseAligned := alignUp base order
    let nextAligned := alignDown next order
    -- smaller chunks go to the lower orders first
    let lower := if base ≠ baseAligned then
        addRegionOrder order buddy base (if baseAligned < next then baseAligned else next)
      else buddy
    let upper := if next ≠ nextAligned ∧ nextAligned ≥ base then
        addRegionOrder order lower (if nextAligned > base then nextAligned else base) next
      else lower
    (List.range (blockCount order baseAligned nextAligned).toNat).foldl
      (fun b i => addBlock b order (add64 baseAligned (i * blockSize order))) upper

/-- `phys_mem_buddy_add_region`. -/
def physMemBuddyAddRegion (buddy : Buddy) (base next : ℕ) : Buddy :=
  addRegionOrder (buddyOrder + 1) buddy base next

/-- `_split_buddy` at `order = 18 - d`. -/
def splitBuddy : ℕ → Buddy → ℕ → Buddy
  | 0, buddy, _ => buddy
  | d + 1, buddy, order =>
    if buddy order ≠ [] then buddy
    else
      let upper := splitBuddy d buddy (order + 1)
      match upper (order + 1) with
      | [] => upper
      | block :: rest =>
        Function.update (Function.update upper (order + 1) rest) order
          (link block (link (add64 block (blockSize order)) []))

/-- `phys_mem_buddy_alloc`: the block, 0 for NULL, and the lists. -/
def physMemBuddyAlloc (buddy : Buddy) (order : ℕ) : ℕ × Buddy :=
  if order > buddyOrder then (0, buddy)
  else
    let split := splitBuddy (buddyOrder - order) buddy order
    match split order with
    | [] => (0, split)
    | block :: rest => (block, Function.update split order rest)

/-- The test of `_merge_buddy`: `block` is aligned for the upper order and `next` is its buddy. -/
def isBuddy (order block next : ℕ) : Bool :=
  block &&& (blockSize order <<< 1 - 1) = 0 ∧ next = add64 block (blockSize order)

/-- The loop of `_merge_buddy`: `pre` is the list up to `cur`, then the list from `*cur` on. After a
    merge the element that moved up to `*cur` is stepped over. -/
def mergeLoop (order : ℕ) (insertUp : Buddy → ℕ → Buddy) : List ℕ → List ℕ → Buddy → Buddy
  | _, [], buddy => buddy
  | _, [_], buddy => buddy
  | pre, block :: next :: rest, buddy =>
    if isBuddy order block next then
      let merged := insertUp (Function.update buddy order (pre ++ rest)) block
      match rest with
      | [] => merged
      | skipped :: rest => mergeLoop order insertUp (pre ++ [skipped]) rest merged
    else mergeLoop order insertUp (pre ++ [block]) (next :: rest) buddy

/-- `_insert_buddy` at `order = 19 - d`, with the `_merge_buddy` it ends in. -/
def insertBuddy : ℕ → Buddy → ℕ → ℕ → Buddy
  | 0, buddy, _, _ => buddy
  | d + 1, buddy, addr, order =>
    let inserted := addBlock buddy order addr
    if order ≥ buddyOrder then inserted
    else mergeLoop order (fun b block => insertBuddy d b block (order + 1)) [] (inserted order)
      inserted

/-- `phys_mem_buddy_free`. -/
def physMemBuddyFree (buddy : Buddy) (ptr order : ℕ) : Buddy :=
  insertBuddy (buddyOrder + 1 - order) buddy ptr order

/-! ### Runs of the allocator -/

/-- The lists together with the blocks handed out and not released since. -/
structure Sys where
  buddy : Buddy
  out : List (ℕ × ℕ)

/-- The state after one region has been added to empty lists. -/
def boot (base next : ℕ) : Sys := ⟨physMemBuddyAddRegion emptyLists base next, []⟩

/-- One call: an allocation of any supported order, or a release of a block that is out, with the
    order it was allocated with. -/
inductive Step : Sys → Sys → Prop
  | alloc (s : Sys) (order : ℕ) (h : order ≤ buddyOrder) :
      Step s ⟨(physMemBuddyAlloc s.buddy order).2,
        if (physMemBuddyAlloc s.buddy order).1 = 0 then s.out
        else ((physMemBuddyAlloc s.buddy order).1, order) :: s.out⟩
  | free (s : Sys) (ptr order : ℕ) (h : (ptr, order) ∈ s.out) :
      Step s ⟨physMemBuddyFree s.buddy ptr order, s.out.erase (ptr, order)⟩

/-- The states that runs of calls reach from one added region. -/
def Reach (base next : ℕ) (s : Sys) : Prop := Relation.ReflTransGen Step (boot base next) s

/-! ### Blocks and pages -/

/-- Page `x` lies in the block at `blk.1` of order `blk.2`. -/
def inBlock (blk : ℕ × ℕ) (x : ℕ) : Bool :=
  blk.1 ≤ x * pageSize ∧ x * pageSize < blk.1 + blockSize blk.2

/-- The blocks in the free lists, with their orders. -/
def freeBlocks (buddy : Buddy) : List (ℕ × ℕ) := shelf (List.range (buddyOrder + 1)) buddy

/-- How many free blocks hold page `x`. -/
def freeCount (buddy : Buddy) (x : ℕ) : ℕ := cover inBlock (freeBlocks buddy) x

/-- Page `x` lies wholly in `[base, next)`. -/
def wholePage (base next x : ℕ) : Prop := base ≤ x * pageSize ∧ (x + 1) * pageSize ≤ next

instance (base next x : ℕ) : Decidable (wholePage base next x) := by
  unfold wholePage; infer_instance

end Advos.Physmem
