import Advos.Vmem.Machine

/-! The operations on an address space (`memory.c`).

    A space is a `virt_memory_t` at `v`; its blocks are linked through their `next` fields. -/

namespace Advos.Vmem
open Linked Word

variable {σ : Type}

/-! ### Blocks -/

/-- The pointer in a word; 0 is NULL. -/
def ptr (x : ℕ) : Option ℕ := if x = 0 then none else some x

/-- `b->next`. -/
def nextBlock (m : Mem) (b : ℕ) : Option ℕ := ptr (m (b + 16))

/-- `_find_block`. -/
def findBlock (v addr : ℕ) (m : Mem) : Except Stop (Option ℕ) :=
  match walk (nextBlock m) (fun b => m b ≤ addr ∧ addr ≤ m (b + 8)) fuel (ptr (m (v + 8))) with
  | none => .error .hang
  | some r => pure r

/-- The block of an address and the free interval in it that holds the address. -/
def findFree (v addr : ℕ) (m : Mem) : Except Stop (Option (ℕ × ℕ)) := do
  match ← findBlock v addr m with
  | none => pure none
  | some b =>
    match ← findFreeEntry b addr m with
    | none => pure none
    | some f => pure (some (b, f))

/-- The block of an address and the entry in it that starts there. -/
def findStart (v addr : ℕ) (m : Mem) : Except Stop (Option (ℕ × ℕ)) := do
  match ← findBlock v addr m with
  | none => pure none
  | some b =>
    match ← findEntry b addr m with
    | none => pure none
    | some e => pure (if addr ≠ m e then none else some (b, e))

/-- The loop of `_block_insert`: the address of the pointer to insert at, NULL for an overlap. -/
def insertPoint (m : Mem) (n : ℕ) : ℕ → ℕ → Except Stop (Option ℕ)
  | 0, _ => .error .hang
  | k + 1, c =>
    if m c = 0 then pure (some c)
    else if m (m c) > m n then
      if m (n + 8) ≥ m (m c) then pure none else pure (some c)
    else insertPoint m n k (m c + 16)

/-- `_block_insert`. -/
def blockInsert (v n : ℕ) (m : Mem) : Except Stop (ℤ × Mem) := do
  match ← insertPoint m n fuel (v + 8) with
  | none => pure (-1, m)
  | some c => pure (0, set (set m (n + 16) (m c)) c n)

/-- The free interval of a new block, start and size: the whole pages from `start` to `fin`. -/
def firstFree (start fin : ℕ) : ℕ × ℕ :=
  let first := sub64 (add64 start 4096) 1 &&& not64 4095
  (first, sub64 (add64 fin 1 &&& not64 4095) first)

/-- The fields of a new block with one free interval. -/
def setBlock (m : Mem) (n fr start fin : ℕ) : Mem :=
  let m := set (set (set m n start) (n + 8) fin) (n + 16) 0
  let m := interval m fr (firstFree start fin).1 (firstFree start fin).2
  let m := set (set (set m (fr + 16) 0) (fr + 24) 0) (fr + 32) fr
  let m := set (set (set m (fr + 40) 0) (fr + 48) 0) (fr + 56) fr
  set (set (set m (n + 24) 0) (n + 32) (fr + 16)) (n + 40) (fr + 40)

/-- `virt_memory_block_add`; 0 is NULL. -/
def virtMemoryBlockAdd (E : Env σ) (v start fin : ℕ) (M : Machine σ) : Except Stop (ℕ × Machine σ) :=
  match allocNode E v M with
  | (none, M) => pure (0, M)
  | (some n, M) =>
    match allocNode E v M with
    | (none, M) => pure (0, freeNode E v n M)
    | (some fr, M) =>
      let M := { M with mem := setBlock M.mem n fr start fin }
      match E.prepare M.env (M.mem (v + 48)) start (add64 (sub64 fin start) 1) with
      | (ret, s) =>
        let M := { M with env := s }
        if ret < 0 then pure (0, freeNode E v n (freeNode E v fr M))
        else do
          let (ret, m) ← blockInsert v n M.mem
          let M := { M with mem := m }
          if ret < 0 then pure (0, freeNode E v n (freeNode E v fr M)) else pure (n, M)

/-! ### Entries on an object -/

/-- `virt_memory_alloc_object`; 0 is NULL. -/
def virtMemoryAllocObject (E : Env σ) (v size : ℕ) (M : Machine σ) : ℕ × Machine σ :=
  match allocNode E v M with
  | (none, M) => (0, M)
  | (some o, M) => (o, setObj M o ⟨[], size, 0⟩)

/-- The flags of a page of an entry with `flags`: `MEMORY_PGF_RW` follows `MEMORY_VMF_RW`. -/
def pageFlags (flags pgf : ℕ) : ℕ := if flags.testBit 1 then pgf else 0

/-- `MEMORY_ZONE_NUMA_AWARE`. -/
def zoneNumaAware : ℕ := 2

/-- The pages that `_alloc_pages` makes for the entry `e`. -/
def entryPlan (m : Mem) (e : ℕ) : List (ℕ × Page) :=
  (List.range (m (e + 8) / 4096)).map fun i =>
    (add64 (m e) (4096 * i), ⟨0, add64 (m (e + 24) / 4096) i, 0, pageFlags (m (e + 32)) 2, zoneNumaAware, 0, 0⟩)

/-- `_alloc_pages`: the new pages go behind those with lower indices. What came after them in the list
    of the object is dropped. -/
def allocPages (E : Env σ) (v e : ℕ) (M : Machine σ) : Except Stop (ℤ × Machine σ) :=
  let o := M.mem (e + 16)
  let obj := M.obj o
  let off := M.mem (e + 24) / 4096
  let nr := M.mem (e + 8) / 4096
  let lower := obj.pages.takeWhile fun p => p.index < off
  let upper := obj.pages.dropWhile fun p => p.index < off
  if (upper.head?.any fun p => p.index < add64 off nr) then pure (-1, M)
  else
    match pageLoop (allocPage E v) (entryPlan M.mem e) M with
    | (true, ps, M) =>
      pure (0, setObj M o { obj with pages := if ps = [] then obj.pages else lower ++ ps })
    | (false, ps, M) => do
      let M ← unmapPages E v false (M.mem e) ps M
      pure (-1, setObj M o { obj with pages := if ps = [] then obj.pages else lower })

/-- The entry and the two free intervals of `virt_memory_alloc_entry`, or none of them. -/
def prepareEntry (E : Env σ) (v : ℕ) (M : Machine σ) : Option (ℕ × ℕ × ℕ) × Machine σ :=
  match allocNode E v M with
  | (none, M) => (none, M)
  | (some e, M) =>
    match allocNode E v M with
    | (none, M) => (none, freeNode E v e M)
    | (some f0, M) =>
      match allocNode E v M with
      | (none, M) => (none, freeNode E v e (freeNode E v f0 M))
      | (some f1, M) => (some (e, f0, f1), M)

/-- The part of `virt_memory_alloc_entry` after its checks, in the free interval `f` of `b`. -/
def allocEntryIn (E : Env σ) (v b f o addr size offset flags : ℕ) (M : Machine σ) :
    Except Stop (ℕ × Machine σ) :=
  match prepareEntry E v M with
  | (none, M) => pure (0, M)
  | (some (e, f0, f1), M) => do
    let obj := M.obj o
    let M := setObj { M with mem := setEntry M.mem e addr size o offset flags } o
      { obj with refs := obj.refs + 1 }
    let fail (M : Machine σ) : ℕ × Machine σ :=
      (0, freeNode E v e (setObj (freeNode E v f0 (freeNode E v f1 M)) o obj))
    let (ret, m) ← entryAdd b e M.mem
    let M := { M with mem := m }
    if ret < 0 then pure (fail M)
    else
      match ← splitFree E v b e f f0 f1 false M with
      | (false, M) => pure (fail M)
      | (true, M) =>
        let (ret, M) ← allocPages E v e M
        pure (if ret < 0 then 0 else e, M)

/-- `virt_memory_alloc_entry`; 0 is NULL. -/
def virtMemoryAllocEntry (E : Env σ) (v o addr size offset flags : ℕ) (M : Machine σ) :
    Except Stop (ℕ × Machine σ) := do
  if addr % 4096 ≠ 0 ∨ size % 4096 ≠ 0 ∨ offset % 4096 ≠ 0 then pure (0, M)
  else
    match ← findFree v addr M.mem with
    | none => pure (0, M)
    | some (b, f) =>
      if add64 addr size > add64 (M.mem f) (M.mem (f + 8)) then pure (0, M)
      else if add64 offset size > (M.obj o).size then pure (0, M)
      else allocEntryIn E v b f o addr size offset flags M

/-! ### Entries with an object of their own -/

/-- An allocation in the free interval `f` of the block `b` once its range is known: the nodes, the
    pages of `plan` made by `step`, the entry and the rest of `f`. Four functions share it; they differ
    in the pages, in whether an error returns the frames, and in what becomes of `f1`. -/
def allocRange (E : Env σ) (v b f start size : ℕ) (step : ℕ → Page → Machine σ → Option Page × Machine σ)
    (plan : List (ℕ × Page)) (freePhys keepF1 : Bool) (M : Machine σ) : Except Stop (Bool × Machine σ) :=
  match prepareNodes E v M with
  | (none, M) => pure (false, M)
  | (some n, M) =>
    let M := setObj { M with mem := setEntry M.mem n.e start size n.o 0 2 } n.o ⟨[], size, 1⟩
    match pageLoop step plan M with
    | (ok, ps, M) => do
      let M := setObj M n.o ⟨ps, size, 1⟩
      let fail (M : Machine σ) : Except Stop (Bool × Machine σ) := do
        let M ← unmapPages E v freePhys start ps M
        pure (false, releaseNodes E v n M)
      if !ok then fail M
      else
        let (ret, m) ← entryAdd b n.e M.mem
        let M := { M with mem := m }
        if ret < 0 then fail M
        else
          match ← splitFree E v b n.e f n.f0 n.f1 keepF1 M with
          | (false, M) => fail M
          | (true, M) => pure (true, M)

/-- `virt_memory_alloc_pages_addr`; 0 is NULL. -/
def virtMemoryAllocPagesAddr (E : Env σ) (v virtual nr zone domain : ℕ) (M : Machine σ) :
    Except Stop (ℕ × Machine σ) := do
  if virtual % 4096 ≠ 0 then pure (0, M)
  else
    match ← findFree v virtual M.mem with
    | none => pure (0, M)
    | some (b, f) =>
      let size := mul64 nr 4096
      if add64 virtual size > add64 (M.mem f) (M.mem (f + 8)) then pure (0, M)
      else
        let (ok, M) ← allocRange E v b f virtual size (allocPage E v) (plan virtual nr zone domain) false
          false M
        pure (if ok then virtual else 0, M)
where
  plan (virtual nr zone domain : ℕ) : List (ℕ × Page) :=
    (List.range nr).map fun i => (add64 virtual (4096 * i), ⟨0, i, 0, 2, zone % 2 ^ 8, 0, domain % 2 ^ 32⟩)

/-- `_order`; it ends at 51, the last shift that a 64-bit word has. -/
def order (addr1 addr2 size : ℕ) : ℕ → ℕ → ℕ
  | 0, k => k
  | n + 1, k =>
    if addr1 / 4096 % 2 ^ (k + 1) ≠ 0 then k
    else if addr2 / 4096 % 2 ^ (k + 1) ≠ 0 then k
    else if 2 ^ (13 + k) > size then k
    else order addr1 addr2 size n (k + 1)

/-- The pages of `virt_memory_wire` from `virtual` to `endplus1`, as large as alignment allows. -/
def wirePlan : ℕ → ℕ → ℕ → ℕ → List (ℕ × Page)
  | 0, _, _, _ => []
  | n + 1, virtual, physical, endplus1 =>
    if virtual < endplus1 then
      let k := order virtual physical (endplus1 - virtual) 51 0
      (virtual, ⟨0, 0, physical, 3, 0, k, 0⟩) ::
        wirePlan n (add64 virtual (2 ^ (12 + k))) (add64 physical (2 ^ (12 + k))) endplus1
    else []

/-- `virt_memory_wire`. -/
def virtMemoryWire (E : Env σ) (v virtual nr physical : ℕ) (M : Machine σ) : Except Stop (ℤ × Machine σ) := do
  if virtual % 4096 ≠ 0 ∨ physical % 4096 ≠ 0 then pure (-1, M)
  else
    match ← findFree v virtual M.mem with
    | none => pure (-1, M)
    | some (b, f) =>
      let size := mul64 nr 4096
      if add64 virtual size > add64 (M.mem f) (M.mem (f + 8)) then pure (-1, M)
      else
        let (ok, M) ← allocRange E v b f virtual size (wirePage E v)
          (wirePlan nr virtual physical (add64 virtual size)) false false M
        pure (if ok then 0 else -1, M)

/-- The size that the any-address allocations look for: a superpage more than needed, for alignment. -/
def searchSize (nr : ℕ) : ℕ :=
  if mul64 nr 4096 ≥ 2 ^ 21 then add64 (mul64 nr 4096) (2 ^ 21) else mul64 nr 4096

/-- Where they start in an interval from `start` on. -/
def alignStart (nr start : ℕ) : ℕ :=
  if mul64 nr 4096 ≥ 2 ^ 21 ∧ start % 2 ^ 21 ≠ 0 then
    add64 start (2 ^ 21 - 1) &&& not64 (2 ^ 21 - 1)
  else start

/-- Superpages while they fit, then pages: virtual address, index and order of each. -/
def blockPlan (start nr : ℕ) : List (ℕ × ℕ × ℕ) :=
  ((List.range (nr / 512)).map fun k => (add64 start (mul64 (512 * k) 4096), 512 * k, 9)) ++
    (List.range (nr % 512)).map fun j =>
      (add64 start (mul64 (512 * (nr / 512) + j) 4096), 512 * (nr / 512) + j, 0)

/-- `_alloc_pages_block`; 0 is NULL. -/
def allocPagesBlock (E : Env σ) (v b nr zone domain : ℕ) (M : Machine σ) :
    Except Stop (ℕ × Machine σ) := do
  match ← searchFitSize b (searchSize nr) M.mem with
  | none => pure (0, M)
  | some f =>
    let start := alignStart nr (M.mem f)
    let plan := (blockPlan start nr).map fun x =>
      (x.1, ⟨0, x.2.1, 0, 2, zone % 2 ^ 8, x.2.2, domain % 2 ^ 32⟩)
    let (ok, M) ← allocRange E v b f start (mul64 nr 4096) (allocPage E v) plan true true M
    pure (if ok then start else 0, M)

/-- `_alloc_virt_pages_wire`; 0 is NULL. Each page moves on by a superpage in physical memory. -/
def allocVirtPagesWire (E : Env σ) (v b physical nr : ℕ) (M : Machine σ) :
    Except Stop (ℕ × Machine σ) := do
  match ← searchFitSize b (searchSize nr) M.mem with
  | none => pure (0, M)
  | some f =>
    let start := alignStart nr (M.mem f)
    let plan := (blockPlan start nr).mapIdx fun i x =>
      (x.1, ⟨0, x.2.1, add64 physical (mul64 i (2 ^ 21)), 3, 0, x.2.2, 0⟩)
    let (ok, M) ← allocRange E v b f start (mul64 nr 4096) (wirePage E v) plan true true M
    pure (if ok then start else 0, M)

/-- The loop over the blocks from `b` on, until one gives a pointer. -/
def eachBlock (call : ℕ → Machine σ → Except Stop (ℕ × Machine σ)) :
    ℕ → ℕ → Machine σ → Except Stop (ℕ × Machine σ)
  | 0, _, _ => .error .hang
  | k + 1, b, M =>
    if b = 0 then pure (0, M)
    else do
      let (p, M) ← call b M
      if p = 0 then eachBlock call k (M.mem (b + 16)) M else pure (p, M)

/-- `virt_memory_alloc_pages`. -/
def virtMemoryAllocPages (E : Env σ) (v nr zone domain : ℕ) (M : Machine σ) :
    Except Stop (ℕ × Machine σ) :=
  eachBlock (fun b => allocPagesBlock E v b nr zone domain) fuel (M.mem (v + 8)) M

/-- `virt_memory_wire2`. -/
def virtMemoryWire2 (E : Env σ) (v physical nr : ℕ) (M : Machine σ) : Except Stop (ℕ × Machine σ) :=
  eachBlock (fun b => allocVirtPagesWire E v b physical nr) fuel (M.mem (v + 8)) M

/-! ### Freeing -/

/-- `_entry_free`; what it returns is not used. -/
def entryFree (E : Env σ) (v b e : ℕ) (M : Machine σ) : Except Stop (Machine σ) := do
  let start := M.mem e
  let size := M.mem (e + 8)
  match ← findNeighborFreeEntry b start (add64 start size) M.mem with
  | none =>
    let (_, m) ← freeAdd b e (interval (clear M.mem e) e start size)
    pure { M with mem := m }
  | some f =>
    let (r, m) ← freeDelete b f M.mem
    kassert (r ≠ 0)
    let m := if m f = add64 start size then interval m f start (add64 (m (f + 8)) size)
      else set m (f + 8) (add64 (m (f + 8)) size)
    let M := freeNode E v e { M with mem := m }
    let (ret, m) ← freeAdd b f M.mem
    kassert (ret = 0)
    pure { M with mem := m }

/-- The end of `virt_memory_free_pages`, for the entry `e` of the block `b`. -/
def freeEntry (E : Env σ) (v b e : ℕ) (M : Machine σ) : Except Stop (Machine σ) := do
  let o := M.mem (e + 16)
  let M := freeNode E v o (pagesFree E v (M.obj o).pages M)
  let (r, m) ← entryDelete b e M.mem
  kassert (r = some e)
  entryFree E v b e { M with mem := m }

/-- `virt_memory_free_pages`. -/
def virtMemoryFreePages (E : Env σ) (v addr : ℕ) (M : Machine σ) : Except Stop (Machine σ) := do
  match ← findStart v addr M.mem with
  | none => pure M
  | some (b, e) => freeEntry E v b e M

end Advos.Vmem
