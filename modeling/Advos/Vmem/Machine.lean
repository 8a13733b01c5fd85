import Advos.Schemes.Linked
import Advos.Vmem.Block

/-! Address spaces (`memory.c`).

    A `virt_memory_t` is a list of blocks. Allocating a range takes nodes from the allocator of the
    space, frames from the physical memory and entries from the page table, and then splits the free
    interval that the range lies in:

        free        |------------- f -------------|
        allocated        |---- e ----|
        left over   |-f0-|           |---- f1 ----|

    Blocks, free intervals and entries are words of the untyped memory of `Block`, since their trees
    run through it. Objects and pages are records, with the linked list of the pages of an object as a
    list. The allocator, the physical memory and the page tables are an environment. -/

namespace Advos.Vmem
open Linked Word

/-- `page_t`. -/
structure Page where
  addr : ℕ
  index : ℕ
  physical : ℕ
  flags : ℕ
  zone : ℕ
  order : ℕ
  numadomain : ℕ
deriving DecidableEq, Repr

/-- `virt_memory_object_t`. -/
structure Obj where
  pages : List Page
  size : ℕ
  refs : ℤ
deriving DecidableEq, Repr

/-- What `memory.c` calls: the allocator of a space, `phys_mem_alloc` and `phys_mem_free`, and the
    architecture interfaces. The state of all this is `σ`. -/
structure Env (σ : Type) where
  /-- `allocator.alloc(vmem)`. -/
  alloc : σ → ℕ → Option ℕ × σ
  /-- `allocator.free(vmem, p)`; it may leave a link in the first word of the node. -/
  free : σ → ℕ → ℕ → Option ℕ × σ
  /-- Order, zone and domain. -/
  physAlloc : σ → ℕ → ℕ → ℕ → Option ℕ × σ
  /-- Physical address, order, zone and domain. -/
  physFree : σ → ℕ → ℕ → ℕ → ℕ → σ
  /-- `ifs.map(arch, virtual, page, flags)`. -/
  map : σ → ℕ → ℕ → Page → ℕ → ℤ × σ
  /-- `ifs.unmap(arch, virtual, page)`. -/
  unmap : σ → ℕ → ℕ → Page → ℤ × σ
  /-- `ifs.prepare(arch, start, size)`. -/
  prepare : σ → ℕ → ℕ → ℕ → ℤ × σ
  /-- `ifs.copy(arch, dst, src, size)`. -/
  copy : σ → ℕ → ℕ → ℕ → ℕ → σ

structure Machine (σ : Type) where
  mem : Mem
  obj : ℕ → Obj
  env : σ

variable {σ : Type}

/-! ### Nodes -/

/-- `kmemset(p, 0, sizeof(virt_memory_data_t))`. -/
def clear (m : Mem) (p : ℕ) : Mem := fun a => if p ≤ a ∧ a < p + 64 then 0 else m a

/-- A node from the allocator of the space `v`; both allocators clear it. -/
def allocNode (E : Env σ) (v : ℕ) (M : Machine σ) : Option ℕ × Machine σ :=
  match E.alloc M.env v with
  | (none, s) => (none, { M with env := s })
  | (some p, s) => (some p, { M with mem := clear M.mem p, env := s })

def freeNode (E : Env σ) (v p : ℕ) (M : Machine σ) : Machine σ :=
  match E.free M.env v p with
  | (none, s) => { M with env := s }
  | (some link, s) => { M with mem := set M.mem p link, env := s }

/-- The entry, the object and the two free intervals that an allocation may need. -/
structure Nodes where
  e : ℕ
  o : ℕ
  f0 : ℕ
  f1 : ℕ

/-- The four nodes, or none of them. -/
def prepareNodes (E : Env σ) (v : ℕ) (M : Machine σ) : Option Nodes × Machine σ :=
  match allocNode E v M with
  | (none, M) => (none, M)
  | (some e, M) =>
    match allocNode E v M with
    | (none, M) => (none, freeNode E v e M)
    | (some o, M) =>
      match allocNode E v M with
      | (none, M) => (none, freeNode E v e (freeNode E v o M))
      | (some f0, M) =>
        match allocNode E v M with
        | (none, M) => (none, freeNode E v e (freeNode E v o (freeNode E v f0 M)))
        | (some f1, M) => (some ⟨e, o, f0, f1⟩, M)

/-- The labels `error_f1` to `error_obj`, after `free(f1)`. -/
def releaseNodes (E : Env σ) (v : ℕ) (n : Nodes) (M : Machine σ) : Machine σ :=
  freeNode E v n.e (freeNode E v n.o (freeNode E v n.f0 (freeNode E v n.f1 M)))

/-- The fields of an entry. -/
def setEntry (m : Mem) (e start size object offset flags : ℕ) : Mem :=
  set (set (set (set (set m e start) (e + 8) size) (e + 16) object) (e + 24) offset) (e + 32) flags

def setObj (M : Machine σ) (o : ℕ) (v : Obj) : Machine σ := { M with obj := Function.update M.obj o v }

/-! ### Pages -/

/-- One round of the loops that allocate: a `page_t` with a frame of its own, mapped at `virtual`.
    `t` has the fields other than the address and the frame. -/
def allocPage (E : Env σ) (v virtual : ℕ) (t : Page) (M : Machine σ) : Option Page × Machine σ :=
  match allocNode E v M with
  | (none, M) => (none, M)
  | (some p, M) =>
    match E.physAlloc M.env t.order t.zone t.numadomain with
    | (none, s) => (none, freeNode E v p { M with env := s })
    | (some r, s) =>
      let page := { t with addr := p, physical := r }
      match E.map s (M.mem (v + 48)) virtual page (M.mem (v + 40)) with
      | (ret, s) =>
        if ret < 0 then
          let M := freeNode E v p { M with env := s }
          (none, { M with env := E.physFree M.env r t.order t.zone t.numadomain })
        else (some page, { M with env := s })

/-- One round of the loops that wire: the frame is given in `t`. -/
def wirePage (E : Env σ) (v virtual : ℕ) (t : Page) (M : Machine σ) : Option Page × Machine σ :=
  match allocNode E v M with
  | (none, M) => (none, M)
  | (some p, M) =>
    let page := { t with addr := p }
    match E.map M.env (M.mem (v + 48)) virtual page (M.mem (v + 40)) with
    | (ret, s) =>
      if ret < 0 then (none, freeNode E v p { M with env := s })
      else (some page, { M with env := s })

/-- The loop over virtual addresses and pages; it stops at the first failure with the pages so far. -/
def pageLoop (step : ℕ → Page → Machine σ → Option Page × Machine σ) :
    List (ℕ × Page) → Machine σ → Bool × List Page × Machine σ
  | [], M => (true, [], M)
  | (virtual, t) :: rest, M =>
    match step virtual t M with
    | (none, M) => (false, [], M)
    | (some p, M) =>
      match pageLoop step rest M with
      | (ok, ps, M) => (ok, p :: ps, M)

/-- The loop at `error_page` over the pages of the object; the frames are returned if `freePhys`. -/
def unmapPages (E : Env σ) (v : ℕ) (freePhys : Bool) : ℕ → List Page → Machine σ → Except Stop (Machine σ)
  | _, [], M => pure M
  | virtual, p :: ps, M =>
    match E.unmap M.env (M.mem (v + 48)) virtual p with
    | (ret, s) =>
      if ret = 0 then
        let s := if freePhys then E.physFree s p.physical p.order p.zone p.numadomain else s
        unmapPages E v freePhys (add64 virtual (4096 * 2 ^ p.order)) ps
          (freeNode E v p.addr { M with env := s })
      else .error .panic

/-- `_pages_free`. -/
def pagesFree (E : Env σ) (v : ℕ) : List Page → Machine σ → Machine σ
  | [], M => M
  | p :: ps, M =>
    let M := { M with env := E.physFree M.env p.physical p.order p.zone p.numadomain }
    pagesFree E v ps (freeNode E v p.addr M)

/-! ### Splitting a free interval -/

/-- The start and the size of the interval or entry at `s`. -/
def span (m : Mem) (s : ℕ) : ℕ × ℕ := (m s, m (s + 8))

/-- What the four branches leave over of the free interval `f` around the entry `e`. The first part in
    the last branch ends where `e` ends. -/
def rest (f e : ℕ × ℕ) : List (ℕ × ℕ) :=
  if f.1 = e.1 ∧ f.2 = e.2 then []
  else if f.1 = e.1 then [(add64 f.1 e.2, sub64 f.2 e.2)]
  else if add64 f.1 f.2 = add64 e.1 e.2 then [(f.1, sub64 f.2 e.2)]
  else
    let next := add64 e.1 e.2
    [(f.1, sub64 next f.1), (next, sub64 (add64 f.1 f.2) next)]

/-- The label `error_post`. -/
def undoSplit (b e f : ℕ) (m : Mem) : Except Stop Mem := do
  let (_, m) ← entryDelete b e m
  let (_, m) ← freeAdd b f m
  pure m

/-- What is left over is added with `f0` and `f1`. The result has those of them that are used, and is
    `none` after an error. -/
def addRest (b e f f0 f1 : ℕ) (m : Mem) : Except Stop (Option (List ℕ) × Mem) :=
  match rest (span m f) (span m e) with
  | [] => pure (some [], m)
  | [r0] => do
    let (ret, m) ← freeAdd b f0 (interval m f0 r0.1 r0.2)
    if ret < 0 then pure (none, ← undoSplit b e f m) else pure (some [f0], m)
  | r0 :: r1 :: _ => do
    let (ret, m) ← freeAdd b f0 (interval (interval m f0 r0.1 r0.2) f1 r1.1 r1.2)
    if ret < 0 then pure (none, ← undoSplit b e f m)
    else
      let (ret, m) ← freeAdd b f1 m
      if ret < 0 then
        let (_, m) ← freeDelete b f0 m
        pure (none, ← undoSplit b e f m)
      else pure (some [f0, f1], m)

/-- The free interval `f` is replaced by what is left over around the entry `e`. Two of the five
    callers do not free `f1` when the entry is at the start of `f` (`keepF1`). -/
def splitFree (E : Env σ) (v b e f f0 f1 : ℕ) (keepF1 : Bool) (M : Machine σ) :
    Except Stop (Bool × Machine σ) := do
  let (f, m) ← freeDelete b f M.mem
  kassert (f ≠ 0)
  let keep := keepF1 ∧ m f = m e ∧ m (f + 8) ≠ m (e + 8)
  let (used, m') ← addRest b e f f0 f1 m
  let M := { M with mem := m' }
  match used with
  | none => pure (false, M)
  | some used =>
    let M := if f0 ∈ used then M else freeNode E v f0 M
    let M := if f1 ∈ used ∨ keep then M else freeNode E v f1 M
    pure (true, freeNode E v f M)

end Advos.Vmem
