import Advos.Vmem.Alloc

/-! Runs of an address space: blocks and objects are created, ranges are allocated, wired and freed.

    A state is the machine together with a record of the calls: the blocks that were added, with the
    range asked for, and the objects that were allocated and have not been freed since. -/

namespace Advos.Space
open Vmem

variable {σ : Type}

/-- A block made by `virt_memory_block_add`, from `start` to `fin`. -/
structure Made where
  b : ℕ
  start : ℕ
  fin : ℕ
deriving DecidableEq, Repr

structure St (σ : Type) where
  mach : Machine σ
  made : List Made
  objs : List ℕ

inductive Op
  | blockAdd (start fin : ℕ)
  | allocObject (size : ℕ)
  | allocEntry (o addr size offset flags : ℕ)
  | allocPages (nr zone domain : ℕ)
  | allocPagesAddr (virtual nr zone domain : ℕ)
  | wire (virtual nr physical : ℕ)
  | wire2 (physical nr : ℕ)
  | freePages (addr : ℕ)

/-- The call on the space at `v`: whether it succeeds, and what it leaves. -/
def Op.run (E : Env σ) (v : ℕ) (st : St σ) : Op → Except Stop (Bool × St σ)
  | .blockAdd start fin => do
    let (b, M) ← virtMemoryBlockAdd E v start fin st.mach
    pure (b ≠ 0, { st with mach := M, made := if b ≠ 0 then ⟨b, start, fin⟩ :: st.made else st.made })
  | .allocObject size =>
    let (o, M) := virtMemoryAllocObject E v size st.mach
    pure (o ≠ 0, { st with mach := M, objs := if o ≠ 0 then o :: st.objs else st.objs })
  | .allocEntry o addr size offset flags => do
    let (e, M) ← virtMemoryAllocEntry E v o addr size offset flags st.mach
    pure (e ≠ 0, { st with mach := M })
  | .allocPages nr zone domain => do
    let (p, M) ← virtMemoryAllocPages E v nr zone domain st.mach
    pure (p ≠ 0, { st with mach := M })
  | .allocPagesAddr virtual nr zone domain => do
    let (p, M) ← virtMemoryAllocPagesAddr E v virtual nr zone domain st.mach
    pure (p ≠ 0, { st with mach := M })
  | .wire virtual nr physical => do
    let (ret, M) ← virtMemoryWire E v virtual nr physical st.mach
    pure (ret = 0, { st with mach := M })
  | .wire2 physical nr => do
    let (p, M) ← virtMemoryWire2 E v physical nr st.mach
    pure (p ≠ 0, { st with mach := M })
  | .freePages addr => do
    let found ← findStart v addr st.mach.mem
    let M ← virtMemoryFreePages E v addr st.mach
    -- the object of the entry is freed with it
    let gone := found.map fun be => st.mach.mem (be.2 + 16)
    pure (true, { st with mach := M, objs := st.objs.filter fun o => some o ≠ gone })

/-- The arguments are words, and an entry is allocated on an object that is there. -/
def Op.Valid (st : St σ) : Op → Prop
  | .blockAdd start fin => start < 2 ^ 64 ∧ fin < 2 ^ 64
  | .allocObject size => size < 2 ^ 64
  | .allocEntry o addr size offset flags =>
    o ∈ st.objs ∧ addr < 2 ^ 64 ∧ size < 2 ^ 64 ∧ offset < 2 ^ 64 ∧ flags < 2 ^ 64
  | .allocPages nr _ _ => nr < 2 ^ 64
  | .allocPagesAddr virtual nr _ _ => virtual < 2 ^ 64 ∧ nr < 2 ^ 64
  | .wire virtual nr physical => virtual < 2 ^ 64 ∧ nr < 2 ^ 64 ∧ physical < 2 ^ 64
  | .wire2 physical nr => physical < 2 ^ 64 ∧ nr < 2 ^ 64
  | .freePages addr => addr < 2 ^ 64

instance (st : St σ) : ∀ op : Op, Decidable (op.Valid st)
  | .blockAdd .. | .allocPagesAddr .. | .wire .. | .wire2 .. | .allocEntry .. => inferInstanceAs (Decidable (_ ∧ _))
  | .allocObject _ | .allocPages .. | .freePages _ => inferInstanceAs (Decidable (_ < _))

/-- A successful call; `ok` says which calls are made. -/
def Step (E : Env σ) (v : ℕ) (ok : St σ → Op → Prop) (st st' : St σ) : Prop :=
  ∃ op : Op, op.Valid st ∧ ok st op ∧ op.run E v st = .ok (true, st')

/-- A call that returns, whether it succeeds or fails. -/
def Call (E : Env σ) (v : ℕ) (ok : St σ → Op → Prop) (st st' : St σ) : Prop :=
  ∃ (op : Op) (done : Bool), op.Valid st ∧ ok st op ∧ op.run E v st = .ok (done, st')

/-- A space without blocks. -/
def NewSpace (v : ℕ) (M : Machine σ) : Prop := M.mem (v + 8) = 0

end Advos.Space
