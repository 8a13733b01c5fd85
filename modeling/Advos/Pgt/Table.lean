import Advos.Schemes.Word

/-! The x86-64 page tables of `arch/x86_64/pgt.c`.

    Four levels of tables, one page of 512 entries each, are reached from `cr3`:

        virtual  | 47 … 39 | 38 … 30 | 29 … 21 | 20 … 12 | 11 … 0 |
                    PML4  ──▶  PDPT  ──▶  PD   ──▶   PT  ──▶  frame
                                           └──▶ 2 MiB frame

    Entries hold physical addresses; the kernel reaches the tables at `physical + p2v`. Pages for new
    tables come from a list linked through the first word of each free page.

    The memory is a function from the virtual address of a 64-bit entry to its value; all accesses
    are at multiples of eight bytes from the start of a table. The TLB is left out. -/

namespace Advos.Pgt
open Word

/-- `pgt_t`, with the memory that its pages are in. -/
structure PageTable where
  cr3 : ℕ
  p2v : ℕ
  free : ℕ
  mem : ℕ → ℕ

/-- `_v2p`. -/
def v2p (t : PageTable) (a : ℕ) : ℕ := sub64 a t.p2v

/-- `_p2v`. -/
def p2v (t : PageTable) (a : ℕ) : ℕ := add64 a t.p2v

/-- `a & ~((1ULL << k) - 1)`. -/
def align (a k : ℕ) : ℕ := a &&& not64 (2 ^ k - 1)

/-- `MASK_PAGE`. -/
def maskPage (a : ℕ) : ℕ := a &&& not64 0xfff

/-- `(virtual >> shift) & 0x1ff`. -/
def index (v shift : ℕ) : ℕ := (v >>> shift) &&& 0x1ff

/-- The address of entry `idx` of the table at `base`. -/
def slot (base idx : ℕ) : ℕ := base + 8 * idx

/-! ### Entries -/

def present (e : ℕ) : Bool := e.testBit 0

def rwBit (e : ℕ) : Bool := e.testBit 1

def usBit (e : ℕ) : Bool := e.testBit 2

/-- The `page` bit: the entry of a PDPT or a PD is a large page. -/
def pageBit (e : ℕ) : Bool := e.testBit 7

/-- An assignment to a one-bit field. -/
def setBit (e i : ℕ) (b : Bool) : ℕ := (e &&& not64 (2 ^ i)) ||| (if b then 2 ^ i else 0)

/-- What a one-bit field keeps of an `int`. -/
def bitOf (x : ℤ) : Bool := x % 2 = 1

/-- An entry that points to the table at the physical address `pa`. -/
def pointTo (e pa : ℕ) : ℕ := setBit (setBit (setBit e 0 true) 1 true) 2 true ||| pa

/-- A PD entry that maps the 2 MiB frame `physical`. -/
def mapLarge (e physical : ℕ) (global rw user : ℤ) : ℕ :=
  setBit (setBit (setBit (setBit (setBit e 0 true) 7 true) 1 (bitOf rw)) 2 (bitOf user)) 8
    (bitOf global) ||| physical

/-- A PT entry that maps the 4 KiB frame `physical`. -/
def mapSmall (e physical : ℕ) (global rw user : ℤ) : ℕ :=
  setBit (setBit (setBit (setBit e 0 true) 1 (bitOf rw)) 2 (bitOf user)) 8 (bitOf global) ||| physical

/-! ### Memory -/

def store (t : PageTable) (a w : ℕ) : PageTable := { t with mem := Function.update t.mem a w }

/-- `kmemset(pg, 0, 4096)`. -/
def zeroPage (t : PageTable) (pg : ℕ) : PageTable :=
  { t with mem := fun a => if pg ≤ a ∧ a < pg + 4096 then 0 else t.mem a }

/-- `pgt_pop`; 0 is NULL. -/
def pgtPop (t : PageTable) : ℕ × PageTable :=
  if t.free = 0 then (0, t) else (t.free, { t with free := t.mem t.free })

/-- `pgt_push`. -/
def pgtPush (t : PageTable) (pg : ℕ) : PageTable := { store t pg t.free with free := pg }

/-- `pgt_init`; it panics without a page for the PML4. -/
def pgtInit (mem : ℕ → ℕ) (buf nr p2v : ℕ) : Option PageTable :=
  if nr ≥ 1 then
    let t := zeroPage ⟨0, p2v, 0, mem⟩ buf
    let t := { t with cr3 := v2p t buf }
    some ((List.range' 1 (nr - 1)).foldl (fun t i => pgtPush t (buf + i * 4096)) t)
  else none

/-! ### `pgt_map`, `pgt_unmap`, `pgt_prepare` -/

/-- The PML4, as the kernel reaches it. -/
def pml4 (t : PageTable) : ℕ := p2v t (maskPage t.cr3)

/-- The table that a present entry points to. -/
def lookup (t : PageTable) (base idx : ℕ) : Option ℕ :=
  if present (t.mem (slot base idx)) then some (p2v t (maskPage (t.mem (slot base idx)))) else none

/-- "Not present, then add a page here": a new table behind the entry at `a`. -/
def addTable (t : PageTable) (a : ℕ) : Option ℕ × PageTable :=
  let (pg, t) := pgtPop t
  if pg = 0 then (none, t)
  else
    let t := zeroPage t pg
    (some pg, store t a (pointTo (t.mem a) (v2p t pg)))

/-- The table behind entry `idx` of the one at `base`, a new one when there is none. -/
def nextTable (t : PageTable) (base idx : ℕ) : Option ℕ × PageTable :=
  match lookup t base idx with
  | some tbl => (some tbl, t)
  | none => addTable t (slot base idx)

/-- The page directory for `virtual`, with the tables on the way to it. -/
def directory (t : PageTable) (virtual : ℕ) : Option ℕ × PageTable :=
  match nextTable t (pml4 t) (index virtual 39) with
  | (none, t) => (none, t)
  | (some pdpt, t) => nextTable t pdpt (index virtual 30)

/-- The last step of `pgt_map`: an entry that is present already is not overwritten. -/
def mapEntry (t : PageTable) (a : ℕ) (entry : ℕ → ℕ) : ℤ × PageTable :=
  if present (t.mem a) then (-1, t) else (0, store t a (entry (t.mem a)))

/-- The shift of the page size that the flag `superpage` selects. -/
def pageShift (superpage : ℤ) : ℕ := if superpage ≠ 0 then 21 else 12

/-- `pgt_map`. -/
def pgtMap (t : PageTable) (virtual physical : ℕ) (superpage global rw user : ℤ) : ℤ × PageTable :=
  let virtual := align virtual (pageShift superpage)
  let physical := align physical (pageShift superpage)
  match directory t virtual with
  | (none, t) => (-1, t)
  | (some pd, t) =>
    if superpage ≠ 0 then
      mapEntry t (slot pd (index virtual 21)) fun e => mapLarge e physical global rw user
    else
      match nextTable t pd (index virtual 21) with
      | (none, t) => (-1, t)
      | (some pt, t) =>
        mapEntry t (slot pt (index virtual 12)) fun e => mapSmall e physical global rw user

/-- No entry of the table is present. -/
def isEmpty (t : PageTable) (pt : ℕ) : Bool :=
  (List.range 512).all fun i => !present (t.mem (slot pt i))

/-- The end of `pgt_unmap` for 4 KiB: the entry is cleared, and with the last one the table `pt`
    goes back to the free pages. -/
def unmapEntry (t : PageTable) (pd i pt j : ℕ) : PageTable :=
  let t := store t (slot pt j) 0
  if isEmpty t pt then store (pgtPush t pt) (slot pd i) 0 else t

/-- `pgt_unmap`. -/
def pgtUnmap (t : PageTable) (virtual : ℕ) (superpage : ℤ) : ℤ × PageTable :=
  let virtual := align virtual (pageShift superpage)
  match lookup t (pml4 t) (index virtual 39) with
  | none => (-1, t)
  | some pdpt =>
    match lookup t pdpt (index virtual 30) with
    | none => (-1, t)
    | some pd =>
      match lookup t pd (index virtual 21) with
      | none => (-1, t)
      | some pt =>
        if superpage ≠ 0 then
          if pageBit (t.mem (slot pd (index virtual 21))) then
            (0, store t (slot pd (index virtual 21)) 0)
          else (-1, t)
        else if present (t.mem (slot pt (index virtual 12))) then
          (0, unmapEntry t pd (index virtual 21) pt (index virtual 12))
        else (-1, t)

/-- `pgt_prepare`. -/
def pgtPrepare (t : PageTable) (virtual : ℕ) : ℤ × PageTable :=
  match directory t (align virtual 30) with
  | (none, t) => (-1, t)
  | (some _, t) => (0, t)

/-! ### The walk of the hardware -/

/-- A translation: the frame, the size of the page in bytes and the permissions. -/
structure Xlat where
  frame : ℕ
  size : ℕ
  rw : Bool
  us : Bool
deriving DecidableEq, Repr

/-- The address field of an entry, bits 51 to `k`. -/
def frameOf (e k : ℕ) : ℕ := e / 2 ^ k % 2 ^ (52 - k) * 2 ^ k

/-- Entry `idx` of the table at the physical address `pa`. -/
def readEntry (t : PageTable) (pa idx : ℕ) : ℕ := t.mem (slot (p2v t pa) idx)

/-- The translation by the leaf `e`, with the permissions of the levels above it. -/
def leaf (e k : ℕ) (rw us : Bool) : Xlat := ⟨frameOf e k, 2 ^ k, rw && rwBit e, us && usBit e⟩

/-- The 4-level walk from `cr3`; none is a page fault. -/
def walk (t : PageTable) (v : ℕ) : Option Xlat :=
  let e4 := readEntry t (frameOf t.cr3 12) (index v 39)
  if !present e4 then none
  else
    let e3 := readEntry t (frameOf e4 12) (index v 30)
    let rw := rwBit e4 && rwBit e3
    let us := usBit e4 && usBit e3
    if !present e3 then none
    else if pageBit e3 then some (leaf e3 30 (rwBit e4) (usBit e4))
    else
      let e2 := readEntry t (frameOf e3 12) (index v 21)
      if !present e2 then none
      else if pageBit e2 then some (leaf e2 21 rw us)
      else
        let e1 := readEntry t (frameOf e2 12) (index v 12)
        if !present e1 then none else some (leaf e1 12 (rw && rwBit e2) (us && usBit e2))

/-! ### Runs -/

/-- The operations on one page table. -/
inductive Call
  | map (virtual physical : ℕ) (superpage global rw user : ℤ)
  | unmap (virtual : ℕ) (superpage : ℤ)
  | prepare (virtual : ℕ)

/-- The call: what it returns and the table it leaves. -/
def Call.run (t : PageTable) : Call → ℤ × PageTable
  | .map virtual physical superpage global rw user =>
    pgtMap t virtual physical superpage global rw user
  | .unmap virtual superpage => pgtUnmap t virtual superpage
  | .prepare virtual => pgtPrepare t virtual

/-- The address is translated by a 2 MiB mapping. -/
def InLarge (t : PageTable) (v : ℕ) : Prop := ∃ x, walk t v = some x ∧ x.size = 2 ^ 21

/-- No 4 KiB call inside a 2 MiB mapping; physical addresses have 52 bits. -/
def Call.Allowed (t : PageTable) : Call → Prop
  | .map virtual physical superpage _ _ _ =>
    virtual < 2 ^ 64 ∧ physical < 2 ^ 52 ∧ (superpage = 0 → ¬InLarge t virtual)
  | .unmap virtual superpage => virtual < 2 ^ 64 ∧ (superpage = 0 → ¬InLarge t virtual)
  | .prepare virtual => virtual < 2 ^ 64

def Step (t t' : PageTable) : Prop := ∃ c : Call, c.Allowed t ∧ t' = (c.run t).2

/-- The buffer that `pgt_init` is given: pages that do not wrap around, at page-aligned physical
    addresses of 52 bits. -/
structure Buffer where
  base : ℕ
  nr : ℕ
  p2v : ℕ
  nr_pos : 1 ≤ nr
  fits : base + 4096 * nr ≤ 2 ^ 64
  offset : p2v < 2 ^ 64
  aligned : sub64 base p2v % 4096 = 0
  below : sub64 base p2v + 4096 * nr ≤ 2 ^ 52

/-- The page tables that runs from `pgt_init` lead to. -/
def Reach (b : Buffer) (t : PageTable) : Prop :=
  ∃ mem t0, pgtInit mem b.base b.nr b.p2v = some t0 ∧ Relation.ReflTransGen Step t0 t

/-- The address `v` lies on the page of `virtual`; a walk reads 48 bits of an address. -/
def Covers (superpage : ℤ) (virtual v : ℕ) : Prop :=
  v % 2 ^ 48 / 2 ^ pageShift superpage = virtual % 2 ^ 48 / 2 ^ pageShift superpage

instance (superpage : ℤ) (virtual v : ℕ) : Decidable (Covers superpage virtual v) :=
  inferInstanceAs (Decidable (_ = _))

/-- What a call that returns 0 is for, as an operation on the map from addresses to translations. -/
def Call.effect (T : ℕ → Option Xlat) : Call → ℕ → Option Xlat
  | .map virtual physical superpage _ rw user => fun v =>
    if Covers superpage virtual v then
      some ⟨align physical (pageShift superpage), 2 ^ pageShift superpage, bitOf rw, bitOf user⟩
    else T v
  | .unmap virtual superpage => fun v => if Covers superpage virtual v then none else T v
  | .prepare _ => T

end Advos.Pgt
