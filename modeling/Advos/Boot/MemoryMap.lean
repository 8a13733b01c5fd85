import Mathlib.Order.Nat
import Mathlib.Logic.Function.Basic
import Advos.Schemes.Bytes

/-! The memory map of the BIOS (`bootmon.S`: `load_mm`).

    Every call of `int $0x15` answers with one entry of the map and a continuation value, 0 at the last one.
    The entries go into a table of 24 bytes each, and `%dx` says how many the table holds:

        %es:%di        +24           +48                    + 24 * %dx
        | entry 0      | entry 1     |   ...     | entry %dx-1 |
                                       testl %ebx,%ebx          last answer
                                       cmpw  %bp,%dx            table full

    The call takes its signature in `%edx`, so `%dx` is 0x4150 from the first call on, and the comparison that
    should stop at a full table stops at 16720 entries. -/

namespace Advos.Boot.MemoryMap
open Bytes Function List

/-- `MME_SIZE`. -/
def mmeSize : ℕ := 24

/-- `MME_SIGN`, "SMAP". -/
def mmeSign : ℕ := 0x534d4150

/-- The registers, the stack and the memory, with the addresses that have been stored to and the number of calls
    of the BIOS. -/
structure Cpu where
  eax : ℕ
  ebx : ℕ
  ecx : ℕ
  edx : ℕ
  di : ℕ
  bp : ℕ
  es : ℕ
  cf : Bool
  stack : List ℕ
  mem : ℕ → UInt8
  stores : List ℕ
  calls : ℕ

/-- `%dx`. -/
def Cpu.dx (c : Cpu) : ℕ := c.edx % 2 ^ 16

/-- `%ax`. -/
def Cpu.ax (c : Cpu) : ℕ := c.eax % 2 ^ 16

/-- The address of an offset in the segment of `%es`. -/
def Cpu.addr (c : Cpu) (off : ℕ) : ℕ := 2 ^ 4 * c.es + off % 2 ^ 16

/-- The memory with the first `n` bytes put at their addresses, where there is a byte to put. -/
def putBytes (addr : ℕ → ℕ) (bytes : ℕ → Option UInt8) (mem : ℕ → UInt8) : ℕ → ℕ → UInt8
  | 0 => mem
  | n + 1 =>
    let mem := putBytes addr bytes mem n
    Function.update mem (addr n) ((bytes n).getD (mem (addr n)))

/-- The addresses of the first `n` bytes. -/
def putAddrs (addr : ℕ → ℕ) (bytes : ℕ → Option UInt8) (n : ℕ) : List ℕ :=
  ((List.range n).filter fun j => (bytes j).isSome).map addr

/-- Stores to `n` bytes from an offset of the segment on. -/
def Cpu.put (c : Cpu) (off n : ℕ) (bytes : ℕ → Option UInt8) : Cpu :=
  { c with
    mem := putBytes (fun j => c.addr (off + j)) bytes c.mem n
    stores := putAddrs (fun j => c.addr (off + j)) bytes n ++ c.stores }

/-- An answer of the BIOS: the carry flag, three registers and the bytes it stores in the buffer. -/
structure Answer where
  carry : Bool
  eax : ℕ
  ebx : ℕ
  ecx : ℕ
  bytes : ℕ → Option UInt8

/-! ### The code -/

/-- `int $0x15`: all registers but the answer's are preserved. -/
def Cpu.int15 (c : Cpu) (a : Answer) : Cpu :=
  { c.put c.di mmeSize a.bytes with
    cf := a.carry
    eax := a.eax
    ebx := a.ebx
    ecx := a.ecx
    calls := c.calls + 1 }

/-- `load_mm.1` up to the call. -/
def query (a : Answer) (c : Cpu) : Cpu :=
  let c := { c with ecx := 0x1 }
  let c := c.put (c.di + 20) 4 fun j => some (UInt8.ofNat (c.ecx >>> (8 * j)))     -- movl %ecx,%es:20(%di)
  let c := { c with eax := 0xe820 }
  let c := { c with edx := mmeSign }
  let c := { c with ecx := mmeSize }
  c.int15 a

/-- Where a round goes on: at `load_mm.1`, at `load_mm.error` or at `load_mm.done`. -/
inductive Jump
  | again | error | done
deriving DecidableEq

/-- `load_mm.3` and `load_mm.4`. -/
def loadMm3 (c : Cpu) : Jump × Cpu :=
  let c := { c with bp := (c.bp + 1) % 2 ^ 16 }
  if c.ebx = 0 then (.done, { c with cf := false })
  else if c.dx = c.bp then (.error, c)
  else (.again, { c with di := (c.di + mmeSize) % 2 ^ 16 })

/-- `load_mm.2`. -/
def loadMm2 (c : Cpu) : Jump × Cpu :=
  if loadLE (fun off => c.mem (c.addr off)) 4 (c.di + 20) &&& 0x1 = 0 then (.error, c) else loadMm3 c

/-- `load_mm.1`. -/
def loadMm1 (a : Answer) (c : Cpu) : Jump × Cpu :=
  let c := query a c
  if c.cf then (.error, c)
  else if c.eax ≠ mmeSign then (.error, c)
  else if c.ecx = 24 then loadMm2 c
  else if c.ecx = 20 then loadMm3 c
  else (.error, c)

/-- The loop, `n` rounds of it at most. -/
def loop (bios : ℕ → Answer) : ℕ → Cpu → Option Cpu
  | 0, _ => none
  | n + 1, c =>
    match loadMm1 (bios c.calls) c with
    | (.again, c) => loop bios n c
    | (.error, c) => some { c with cf := true }
    | (.done, c) => some c

/-- `load_mm` up to its loop. -/
def enter (c : Cpu) : Cpu :=
  let c := { c with stack := c.bp :: c.di :: c.ecx :: c.ebx :: c.stack }
  let c := { c with ebx := 0 }
  { c with bp := 0, stores := [], calls := 0 }

/-- `load_mm` behind its loop. -/
def leave (c : Cpu) : Cpu :=
  let c := { c with eax := c.eax / 2 ^ 16 * 2 ^ 16 + c.bp }                        -- movw %bp,%ax
  { c with
    bp := c.stack.getD 0 0
    di := c.stack.getD 1 0
    ecx := c.stack.getD 2 0
    ebx := c.stack.getD 3 0
    stack := c.stack.drop 4 }

/-- `load_mm`, with `n` rounds of its loop at most. -/
def loadMm (bios : ℕ → Answer) (n : ℕ) (c : Cpu) : Option Cpu := (loop bios n (enter c)).map leave

/-! ### What the table is to hold -/

/-- The answer is an entry: no carry, the signature, and a size of 24 bytes with its attribute or of 20 bytes. -/
def Answer.Entry (a : Answer) : Prop :=
  a.carry = false ∧ a.eax = mmeSign ∧ (a.ecx = 24 ∧ ((a.bytes 20).getD 1).toNat % 2 = 1 ∨ a.ecx = 20)

instance (a : Answer) : Decidable a.Entry := inferInstanceAs (Decidable (_ ∧ _ ∧ _))

/-- The answer ends the map: it is not an entry, or there is none after it. -/
def Answer.Last (a : Answer) : Prop := ¬a.Entry ∨ a.ebx = 0

instance (a : Answer) : Decidable a.Last := inferInstanceAs (Decidable (_ ∨ _))

/-- The addresses of `n` entries from `%es:%di` on. -/
def Cpu.InTable (c : Cpu) (n x : ℕ) : Prop := ∃ i < n, ∃ j < mmeSize, x = c.addr (c.di + mmeSize * i + j)

/-- `load_mm` returns after at most `%dx` calls, has stored to the table only, and returns with the carry flag set
    or with the number of entries, at most `%dx`, in `%ax`. -/
def Bounded (bios : ℕ → Answer) (c : Cpu) : Prop :=
  ∃ n r, loadMm bios n c = some r ∧ r.calls ≤ c.dx ∧ (∀ x ∈ r.stores, c.InTable c.dx x)
    ∧ (r.cf = true ∨ r.ax = ((List.range r.calls).filter fun i => (bios i).Entry).length ∧ r.ax ≤ c.dx)

/-! ### One call -/

theorem putBytes_of_ne {addr : ℕ → ℕ} {x n : ℕ} (bytes : ℕ → Option UInt8) (mem : ℕ → UInt8)
    (hne : ∀ j < n, addr j ≠ x) : putBytes addr bytes mem n x = mem x := by
  induction n with
  | zero => rfl
  | succ n ih => rw [putBytes, update_of_ne (hne n (Nat.lt_succ_self n)).symm, ih fun j hj => hne j (by omega)]

theorem putBytes_get {addr : ℕ → ℕ} {n i : ℕ} (bytes : ℕ → Option UInt8) (mem : ℕ → UInt8) (hi : i < n)
    (hinj : ∀ j < n, addr j = addr i → j = i) :
    putBytes addr bytes mem n (addr i) = (bytes i).getD (mem (addr i)) := by
  induction n with
  | zero => omega
  | succ n ih =>
    rw [putBytes]
    rcases Nat.lt_succ_iff_lt_or_eq.mp hi with hlt | rfl
    · have hne : addr i ≠ addr n := fun h => by
        have := hinj n (by omega) h.symm
        omega
      rw [update_of_ne hne, ih hlt fun j hj => hinj j (by omega)]
    · rw [update_self, putBytes_of_ne bytes mem fun j hj h => by
        have := hinj j (by omega) h
        omega]

/-- Offsets of the segment that are less than 64 KiB apart have different addresses. -/
theorem addr_inj (c : Cpu) (off : ℕ) {i j : ℕ} (hi : i < 2 ^ 16) (hj : j < 2 ^ 16)
    (h : c.addr (off + j) = c.addr (off + i)) : j = i := by
  simp only [Cpu.addr] at h
  omega

/-- The attribute of the entry that was asked for: the 1 that was written before the call, or the answer's. -/
theorem query_attribute (a : Answer) (c : Cpu) :
    (query a c).mem (c.addr (c.di + 20)) = (a.bytes 20).getD 1 := by
  have hone : putBytes (fun j => c.addr (c.di + 20 + j)) (fun j => some (UInt8.ofNat (1 >>> (8 * j)))) c.mem 4
      (c.addr (c.di + 20)) = 1 :=
    putBytes_get (i := 0) _ c.mem (by decide) fun j hj h => addr_inj c _ (by decide) (by omega) h
  have hget := putBytes_get a.bytes (putBytes (fun j => c.addr (c.di + 20 + j))
    (fun j => some (UInt8.ofNat (1 >>> (8 * j)))) c.mem 4) (show 20 < mmeSize by decide)
    fun j hj h => addr_inj c c.di (by decide) (lt_trans hj (by decide)) h
  rw [hone] at hget
  exact hget

theorem loadLE_and_one (mem : ℕ → UInt8) (w a : ℕ) : loadLE mem (w + 1) a &&& 1 = (mem a).toNat % 2 := by
  rw [Nat.and_one_is_mod, loadLE]
  omega

theorem loadMm1_eq (a : Answer) (c : Cpu) :
    loadMm1 a c = if a.Entry then loadMm3 (query a c) else (.error, query a c) := by
  have hattr : loadLE (fun off => (query a c).mem ((query a c).addr off)) 4 ((query a c).di + 20) &&& 0x1
      = ((a.bytes 20).getD 1).toNat % 2 := by
    rw [loadLE_and_one]
    exact congrArg (fun b : UInt8 => b.toNat % 2) (query_attribute a c)
  have hcf : (query a c).cf = a.carry := rfl
  have heax : (query a c).eax = a.eax := rfl
  have hecx : (query a c).ecx = a.ecx := rfl
  simp only [loadMm1, loadMm2, hattr, hcf, heax, hecx, Answer.Entry]
  split_ifs <;> simp_all

theorem query_stores (a : Answer) (c : Cpu) :
    ∀ x ∈ (query a c).stores, x ∈ c.stores ∨ ∃ j < mmeSize, x = c.addr (c.di + j) := by
  intro x hx
  rcases mem_append.mp hx with hx | hx
  · simp only [putAddrs, mem_map, mem_filter, mem_range] at hx
    obtain ⟨j, ⟨hj, -⟩, rfl⟩ := hx
    exact .inr ⟨j, hj, rfl⟩
  · rcases mem_append.mp hx with hx | hx
    · simp only [putAddrs, mem_map, mem_filter, mem_range] at hx
      obtain ⟨j, ⟨hj, -⟩, rfl⟩ := hx
      refine .inr ⟨20 + j, ?_, congrArg c.addr (Nat.add_assoc _ _ _)⟩
      rw [mmeSize]
      omega
    · exact .inl hx

/-! ### The loop -/

/-- The value that `%dx` has from the first call on. -/
def signLimit : ℕ := mmeSign % 2 ^ 16

section Rounds

variable {bios : ℕ → Answer} {c₀ c r : Cpu} {k m n : ℕ}

/-- The head of the loop after `k` rounds of a call with the registers `c₀`. -/
structure At (c₀ : Cpu) (k : ℕ) (c : Cpu) : Prop where
  es : c.es = c₀.es
  di : c.di % 2 ^ 16 = (c₀.di + mmeSize * k) % 2 ^ 16
  bp : c.bp = k
  calls : c.calls = k
  stores : ∀ x ∈ c.stores, c₀.InTable k x

/-- The end of the loop in round `m`, counted from 0. -/
structure Ended (bios : ℕ → Answer) (c₀ : Cpu) (m : ℕ) (r : Cpu) : Prop where
  calls : r.calls = m + 1
  stores : ∀ x ∈ r.stores, c₀.InTable (m + 1) x
  counted : r.cf = true ∨ r.bp = m + 1 ∧ (bios m).Entry

theorem at_enter (c₀ : Cpu) : At c₀ 0 (enter c₀) where
  es := rfl
  di := by rw [Nat.mul_zero, Nat.add_zero]; rfl
  bp := rfl
  calls := rfl
  stores := fun x hx => absurd hx (not_mem_nil)

theorem At.query_stores (h : At c₀ k c) (a : Answer) : ∀ x ∈ (query a c).stores, c₀.InTable (k + 1) x := by
  intro x hx
  rcases MemoryMap.query_stores a c x hx with hx | ⟨j, hj, rfl⟩
  · obtain ⟨i, hi, hj⟩ := h.stores x hx
    exact ⟨i, Nat.lt_succ_of_lt hi, hj⟩
  · refine ⟨k, Nat.lt_succ_self k, j, hj, ?_⟩
    rw [Cpu.addr, Cpu.addr, h.es, Nat.add_mod, h.di, ← Nat.add_mod]

/-- The round of an entry: it is counted, and the continuation value and the limit decide. -/
theorem At.entry (h : At c₀ k c) (hentry : (bios k).Entry) (hk : k < signLimit) :
    loadMm1 (bios c.calls) c =
      if (bios k).ebx = 0 then (.done, { query (bios k) c with bp := k + 1, cf := false })
      else if signLimit = k + 1 then (.error, { query (bios k) c with bp := k + 1 })
      else (.again, { query (bios k) c with bp := k + 1, di := (c.di + mmeSize) % 2 ^ 16 }) := by
  have hsign : signLimit = 0x4150 := rfl
  have hbp : (c.bp + 1) % 2 ^ 16 = k + 1 := by
    rw [h.bp]
    omega
  rw [loadMm1_eq, h.calls, if_pos hentry, ← hbp]
  rfl

/-- STEP: an answer with another one to come, below the limit, leads to the next round. -/
theorem At.next (h : At c₀ k c) (hlast : ¬(bios k).Last) (hk : k + 1 < signLimit) :
    ∃ c', At c₀ (k + 1) c' ∧ ∀ n, loop bios (n + 1) c = loop bios n c' := by
  rw [Answer.Last, not_or, not_not] at hlast
  refine ⟨{ query (bios k) c with bp := k + 1, di := (c.di + mmeSize) % 2 ^ 16 }, ?_, ?_⟩
  · refine ⟨h.es, ?_, rfl, congrArg (· + 1) h.calls, h.query_stores (bios k)⟩
    rw [Nat.mod_mod, Nat.add_mod, h.di, ← Nat.add_mod, Nat.mul_succ, Nat.add_assoc]
  · intro n
    rw [loop, h.entry hlast.1 (by omega), if_neg hlast.2, if_neg (by omega)]

/-- STEP: the last answer, or the one that reaches the limit, ends the loop. -/
theorem At.stop (h : At c₀ k c) (hstop : (bios k).Last ∨ k + 1 = signLimit) (hk : k < signLimit) :
    ∃ r, Ended bios c₀ k r ∧ ∀ n, loop bios (n + 1) c = some r := by
  have hstores := h.query_stores (bios k)
  have hcalls : (query (bios k) c).calls = k + 1 := congrArg (· + 1) h.calls
  by_cases hentry : (bios k).Entry
  · by_cases hebx : (bios k).ebx = 0
    · refine ⟨{ query (bios k) c with bp := k + 1, cf := false }, ⟨hcalls, hstores, .inr ⟨rfl, hentry⟩⟩, fun n => ?_⟩
      rw [loop, h.entry hentry hk, if_pos hebx]
    · have hlimit : signLimit = k + 1 := by
        rcases hstop with (hno | hzero) | hlimit
        · exact absurd hentry hno
        · exact absurd hzero hebx
        · exact hlimit.symm
      refine ⟨{ query (bios k) c with bp := k + 1, cf := true }, ⟨hcalls, hstores, .inl rfl⟩, fun n => ?_⟩
      rw [loop, h.entry hentry hk, if_neg hebx, if_pos hlimit]
  · refine ⟨{ query (bios k) c with cf := true }, ⟨hcalls, hstores, .inl rfl⟩, fun n => ?_⟩
    rw [loop, loadMm1_eq, h.calls, if_neg hentry]

/-- RUN: with no stop before round `m` the loop ends there. -/
theorem At.ends (h : At c₀ k c) (hkm : k ≤ m) (hgo : ∀ i, i < m → ¬((bios i).Last ∨ i + 1 = signLimit))
    (hstop : (bios m).Last ∨ m + 1 = signLimit) (hm : m < signLimit) :
    ∃ n r, Ended bios c₀ m r ∧ loop bios n c = some r := by
  induction hd : m - k generalizing k c with
  | zero =>
    obtain rfl : k = m := by omega
    obtain ⟨r, hr, hloop⟩ := h.stop hstop hm
    exact ⟨1, r, hr, hloop 0⟩
  | succ d ih =>
    have hnext := hgo k (by omega)
    rw [not_or] at hnext
    obtain ⟨c', h', heq⟩ := h.next hnext.1 (by omega)
    obtain ⟨n, r, hr, hloop⟩ := ih h' (by omega) (by omega)
    exact ⟨n + 1, r, hr, (heq n).trans hloop⟩

theorem loop_mono (h : loop bios n c = some r) (m : ℕ) : loop bios (n + m) c = some r := by
  induction n generalizing c with
  | zero => cases h
  | succ n ih =>
    rw [Nat.succ_add, loop]
    rw [loop] at h
    split at h
    · exact ih h
    · exact h
    · exact h

theorem loop_unique {r' : Cpu} (h : loop bios n c = some r) (h' : loop bios m c = some r') : r = r' := by
  have hn := loop_mono h m
  have hm := loop_mono h' n
  rw [Nat.add_comm] at hm
  exact Option.some.inj (hn.symm.trans hm)

theorem leave_ax {r : Cpu} (h : r.bp < 2 ^ 16) : (leave r).ax = r.bp := by
  have heax : (leave r).eax = r.eax / 2 ^ 16 * 2 ^ 16 + r.bp := rfl
  rw [Cpu.ax, heax]
  omega

/-- A loop that ends in round `m` has met entries only, or returns with the carry flag set. -/
theorem Ended.counts (h : Ended bios c₀ m r) (hgo : ∀ i, i < m → ¬((bios i).Last ∨ i + 1 = signLimit))
    (hm : m < signLimit) :
    (leave r).cf = true ∨ (leave r).ax = m + 1
      ∧ ((List.range (m + 1)).filter fun i => (bios i).Entry).length = m + 1 := by
  rcases h.counted with hcf | ⟨hbp, hentry⟩
  · exact .inl hcf
  · have hsign : signLimit = 0x4150 := rfl
    refine .inr ⟨by rw [leave_ax (by omega), hbp], ?_⟩
    have hall : ∀ i ∈ List.range (m + 1), decide (bios i).Entry = true := by
      intro i hi
      rw [decide_eq_true_iff]
      rcases Nat.lt_succ_iff_lt_or_eq.mp (mem_range.mp hi) with hlt | rfl
      · by_contra hno
        exact hgo i hlt (.inl (.inl hno))
      · exact hentry
    rw [filter_eq_self.mpr hall, length_range]

end Rounds

/-- BOUNDED: the table is kept just when the map ends within the answers the table has room for, or the table has
    room for 0x4150 entries. -/
theorem load_mm_bounded_iff (bios : ℕ → Answer) (c : Cpu) :
    Bounded bios c ↔ (∃ i < c.dx, (bios i).Last) ∨ 0x4150 ≤ c.dx := by
  have hsign : signLimit = 0x4150 := rfl
  have hex : ∃ i, (bios i).Last ∨ i + 1 = signLimit := ⟨0x414f, .inr rfl⟩
  -- the round in which the loop ends
  obtain ⟨m, hstop, hgo⟩ : ∃ m, ((bios m).Last ∨ m + 1 = signLimit)
      ∧ ∀ i, i < m → ¬((bios i).Last ∨ i + 1 = signLimit) :=
    ⟨Nat.find hex, Nat.find_spec hex, fun i hi => Nat.find_min hex hi⟩
  have hm : m < signLimit := by
    by_contra hge
    exact hgo 0x414f (by omega) (.inr rfl)
  obtain ⟨n, r, hr, hloop⟩ := (at_enter c).ends (Nat.zero_le m) hgo hstop hm
  constructor
  · rintro ⟨n', r', hload, hcalls, -⟩
    obtain ⟨r₁, hr₁, rfl⟩ := Option.map_eq_some_iff.mp hload
    obtain rfl := loop_unique hloop hr₁
    have hlt : m < c.dx := by
      have := hr.calls
      have hkeep : (leave r).calls = r.calls := rfl
      omega
    rcases hstop with hlast | hlimit
    · exact .inl ⟨m, hlt, hlast⟩
    · exact .inr (by omega)
  · intro hroom
    have hlt : m + 1 ≤ c.dx := by
      by_contra hge
      rcases hroom with ⟨i, hi, hlast⟩ | hlimit
      · exact hgo i (by omega) (.inl hlast)
      · omega
    have hcalls : (leave r).calls = m + 1 := hr.calls
    refine ⟨n, leave r, by rw [loadMm, hloop]; rfl, by omega, fun x hx => ?_, ?_⟩
    · obtain ⟨i, hi, hin⟩ := hr.stores x hx
      exact ⟨i, by omega, hin⟩
    · rcases hr.counts hgo hm with hcf | ⟨hax, hcount⟩
      · exact .inl hcf
      · exact .inr ⟨by rw [hax, hcalls, hcount], by omega⟩

/-- The call of `bootmon.S`: `BI_MM_TABLE_ADDR` in `%di` and `BI_MM_SIZE/MME_SIZE` in `%dx`. -/
def bootCall : Cpu :=
  { eax := 0, ebx := 0, ecx := 0, edx := 0x0800 / mmeSize, di := 0x8800, bp := 0, es := 0, cf := false
    stack := [], mem := fun _ => 0, stores := [], calls := 0 }

/-- A map of 86 entries of 20 bytes. -/
def longMap (i : ℕ) : Answer :=
  { carry := false, eax := mmeSign, ebx := if i = 85 then 0 else i + 1, ecx := 20
    bytes := fun j => if j < 20 then some 0 else none }

/-- The table has room for 85 entries, and the 86 of the map are stored and reported without an error. -/
theorem long_map_overflows :
    bootCall.dx = 85
      ∧ (loadMm longMap 86 bootCall).map (fun r => (r.cf, r.ax, r.calls)) = some (false, 86, 86) := by
  decide +kernel

end Advos.Boot.MemoryMap
