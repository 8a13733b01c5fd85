import Advos.Physmem.Numa
import Advos.Schemes.Bytes

/-! The array of the NUMA-aware zones (`_init_numa_zones`).

    The zones of the domains `0 .. max_domain` are in one block of the kernel zone, as many pages as the
    array needs, rounded up to a power of two:

        0        8                                160      168
        | valid  | heads[0] ... heads[18]         | valid  | heads[0] ...         2 ^ order pages |
        |== cleared: sizeof(int) bytes

    `kmemset` is given the size of an expression where the value was meant, and clears four bytes. The
    list heads keep what the pages had before. -/

namespace Advos.Physmem
open Word Bytes

/-- A `memory_sysmap_entry_t`, with the type that the NUMA-aware zones look at. -/
structure TypedEntry extends SysmapEntry where
  type : ℕ

/-! ### The model -/

/-- The loop for `max_domain`. -/
def maxDomain (regions : List Acpi.Region) : ℕ :=
  regions.foldl (fun m r => if r.domain > m then r.domain else m) 0

/-- `sizeof(phys_memory_zone_t)`: the flag, padded to 8 bytes, and the heads. -/
def zoneSize : ℕ := 8 + 8 * (18 + 1)

/-- The loop `while ( sz )`, which ends within as many rounds as `sz` has bits. -/
def orderLoop : ℕ → ℕ → ℕ → ℕ
  | 0, _, order => order
  | n + 1, sz, order => if sz = 0 then order else orderLoop n (sz >>> 1) (order + 1)

/-- The order of the block for the array; `max_domain + 1` is 32 bits wide. -/
def zonesOrder (maxDomain : ℕ) : ℕ :=
  orderLoop 64 (sub64 (zoneSize * ((maxDomain + 1) % 2 ^ 32)) 1 >>> 12) 0

/-- `kmemset` at the start of the block. -/
def kmemset (mem : ℕ → UInt8) (c : UInt8) (len : ℕ) : ℕ → UInt8 := fun i => if i < len then c else mem i

/-- The block when its first region is added: the allocation clears its link, then
    `kmemset(zones, 0, sizeof(1 << (order + MEMORY_PAGESIZE_SHIFT)))`. -/
def zonesArray (contents : ℕ → UInt8) : ℕ → UInt8 := kmemset (kmemset contents 0 8) 0 4

/-- `zones[d].heads[k]` of an array. -/
def headAt (array : ℕ → UInt8) (d k : ℕ) : ℕ := loadLE array 8 (zoneSize * d + 8 + 8 * k)

/-- The lists of an array: what is met behind a head, which may lead anywhere, is `behind`. -/
def arrayLists (behind : ℕ → List ℕ) (array : ℕ → UInt8) (maxDomain : ℕ) : NumaZones := fun d k =>
  if 0 ≤ d ∧ d ≤ maxDomain ∧ k ≤ buddyOrder then
    link (headAt array d.toNat k) (behind (headAt array d.toNat k))
  else []

section Init
variable (behind : (ℕ → UInt8) → ℕ → List ℕ)

/-- The zones before the first region is added, none if the allocation fails; `contents` is what the
    allocated pages have from before. -/
def zonesAtStart (kernel : Buddy) (regions : List Acpi.Region) (contents : ℕ → UInt8) : Option NumaZones :=
  if (physMemBuddyAlloc kernel (zonesOrder (maxDomain regions))).1 = 0 then none
  else some (arrayLists (behind contents) (zonesArray contents) (maxDomain regions))

/-- `base` in `_init_numa_zones`, clamped and rounded up. -/
def numaBase (e : SysmapEntry) : ℕ := alignUp (if e.base < numaAwareLb then numaAwareLb else e.base) 0

/-- `next` in `_init_numa_zones`, clamped and rounded down. -/
def numaNext (e : SysmapEntry) : ℕ :=
  alignDown (if add64 e.base e.len < numaAwareLb then numaAwareLb else add64 e.base e.len) 0

/-- One round of the loop of `_init_numa_zones`. -/
def addUsable (p2v : ℕ) (regions : List Acpi.Region) (zones : NumaZones) (e : TypedEntry) : NumaZones :=
  let base := numaBase e.toSysmapEntry
  let next := numaNext e.toSysmapEntry
  if base ≠ next ∧ e.type = 1 then addRegionToNumaZones p2v regions zones base next else zones

/-- What `_init_numa_zones` leaves: the lists of the kernel zone and, unless it returns -1, the zones. -/
structure NumaMemory where
  kernel : Buddy
  numazones : Option NumaZones

/-- `_init_numa_zones`. -/
def initNumaZones (m : PhysMemory) (regions : List Acpi.Region) (map : List TypedEntry) (contents : ℕ → UInt8) :
    NumaMemory where
  kernel := (physMemBuddyAlloc (m.heads .kernel) (zonesOrder (maxDomain regions))).2
  numazones := (zonesAtStart behind (m.heads .kernel) regions contents).map fun zones =>
    map.foldl (addUsable m.p2v regions) zones

end Init

/-! ### The size of the array -/

theorem orderLoop_bits (n : ℕ) {sz : ℕ} (h : sz < 2 ^ n) (order : ℕ) :
    ∃ d, orderLoop n sz order = order + d ∧ sz < 2 ^ d := by
  induction n generalizing sz order with
  | zero => exact ⟨0, rfl, h⟩
  | succ n ih =>
    rw [orderLoop]
    split
    · next h0 => exact ⟨0, rfl, by omega⟩
    · have hhalf : sz >>> 1 = sz / 2 := Nat.shiftRight_one sz
      rw [pow_succ] at h
      obtain ⟨d, hd, hlt⟩ := ih (by omega : sz >>> 1 < 2 ^ n) (order + 1)
      refine ⟨d + 1, by omega, ?_⟩
      rw [pow_succ]
      omega

theorem maxDomain_lt {regions : List Acpi.Region} (h : ∀ r ∈ regions, r.domain < 2 ^ 32) :
    maxDomain regions < 2 ^ 32 := by
  have hfold : ∀ (l : List Acpi.Region) (m : ℕ), m < 2 ^ 32 → (∀ r ∈ l, r.domain < 2 ^ 32) →
      l.foldl (fun m r => if r.domain > m then r.domain else m) m < 2 ^ 32 := by
    intro l
    induction l with
    | nil => exact fun m hm _ => hm
    | cons r l ih =>
      intro m hm hl
      rw [List.forall_mem_cons] at hl
      refine ih _ ?_ hl.2
      dsimp only
      split
      · exact hl.1
      · exact hm
  exact hfold regions 0 (by decide) h

/-- The array fits into the block, if there is one. Where `max_domain + 1` wraps no block is as large as
    the order that comes out. -/
theorem array_fits {m : ℕ} (hm : m < 2 ^ 32) {b : Buddy} (halloc : (physMemBuddyAlloc b (zonesOrder m)).1 ≠ 0) :
    zoneSize * (m + 1) ≤ blockSize (zonesOrder m) := by
  have hsmall : zonesOrder m ≤ buddyOrder := by
    by_contra hgt
    rw [physMemBuddyAlloc, if_pos (by omega)] at halloc
    exact halloc rfl
  have hord : zonesOrder m = orderLoop 64 (sub64 (zoneSize * ((m + 1) % 2 ^ 32)) 1 >>> 12) 0 := rfl
  have hval : m + 1 < 2 ^ 32 → sub64 (zoneSize * ((m + 1) % 2 ^ 32)) 1 = zoneSize * (m + 1) - 1 := by
    intro h
    rw [Nat.mod_eq_of_lt h]
    exact sub64_of_le (by rw [zoneSize]; omega) (by rw [zoneSize]; omega)
  have hwrap : m + 1 = 2 ^ 32 → sub64 (zoneSize * ((m + 1) % 2 ^ 32)) 1 = 2 ^ 64 - 1 := by
    intro h
    rw [h, Nat.mod_self, Nat.mul_zero]
    rfl
  have hlt := sub64_lt (zoneSize * ((m + 1) % 2 ^ 32)) 1
  generalize sub64 (zoneSize * ((m + 1) % 2 ^ 32)) 1 = sz at hord hval hwrap hlt
  have hdiv : sz >>> 12 = sz / 4096 := Nat.shiftRight_eq_div_pow sz 12
  have hlt' : sz >>> 12 < 2 ^ 64 := by
    rw [hdiv]
    exact (Nat.div_le_self ..).trans_lt hlt
  obtain ⟨d, hd, hbits⟩ := orderLoop_bits 64 hlt' 0
  rw [hd, Nat.zero_add] at hord
  rw [hord] at hsmall ⊢
  have hpow : 2 ^ d ≤ 2 ^ 18 := Nat.pow_le_pow_right (by decide) hsmall
  rw [blockSize, pageSize]
  rcases Nat.lt_or_ge (m + 1) (2 ^ 32) with h | h
  · have := hval h
    omega
  · -- the size wraps below zero, and has more bits than there are orders
    have := hwrap (by omega)
    omega

/-! ### What the heads hold -/

theorem headAt_kmemset (array : ℕ → UInt8) {len : ℕ} (h : len ≤ 8) (d k : ℕ) :
    headAt (kmemset array 0 len) d k = headAt array d k := by
  refine loadLE_congr fun i _ => ?_
  rw [kmemset, if_neg (by omega)]

theorem headAt_zonesArray (contents : ℕ → UInt8) (d k : ℕ) : headAt (zonesArray contents) d k = headAt contents d k := by
  rw [zonesArray, headAt_kmemset _ (by decide), headAt_kmemset _ le_rfl]

theorem link_eq_nil {a : ℕ} {rest : List ℕ} : link a rest = [] ↔ a = 0 := by
  rw [link]
  split <;> simp_all

theorem arrayLists_empty_iff {behind : ℕ → List ℕ} {array : ℕ → UInt8} {m : ℕ} :
    (∀ d k, arrayLists behind array m d k = []) ↔ ∀ d ≤ m, ∀ k ≤ buddyOrder, headAt array d k = 0 := by
  constructor
  · intro h d hd k hk
    have hnil := h d k
    rw [arrayLists, if_pos ⟨Int.natCast_nonneg d, Int.ofNat_le.mpr hd, hk⟩, Int.toNat_natCast] at hnil
    exact link_eq_nil.mp hnil
  · intro h d k
    rw [arrayLists]
    split
    · next hin =>
      obtain ⟨h0, hd, hk⟩ := hin
      exact link_eq_nil.mpr (h d.toNat (by omega) k hk)
    · rfl

/-! ### Two contents -/

section TwoRuns
variable (behind : (ℕ → UInt8) → ℕ → List ℕ) (m : PhysMemory) (regions : List Acpi.Region) (map : List TypedEntry)

/-- The free lists are the same for the contents `c` and `c'` of the pages, the array fits, and every
    list starts empty. -/
structure HeadsFixed (c c' : ℕ → UInt8) : Prop where
  same : (initNumaZones behind m regions map c).numazones = (initNumaZones behind m regions map c').numazones
  fits : zoneSize * (maxDomain regions + 1) ≤ blockSize (zonesOrder (maxDomain regions))
  empty : ∀ zones ∈ zonesAtStart behind (m.heads .kernel) regions c, ∀ d k, zones d k = []
  empty' : ∀ zones ∈ zonesAtStart behind (m.heads .kernel) regions c', ∀ d k, zones d k = []

end TwoRuns

/-- The lists do not depend on what the pages have from before exactly if that is zero at every head. -/
theorem heads_fixed_iff {behind : (ℕ → UInt8) → ℕ → List ℕ} {m : PhysMemory} {regions : List Acpi.Region}
    {map : List TypedEntry} (hdom : ∀ r ∈ regions, r.domain < 2 ^ 32)
    (halloc : (physMemBuddyAlloc (m.heads .kernel) (zonesOrder (maxDomain regions))).1 ≠ 0) {c c' : ℕ → UInt8} :
    HeadsFixed behind m regions map c c' ↔
      ∀ d ≤ maxDomain regions, ∀ k ≤ buddyOrder, headAt c d k = 0 ∧ headAt c' d k = 0 := by
  have hstart : ∀ c, zonesAtStart behind (m.heads .kernel) regions c =
      some (arrayLists (behind c) (zonesArray c) (maxDomain regions)) := fun c => if_neg halloc
  have hempty : ∀ c, (∀ zones ∈ zonesAtStart behind (m.heads .kernel) regions c, ∀ d k, zones d k = []) ↔
      ∀ d ≤ maxDomain regions, ∀ k ≤ buddyOrder, headAt c d k = 0 := by
    intro c
    simp only [hstart, Option.mem_some_iff, forall_eq', arrayLists_empty_iff, headAt_zonesArray]
  constructor
  · intro h d hd k hk
    exact ⟨(hempty c).mp h.empty d hd k hk, (hempty c').mp h.empty' d hd k hk⟩
  · intro h
    have hc := (hempty c).mpr fun d hd k hk => (h d hd k hk).1
    have hc' := (hempty c').mpr fun d hd k hk => (h d hd k hk).2
    refine ⟨?_, array_fits (maxDomain_lt hdom) halloc, hc, hc'⟩
    have hsame : zonesAtStart behind (m.heads .kernel) regions c = zonesAtStart behind (m.heads .kernel) regions c' := by
      simp only [hstart, Option.mem_some_iff, forall_eq'] at hc hc' ⊢
      refine congrArg some (funext fun d => funext fun k => ?_)
      rw [hc, hc']
    rw [initNumaZones, initNumaZones, hsame]

/-- The kernel zone of a machine with memory from 16 MiB to 32 MiB. -/
def smallMemory : PhysMemory := physMemoryInit [⟨0x1000000, 0x1000000, straddlingEntry.len_lt, straddlingEntry.len_lt⟩] kernelLmap

theorem heads_fixed_zero : HeadsFixed (fun _ _ => []) smallMemory [] [] (fun _ => 0) (fun _ => 0) :=
  (heads_fixed_iff (by decide) (by decide +kernel)).mpr fun d _ k _ => ⟨loadLE_zero 8 _, loadLE_zero 8 _⟩

/-- A page that has an address in its second word. -/
def stalePage : ℕ → UInt8 := fun i => if i = 11 then 8 else 0

/-- Zone 0 of a machine without any memory for it hands out the stale address. -/
theorem stale_head_handed_out :
    ((initNumaZones (fun _ _ => []) smallMemory [] [] stalePage).numazones.map
        fun zones => (physMemBuddyAlloc (zones 0) 0).1) = some 0x8000000 ∧
      ((initNumaZones (fun _ _ => []) smallMemory [] [] fun _ => 0).numazones.map
        fun zones => (physMemBuddyAlloc (zones 0) 0).1) = some 0 ∧
      ¬HeadsFixed (fun _ _ => []) smallMemory [] [] stalePage (fun _ => 0) := by
  have hstale : ((initNumaZones (fun _ _ => []) smallMemory [] [] stalePage).numazones.map
      fun zones => (physMemBuddyAlloc (zones 0) 0).1) = some 0x8000000 := by decide +kernel
  have hzero : ((initNumaZones (fun _ _ => []) smallMemory [] [] fun _ => 0).numazones.map
      fun zones => (physMemBuddyAlloc (zones 0) 0).1) = some 0 := by decide +kernel
  refine ⟨hstale, hzero, fun h => ?_⟩
  rw [h.same, hzero] at hstale
  simp at hstale

end Advos.Physmem
