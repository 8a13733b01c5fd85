import Advos.Acpi.Tables
import Advos.Physmem.Complete
import Advos.Physmem.Zones

/-! The NUMA-aware zones (`arch.c`).

    From 64 MiB on the usable memory is divided by domain. `_add_region_to_numa_zones` cuts a usable
    region `[base, next)` to each memory region `[s, t)` of the SRAT, and adds the cut to the zone of
    its domain:

        base >= s, next <= t         s [base ......... next] t       [base, next)
        base >= s                    s [base ......... t]   next     [base, t)
        next <= t              base    [s ............ next] t       [s, next)
        otherwise              base    [s ............ t]   next     nothing

    The last line is a memory region inside the usable one: its pages go to no zone. The other cuts may
    be inverted where the two are apart, and an inverted region adds nothing. -/

namespace Advos.Physmem
open Word Tiling Function List

/-- `numazones[dom].heads`, by the `int` index. -/
abbrev NumaZones := ℤ → Buddy

/-- `phys_mem_buddy_add_region(mem->numazones[dom].heads, base + mem->p2v, next + mem->p2v)`. -/
def addToZone (p2v : ℕ) (zones : NumaZones) (dom : ℤ) (base next : ℕ) : NumaZones :=
  Function.update zones dom (physMemBuddyAddRegion (zones dom) (add64 base p2v) (add64 next p2v))

/-- One round of the loop of `_add_region_to_numa_zones`. -/
def addMemoryDomain (p2v base next : ℕ) (zones : NumaZones) (r : Acpi.Region) : NumaZones :=
  let s := r.base
  let t := add64 s r.length
  let dom := toInt32 r.domain
  if base ≥ s ∧ next ≤ t then addToZone p2v zones dom base next
  else if base ≥ s then addToZone p2v zones dom base t
  else if next ≤ t then addToZone p2v zones dom s next
  else zones

/-- `_add_region_to_numa_zones`; `regions` are the first `num_memory_region` elements of `memory_domain`. -/
def addRegionToNumaZones (p2v : ℕ) (regions : List Acpi.Region) (zones : NumaZones) (base next : ℕ) : NumaZones :=
  if regions.length > 1 then regions.foldl (addMemoryDomain p2v base next) zones
  else addToZone p2v zones 0 base next

/-! ### The linear map -/

/-- `KERNEL_LMAP`, the offset that `phys_memory_init` is called with. -/
def kernelLmap : ℕ := 0x100000000

variable {base next : ℕ}

/-- A physical region below `2 ^ 43` is in the window that starts at the offset. -/
theorem inWindow_lmap (hb : base ≤ regionEnd) (hn : next ≤ regionEnd) :
    InWindow kernelLmap (buddyOrder + 1) (base + kernelLmap) (next + kernelLmap) := by
  have hmul : regionEnd < 2 ^ 31 * blockSize (buddyOrder + 1 - 1) := by decide
  exact ⟨by decide, by decide, le_rfl, by omega, by omega, by omega, by omega, by omega⟩

theorem addRegion_lmap (hb : base ≤ regionEnd) (hn : next ≤ regionEnd) (b : Buddy) (x : ℕ) :
    freeCount (physMemBuddyAddRegion b (add64 base kernelLmap) (add64 next kernelLmap)) x =
      freeCount b x + pageWhole (base + kernelLmap) (next + kernelLmap) x := by
  have hend : regionEnd + kernelLmap < 2 ^ 64 := by decide
  have hpos : 0 < kernelLmap := by decide
  have hwin := inWindow_lmap hb hn
  rw [add64_of_lt (by omega), add64_of_lt (by omega), physMemBuddyAddRegion, addRegionOrder_eq,
    addBlocks_count x _ b, regionBlocks_cover x hwin fun h => absurd h (Nat.succ_ne_zero _)]
  rintro ⟨a, k⟩ hblk
  obtain ⟨hnew, -⟩ := regionBlocks_mem hwin hblk
  have hbase := hnew.base_le
  exact ⟨by dsimp only; omega, Nat.le_of_lt_succ hnew.order_lt⟩

theorem addToZone_count (hb : base ≤ regionEnd) (hn : next ≤ regionEnd) (zones : NumaZones) (dom d : ℤ) (x : ℕ) :
    freeCount (addToZone kernelLmap zones dom base next d) x =
      freeCount (zones d) x + if dom = d then pageWhole (base + kernelLmap) (next + kernelLmap) x else 0 := by
  unfold addToZone
  by_cases hd : dom = d
  · subst hd
    rw [update_self, if_pos rfl]
    exact addRegion_lmap hb hn ..
  · rw [update_of_ne (Ne.symm hd), if_neg hd, Nat.add_zero]

/-! ### Cutting -/

/-- The page, by virtual address, is wholly in the memory region. -/
def inDomain (r : Acpi.Region) (x : ℕ) : Prop := wholePage (r.base + kernelLmap) (r.base + r.length + kernelLmap) x

instance (r : Acpi.Region) (x : ℕ) : Decidable (inDomain r x) := by
  unfold inDomain
  infer_instance

/-- The memory region starts and ends inside the usable one. -/
def Inside (base next : ℕ) (r : Acpi.Region) : Prop := base < r.base ∧ r.base + r.length < next

instance (base next : ℕ) (r : Acpi.Region) : Decidable (Inside base next r) := by
  unfold Inside
  infer_instance

/-- The memory region `r` puts the page `x` into zone `d`. -/
def cuts (base next : ℕ) (d : ℤ) (r : Acpi.Region) (x : ℕ) : Bool :=
  toInt32 r.domain = d ∧ ¬Inside base next r ∧ wholePage (base + kernelLmap) (next + kernelLmap) x ∧ inDomain r x

section Distribution
variable {base next : ℕ} (hb : base ≤ regionEnd) (hn : next ≤ regionEnd)
include hb hn

/-- STEP: one memory region. -/
theorem addMemoryDomain_count {r : Acpi.Region} (hr : r.base + r.length ≤ regionEnd) (zones : NumaZones) (d : ℤ)
    (x : ℕ) : freeCount (addMemoryDomain kernelLmap base next zones r d) x =
      freeCount (zones d) x + if cuts base next d r x then 1 else 0 := by
  have hend : regionEnd < 2 ^ 64 := by decide
  have hs : r.base ≤ regionEnd := by omega
  simp only [addMemoryDomain, add64_of_lt (show r.base + r.length < 2 ^ 64 by omega)]
  -- what is added is the common part of the two, unless the memory region is inside
  have hcut : ∀ {lo hi : ℕ}, ¬Inside base next r → lo = max base r.base → hi = min next (r.base + r.length) →
      (if toInt32 r.domain = d then pageWhole (lo + kernelLmap) (hi + kernelLmap) x else 0) =
        if cuts base next d r x then 1 else 0 := by
    intro lo hi hin hlo hhi
    have hw : wholePage (lo + kernelLmap) (hi + kernelLmap) x ↔
        wholePage (base + kernelLmap) (next + kernelLmap) x ∧ inDomain r x := by
      rw [inDomain, wholePage_iff, wholePage_iff, wholePage_iff]
      omega
    simp only [cuts, pageWhole, hin, not_false_eq_true, true_and, hw, decide_eq_true_eq, ite_and]
  by_cases h1 : base ≥ r.base <;> by_cases h2 : next ≤ r.base + r.length
  · rw [if_pos ⟨h1, h2⟩, addToZone_count hb hn, hcut (fun h => absurd h.1 (by omega)) (by omega) (by omega)]
  · rw [if_neg (fun h => h2 h.2), if_pos h1, addToZone_count hb hr,
      hcut (fun h => absurd h.1 (by omega)) (by omega) (by omega)]
  · rw [if_neg (fun h => h1 h.1), if_neg h1, if_pos h2, addToZone_count hs hn,
      hcut (fun h => absurd h.2 (by omega)) (by omega) (by omega)]
  · -- the memory region is inside and falls through
    have hin : Inside base next r := ⟨by omega, by omega⟩
    have hnone : cuts base next d r x = false := decide_eq_false fun h => h.2.1 hin
    rw [if_neg (fun h => h1 h.1), if_neg h1, if_neg h2, hnone]
    rfl

/-- RUN: all memory regions. -/
theorem foldl_domains_count (d : ℤ) (x : ℕ) (regions : List Acpi.Region)
    (hr : ∀ r ∈ regions, r.base + r.length ≤ regionEnd) (zones : NumaZones) :
    freeCount (regions.foldl (addMemoryDomain kernelLmap base next) zones d) x =
      freeCount (zones d) x + cover (cuts base next d) regions x := by
  induction regions generalizing zones with
  | nil => rfl
  | cons r regions ih =>
    rw [forall_mem_cons] at hr
    rw [foldl_cons, ih hr.2, addMemoryDomain_count hb hn hr.1, cover_cons, Nat.add_right_comm, Nat.add_assoc]

end Distribution

/-! ### The distribution -/

/-- Each address is in one memory region at most. -/
def DisjointRegions (regions : List Acpi.Region) : Prop :=
  regions.Pairwise fun r r' => ∀ a, ¬((r.base ≤ a ∧ a < r.base + r.length) ∧ r'.base ≤ a ∧ a < r'.base + r'.length)

/-- Zone `d` has got the pages of `[base, next)` that lie in a memory region of domain `d`, each once. -/
def Distributed (regions : List Acpi.Region) (base next : ℕ) (zones zones' : NumaZones) : Prop :=
  ∀ d x, freeCount (zones' d) x = freeCount (zones d) x +
    if wholePage (base + kernelLmap) (next + kernelLmap) x ∧ ∃ r ∈ regions, toInt32 r.domain = d ∧ inDomain r x
    then 1 else 0

theorem cover_inDomain_le_one {regions : List Acpi.Region} (h : DisjointRegions regions) (x : ℕ) :
    cover (fun r x => decide (inDomain r x)) regions x ≤ 1 := by
  refine cover_le_one_of_pairwise (h.imp fun {r r'} hd x => ?_) x
  rintro ⟨h1, h2⟩
  rw [decide_eq_true_eq, inDomain, wholePage_iff] at h1 h2
  exact hd (x * 4096 - kernelLmap) ⟨⟨by omega, by omega⟩, by omega, by omega⟩

theorem cover_cuts_le_one {regions : List Acpi.Region} (h : DisjointRegions regions) (base next : ℕ) (d : ℤ) (x : ℕ) :
    cover (cuts base next d) regions x ≤ 1 := by
  refine le_trans (countP_mono_left fun r _ hr => ?_) (cover_inDomain_le_one h x)
  exact decide_eq_true (of_decide_eq_true hr).2.2.2

/-- The pages of a memory region, by physical and by virtual address. -/
theorem inDomain_lmap {r : Acpi.Region} {y : ℕ} :
    inDomain r (y + lmapPages) ↔ wholePage r.base (r.base + r.length) y := by
  rw [inDomain, wholePage_iff, wholePage_iff, kernelLmap, lmapPages]
  omega

/-- The pages are distributed by domain exactly if no memory region with a whole page starts and ends
    inside the usable region. -/
theorem numa_distributed_iff {regions : List Acpi.Region} (h2 : 2 ≤ regions.length) (hd : DisjointRegions regions)
    (hr : ∀ r ∈ regions, r.base + r.length ≤ 2 ^ 43) {base next : ℕ} (hb : base ≤ 2 ^ 43) (hn : next ≤ 2 ^ 43)
    (zones : NumaZones) :
    Distributed regions base next zones (addRegionToNumaZones kernelLmap regions zones base next) ↔
      ∀ r ∈ regions, base < r.base → r.base + r.length < next →
        ∀ y, ¬wholePage r.base (r.base + r.length) y := by
  have hcount : ∀ d x, freeCount (addRegionToNumaZones kernelLmap regions zones base next d) x =
      freeCount (zones d) x + cover (cuts base next d) regions x := by
    intro d x
    rw [addRegionToNumaZones, if_pos (show regions.length > 1 from h2)]
    exact foldl_domains_count hb hn d x regions hr zones
  simp only [Distributed, hcount, Nat.add_left_cancel_iff]
  constructor
  · -- a page of a memory region inside is put nowhere: no other memory region has it
    intro h r hmem hlo hhi y hy
    have hx : inDomain r (y + lmapPages) := inDomain_lmap.mpr hy
    have hwhole : wholePage (base + kernelLmap) (next + kernelLmap) (y + lmapPages) := by
      rw [inDomain, wholePage_iff] at hx
      rw [wholePage_iff]
      omega
    have hone := h (toInt32 r.domain) (y + lmapPages)
    rw [if_pos ⟨hwhole, r, hmem, rfl, hx⟩] at hone
    obtain ⟨r', hmem', hcut⟩ := (cover_pos _ _).mp (Nat.lt_of_lt_of_eq Nat.one_pos hone.symm)
    obtain ⟨-, hout, -, hx'⟩ := of_decide_eq_true hcut
    obtain rfl : r' = r := eq_of_cover_le_one (cover_inDomain_le_one hd) hmem' hmem (decide_eq_true hx') (decide_eq_true hx)
    exact hout ⟨hlo, hhi⟩
  · intro h d x
    have hle := cover_cuts_le_one hd base next d x
    have hpos : 0 < cover (cuts base next d) regions x ↔
        wholePage (base + kernelLmap) (next + kernelLmap) x ∧ ∃ r ∈ regions, toInt32 r.domain = d ∧ inDomain r x := by
      rw [cover_pos]
      constructor
      · rintro ⟨r, hmem, hcut⟩
        obtain ⟨hdom, -, hwhole, hx⟩ := of_decide_eq_true hcut
        exact ⟨hwhole, r, hmem, hdom, hx⟩
      · rintro ⟨hwhole, r, hmem, hdom, hx⟩
        refine ⟨r, hmem, decide_eq_true ⟨hdom, ?_, hwhole, hx⟩⟩
        rintro ⟨hlo, hhi⟩
        have hge : lmapPages ≤ x := by
          rw [inDomain, wholePage_iff, kernelLmap] at hx
          rw [lmapPages]
          omega
        obtain ⟨y, rfl⟩ := Nat.exists_eq_add_of_le' hge
        exact h r hmem hlo hhi y (inDomain_lmap.mp hx)
    split
    · next hyes => exact Nat.le_antisymm hle (hpos.mpr hyes)
    · next hno => exact Nat.eq_zero_of_not_pos fun hp => hno (hpos.mp hp)

/-- A memory region of each of two domains, below and above 1 GiB. -/
def twoDomains : List Acpi.Region := [⟨0, 0x40000000, 0⟩, ⟨0x40000000, 0x40000000, 1⟩]

theorem twoDomains_disjoint : DisjointRegions twoDomains := by
  simp only [DisjointRegions, twoDomains, pairwise_cons, mem_singleton, forall_eq]
  simp
  omega

/-- A usable region over both domains, from 64 MiB to 2 GiB. -/
theorem numa_distributed_two_domains : Distributed twoDomains 0x4000000 0x80000000 (fun _ => emptyLists)
    (addRegionToNumaZones kernelLmap twoDomains (fun _ => emptyLists) 0x4000000 0x80000000) := by
  refine (numa_distributed_iff (by decide) twoDomains_disjoint (by decide) (by decide) (by decide) _).mpr ?_
  intro r hr h1 h2
  simp only [twoDomains, List.mem_cons, List.not_mem_nil, or_false] at hr
  rcases hr with rfl | rfl
  · simp at h1
  · simp at h2

/-- The usable region is longer: domain 1 is inside, and gets nothing. -/
theorem domain_inside_lost : DisjointRegions twoDomains ∧
    freeCount (addRegionToNumaZones kernelLmap twoDomains (fun _ => emptyLists) 0x4000000 0x80001000 1)
      (0x40000 + lmapPages) = 0 ∧
    ¬Distributed twoDomains 0x4000000 0x80001000 (fun _ => emptyLists)
      (addRegionToNumaZones kernelLmap twoDomains (fun _ => emptyLists) 0x4000000 0x80001000) := by
  have hzero : freeCount (addRegionToNumaZones kernelLmap twoDomains (fun _ => emptyLists) 0x4000000 0x80001000 1)
      (0x40000 + lmapPages) = 0 := by
    decide +kernel
  refine ⟨twoDomains_disjoint, hzero, fun h => ?_⟩
  have hone := h 1 (0x40000 + lmapPages)
  rw [hzero, if_pos] at hone
  · omega
  · exact ⟨by decide, ⟨0x40000000, 0x40000000, 1⟩, by decide, by decide, by decide⟩

end Advos.Physmem
