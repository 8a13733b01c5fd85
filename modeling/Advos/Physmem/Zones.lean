import Advos.Physmem.Runs

/-! The zones at boot.

    `phys_memory_init` goes through the memory map of the system. Each entry is cut to what lies above
    the first 2 MiB and below 64 MiB, in whole pages, and added to the DMA zone or to the kernel zone:

        0      2 MiB              16 MiB                      64 MiB
        | boot | DMA              | kernel                    | NUMA-aware

    An entry with pages on both sides of 16 MiB is added to both zones as a whole: the bound that would
    cut it is computed and not used. The free lists of the zones are modelled apart, as they are as long
    as no block is in both. -/

namespace Advos.Physmem
open Word Tiling Function List

/-- `MEMORY_ZONE_KERNEL_LB`. -/
def kernelLb : ℕ := 0x01000000

/-- `MEMORY_ZONE_NUMA_AWARE_LB`. -/
def numaAwareLb : ℕ := 0x04000000

/-- The first 2 MiB are for the boot loader and the kernel. -/
def bootEnd : ℕ := 0x00200000

/-- What `phys_memory_init` reads of a `memory_sysmap_entry_t`. -/
structure SysmapEntry where
  base : ℕ
  len : ℕ
  base_lt : base < 2 ^ 64
  len_lt : len < 2 ^ 64

/-- `MEMORY_ZONE_DMA` and `MEMORY_ZONE_KERNEL`. -/
inductive CoreZone
  | dma
  | kernel
deriving DecidableEq, Repr

structure PhysMemory where
  p2v : ℕ
  heads : CoreZone → Buddy
  valid : CoreZone → Bool

/-- `base` after it is clamped and rounded up. -/
def entryBase (e : SysmapEntry) : ℕ := alignUp (if e.base < bootEnd then bootEnd else e.base) 0

/-- `next` after it is clamped and rounded down. -/
def entryNext (e : SysmapEntry) : ℕ :=
  alignDown (if add64 e.base e.len < bootEnd then bootEnd else add64 e.base e.len) 0

/-- `next` without the NUMA-aware zone. -/
def coreNext (e : SysmapEntry) : ℕ := if entryNext e > numaAwareLb then numaAwareLb else entryNext e

/-- One round of the loop of `phys_memory_init`. -/
def addEntry (p2v : ℕ) (zones : CoreZone → Buddy) (e : SysmapEntry) : CoreZone → Buddy :=
  let base := entryBase e
  if base ≥ numaAwareLb then zones
  else
    let next := coreNext e
    let region (buddy : Buddy) : Buddy := physMemBuddyAddRegion buddy (add64 base p2v) (add64 next p2v)
    let zones := if next > kernelLb then Function.update zones .kernel (region (zones .kernel)) else zones
    if base < kernelLb then Function.update zones .dma (region (zones .dma)) else zones

/-- `phys_memory_init`. -/
def physMemoryInit (map : List SysmapEntry) (p2v : ℕ) : PhysMemory where
  p2v := p2v
  heads := map.foldl (addEntry p2v) fun _ => emptyLists
  valid _ := true

/-! ### Clamping and rounding -/

theorem alignUp_clamped {lb base : ℕ} (hlb : lb + 4096 ≤ 2 ^ 64) (hb : base < 2 ^ 64) :
    alignUp (if base < lb then lb else base) 0 =
      if base + 4096 ≤ 2 ^ 64 then 4096 * ((max lb base + 4095) / 4096) else 0 := by
  have hmax : (if base < lb then lb else base) = max lb base := by
    split <;> omega
  rw [hmax, alignUp, blockSize_eq, and_not_mask (add64_lt ..), add64]
  split <;> omega

theorem alignDown_clamped {lb next : ℕ} (hlb : lb < 2 ^ 64) (hn : next < 2 ^ 64) :
    alignDown (if next < lb then lb else next) 0 = 4096 * (max lb next / 4096) := by
  have hmax : (if next < lb then lb else next) = max lb next := by
    split <;> omega
  rw [hmax, alignDown, blockSize_eq, and_not_mask (by omega)]
  omega

theorem entryBase_eq (e : SysmapEntry) :
    entryBase e = if e.base + 4096 ≤ 2 ^ 64 then 4096 * ((max bootEnd e.base + 4095) / 4096) else 0 :=
  alignUp_clamped (by decide) e.base_lt

theorem entryNext_eq (e : SysmapEntry) :
    entryNext e = 4096 * (max bootEnd ((e.base + e.len) % 2 ^ 64) / 4096) :=
  alignDown_clamped (by decide) (add64_lt ..)

theorem coreNext_eq (e : SysmapEntry) : coreNext e = min numaAwareLb (entryNext e) := by
  rw [coreNext]
  split <;> omega

/-! ### What an entry adds -/

/-- The entry is added to the zone. -/
def AddedTo (e : SysmapEntry) (z : CoreZone) : Prop :=
  entryBase e < numaAwareLb ∧ match z with
    | .kernel => kernelLb < coreNext e
    | .dma => entryBase e < kernelLb

instance (e : SysmapEntry) (z : CoreZone) : Decidable (AddedTo e z) := by
  unfold AddedTo
  cases z <;> infer_instance

/-- How often the entry puts the page `x` into the zone; the pages are numbered by virtual address. -/
def addedPages (p2v : ℕ) (z : CoreZone) (e : SysmapEntry) (x : ℕ) : ℕ :=
  if AddedTo e z then pageWhole (entryBase e + p2v) (coreNext e + p2v) x else 0

section Offset
variable {p2v : ℕ} (hp : 0 < p2v) (hp' : p2v + numaAwareLb < regionEnd)
include hp hp'

theorem addRegion_count {buddy : Buddy} (hl : ∀ k, ListOk k (buddy k)) {base next : ℕ} (hb : base < numaAwareLb)
    (hn : next ≤ numaAwareLb) :
    (∀ k, ListOk k (physMemBuddyAddRegion buddy (add64 base p2v) (add64 next p2v) k)) ∧
      ∀ x, freeCount (physMemBuddyAddRegion buddy (add64 base p2v) (add64 next p2v)) x =
        freeCount buddy x + pageWhole (base + p2v) (next + p2v) x := by
  have hend : regionEnd < 2 ^ 64 := by decide
  rw [add64_of_lt (by omega), add64_of_lt (by omega), physMemBuddyAddRegion]
  generalize hN : buddyOrder + 1 = N
  have R := addRegionOrder_spec hN.ge (by omega : base + p2v < regionEnd) (by omega : next + p2v < regionEnd) hl
    fun h => by simp [← hN] at h
  exact ⟨R.list, R.count_eq (.inl (by omega))⟩

/-- STEP: one entry adds its pages to the zones it is added to. -/
theorem addEntry_count {zones : CoreZone → Buddy} (hl : ∀ z k, ListOk k (zones z k)) (e : SysmapEntry) (z : CoreZone) :
    (∀ k, ListOk k (addEntry p2v zones e z k)) ∧
      ∀ x, freeCount (addEntry p2v zones e z) x = freeCount (zones z) x + addedPages p2v z e x := by
  have hnext : coreNext e ≤ numaAwareLb := by
    rw [coreNext_eq]
    exact min_le_left ..
  simp only [addEntry]
  by_cases hbase : entryBase e ≥ numaAwareLb
  · have hnot : ¬AddedTo e z := fun h => absurd h.1 (by omega)
    simp only [addedPages, if_pos hbase, if_neg hnot, Nat.add_zero]
    exact ⟨hl z, fun _ => trivial⟩
  have hbase' : entryBase e < numaAwareLb := by omega
  have hregion := addRegion_count hp hp' (hl z) hbase' hnext
  rw [if_neg hbase]
  cases z with
  | dma =>
    have hiff : AddedTo e .dma ↔ entryBase e < kernelLb := and_iff_right hbase'
    have hsame : ∀ b, (if coreNext e > kernelLb then update zones .kernel b else zones) .dma = zones .dma := by
      intro b
      split
      · exact update_of_ne (by decide) ..
      · rfl
    simp only [addedPages, hiff]
    by_cases hadd : entryBase e < kernelLb
    · simp only [if_pos hadd, update_self, hsame]
      exact hregion
    · simp only [if_neg hadd, hsame]
      exact ⟨hl .dma, fun _ => rfl⟩
  | kernel =>
    have hiff : AddedTo e .kernel ↔ coreNext e > kernelLb := and_iff_right hbase'
    have hsame : ∀ (c : Prop) [Decidable c] (u : CoreZone → Buddy) (b : Buddy),
        (if c then update u .dma b else u) .kernel = u .kernel := by
      intro c _ u b
      split
      · exact update_of_ne (by decide) ..
      · rfl
    simp only [hsame, addedPages, hiff]
    by_cases hadd : coreNext e > kernelLb
    · simp only [if_pos hadd, update_self]
      exact hregion
    · simp only [if_neg hadd]
      exact ⟨hl .kernel, fun _ => rfl⟩

/-- RUN: the whole map. -/
theorem foldl_count (map : List SysmapEntry) {zones : CoreZone → Buddy} (hl : ∀ z k, ListOk k (zones z k)) (z : CoreZone) :
    (∀ k, ListOk k (map.foldl (addEntry p2v) zones z k)) ∧ ∀ x, freeCount (map.foldl (addEntry p2v) zones z) x =
      freeCount (zones z) x + (map.map fun e => addedPages p2v z e x).sum := by
  induction map generalizing zones with
  | nil => exact ⟨hl z, fun _ => rfl⟩
  | cons e map ih =>
    have hone := fun z => addEntry_count hp hp' hl e z
    obtain ⟨hlists, hcount⟩ := ih fun z => (hone z).1
    refine ⟨hlists, fun x => ?_⟩
    rw [foldl_cons, hcount, (hone z).2 x, map_cons, sum_cons, Nat.add_assoc]

theorem init_spec (map : List SysmapEntry) (z : CoreZone) :
    (∀ k, ListOk k ((physMemoryInit map p2v).heads z k)) ∧
      ∀ x, freeCount ((physMemoryInit map p2v).heads z) x = (map.map fun e => addedPages p2v z e x).sum := by
  have hnil : ∀ (_ : CoreZone) k, ListOk k (emptyLists k) := fun _ k => ListOk.nil k
  obtain ⟨hlists, hcount⟩ := foldl_count hp hp' map hnil z
  refine ⟨hlists, fun x => ?_⟩
  have h := hcount x
  rw [freeCount_empty, Nat.zero_add] at h
  exact h

theorem init_count (map : List SysmapEntry) (z : CoreZone) (x : ℕ) :
    freeCount ((physMemoryInit map p2v).heads z) x = (map.map fun e => addedPages p2v z e x).sum :=
  (init_spec hp hp' map z).2 x

end Offset

/-! ### The partition -/

/-- The page `y`, by physical address, is wholly in the entry. -/
def SysmapEntry.holds (e : SysmapEntry) (y : ℕ) : Bool := wholePage e.base (e.base + e.len) y

/-- Each address is in one entry at most. -/
def DisjointMap (map : List SysmapEntry) : Prop :=
  map.Pairwise fun e e' => ∀ a, ¬((e.base ≤ a ∧ a < e.base + e.len) ∧ e'.base ≤ a ∧ a < e'.base + e'.len)

/-- The zones have only pages of their own range, and each whole page of an entry between 2 MiB and 64
    MiB once. -/
structure Partitioned (map : List SysmapEntry) (m : PhysMemory) : Prop where
  dma : ∀ x, 0 < freeCount (m.heads .dma) x →
    bootEnd + m.p2v ≤ x * pageSize ∧ x * pageSize < kernelLb + m.p2v
  kernel : ∀ x, 0 < freeCount (m.heads .kernel) x →
    kernelLb + m.p2v ≤ x * pageSize ∧ x * pageSize < numaAwareLb + m.p2v
  once : ∀ y, bootEnd ≤ y * pageSize → y * pageSize < numaAwareLb → (∃ e ∈ map, e.holds y = true) →
    freeCount (m.heads .dma) (y + m.p2v / pageSize) + freeCount (m.heads .kernel) (y + m.p2v / pageSize) = 1

/-- The entry starts before the last page of the address space, reaches its end only from 64 MiB on, and
    does not have pages on both sides of 16 MiB. -/
def SysmapEntry.Sided (e : SysmapEntry) : Prop :=
  e.base + 4096 ≤ 2 ^ 64 ∧ (e.base + e.len < 2 ^ 64 ∨ numaAwareLb < e.base + 4096) ∧
    ¬(e.base + 4096 ≤ kernelLb ∧ kernelLb + 4096 ≤ e.base + e.len)

theorem holds_iff {e : SysmapEntry} {y : ℕ} :
    e.holds y = true ↔ e.base ≤ y * 4096 ∧ y * 4096 + 4096 ≤ e.base + e.len := by
  rw [SysmapEntry.holds, decide_eq_true_eq, wholePage_iff]

theorem cover_holds_le_one {map : List SysmapEntry} (h : DisjointMap map) (y : ℕ) :
    cover SysmapEntry.holds map y ≤ 1 := by
  refine cover_le_one_of_pairwise (h.imp fun {e e'} hd x => ?_) y
  rintro ⟨he, he'⟩
  rw [holds_iff] at he he'
  exact hd (x * 4096) ⟨⟨he.1, by omega⟩, he'.1, by omega⟩

section Bounds
variable {e : SysmapEntry}

theorem entryBase_le_iff (h : e.base + 4096 ≤ 2 ^ 64) {y : ℕ} (hlo : bootEnd ≤ y * 4096) :
    entryBase e ≤ y * 4096 ↔ e.base ≤ y * 4096 := by
  have hb := entryBase_eq e
  rw [if_pos h] at hb
  omega

theorem bootEnd_le_entryBase (h : e.base + 4096 ≤ 2 ^ 64) : bootEnd ≤ entryBase e := by
  have hb := entryBase_eq e
  rw [if_pos h] at hb
  omega

theorem entryBase_lt_iff (h : e.base + 4096 ≤ 2 ^ 64) : entryBase e < kernelLb ↔ e.base + 4096 ≤ kernelLb := by
  have hb := entryBase_eq e
  rw [if_pos h] at hb
  simp only [bootEnd, kernelLb] at *
  omega

/-- Nor does rounding down, for an entry that stays below the end of the address space. -/
theorem le_coreNext_iff (h : e.base + e.len < 2 ^ 64) {y : ℕ} (hlo : bootEnd ≤ y * 4096) (hhi : y * 4096 < numaAwareLb) :
    y * 4096 + 4096 ≤ coreNext e ↔ y * 4096 + 4096 ≤ e.base + e.len := by
  have hn := entryNext_eq e
  rw [Nat.mod_eq_of_lt h] at hn
  rw [coreNext_eq]
  simp only [bootEnd, numaAwareLb] at *
  omega

theorem bootEnd_le_coreNext : bootEnd ≤ coreNext e := by
  have hn := entryNext_eq e
  rw [coreNext_eq]
  simp only [bootEnd, numaAwareLb] at *
  omega

theorem coreNext_le : coreNext e ≤ numaAwareLb := by
  rw [coreNext_eq]
  exact min_le_left ..

theorem kernelLb_lt_coreNext_iff (h : e.base + e.len < 2 ^ 64) :
    kernelLb < coreNext e ↔ kernelLb + 4096 ≤ e.base + e.len := by
  have hn := entryNext_eq e
  rw [Nat.mod_eq_of_lt h] at hn
  rw [coreNext_eq]
  simp only [bootEnd, kernelLb, numaAwareLb] at *
  omega

theorem coreNext_wrapped (h : 2 ^ 64 ≤ e.base + e.len) : coreNext e ≤ max bootEnd e.base := by
  have hn := entryNext_eq e
  have hlen := e.len_lt
  have hmod : (e.base + e.len) % 2 ^ 64 ≤ e.base := by
    rw [Nat.mod_eq_sub_mod h]
    exact (Nat.mod_le ..).trans (by omega)
  rw [coreNext_eq]
  omega

end Bounds

section Pages
variable {P : ℕ} {e : SysmapEntry} {z : CoreZone}

theorem addedPages_pos {x : ℕ} : 0 < addedPages (4096 * P) z e x ↔
    AddedTo e z ∧ entryBase e + 4096 * P ≤ x * 4096 ∧ x * 4096 + 4096 ≤ coreNext e + 4096 * P := by
  rw [addedPages, pageWhole, ← wholePage_iff]
  by_cases hadd : AddedTo e z <;> by_cases hw : wholePage (entryBase e + 4096 * P) (coreNext e + 4096 * P) x <;>
    simp [hadd, hw]

theorem addedPages_le_one (p2v : ℕ) (z : CoreZone) (e : SysmapEntry) (x : ℕ) : addedPages p2v z e x ≤ 1 := by
  rw [addedPages, pageWhole]
  split
  · split <;> omega
  · omega

/-- A page between the rounded ends goes to each zone that the entry is added to. -/
theorem addedPages_pos_iff {y : ℕ} (hb : entryBase e ≤ y * 4096) (hn : y * 4096 + 4096 ≤ coreNext e) :
    0 < addedPages (4096 * P) z e (y + P) ↔ AddedTo e z := by
  rw [addedPages_pos]
  exact and_iff_left ⟨by linarith, by linarith⟩

/-- An entry that adds a page does not reach the end of the address space. -/
theorem end_lt_of_added (hbase : e.base + 4096 ≤ 2 ^ 64) {x : ℕ} (hadd : 0 < addedPages (4096 * P) z e x) :
    e.base + e.len < 2 ^ 64 := by
  obtain ⟨-, hb, hn⟩ := addedPages_pos.mp hadd
  by_contra hwrap
  have hmax := coreNext_wrapped (e := e) (by omega)
  have hup := entryBase_eq e
  rw [if_pos hbase] at hup
  omega

/-- One that starts in the last page is rounded up to 0 and adds the pages from there on. -/
theorem added_of_last_page (h : ¬e.base + 4096 ≤ 2 ^ 64) : 0 < addedPages (4096 * P) .dma e P := by
  have hzero : entryBase e = 0 := by rw [entryBase_eq, if_neg h]
  have hnext := bootEnd_le_coreNext (e := e)
  rw [addedPages_pos, AddedTo, hzero]
  simp only [bootEnd, numaAwareLb, kernelLb] at *
  omega

/-- A page from 2 MiB on that an entry adds is a page of the entry. -/
theorem holds_of_added (h : e.base + 4096 ≤ 2 ^ 64) {y : ℕ} (hlo : bootEnd ≤ y * 4096)
    (hadd : 0 < addedPages (4096 * P) z e (y + P)) : e.holds y = true := by
  obtain ⟨-, hb, hn⟩ := addedPages_pos.mp hadd
  rw [Nat.add_mul, Nat.mul_comm P, Nat.add_le_add_iff_right] at hb
  rw [Nat.add_mul, Nat.mul_comm P, Nat.add_right_comm, Nat.add_le_add_iff_right] at hn
  have hhi : y * 4096 + 4096 ≤ numaAwareLb := hn.trans coreNext_le
  rw [holds_iff]
  refine ⟨(entryBase_le_iff h hlo).mp hb, ?_⟩
  by_cases hend : e.base + e.len < 2 ^ 64
  · exact (le_coreNext_iff hend hlo (by omega)).mp hn
  · rw [numaAwareLb] at hhi
    omega

/-- An entry on one side puts each page of its own once into one of the zones. -/
theorem addedPages_sided (he : e.Sided) {y : ℕ} (hlo : bootEnd ≤ y * 4096) (hhi : y * 4096 < numaAwareLb)
    (hy : e.holds y = true) :
    addedPages (4096 * P) .dma e (y + P) + addedPages (4096 * P) .kernel e (y + P) = 1 := by
  obtain ⟨hbase, hend, hside⟩ := he
  obtain ⟨hy1, hy2⟩ := holds_iff.mp hy
  have hhi' : ¬numaAwareLb < e.base + 4096 := by
    simp only [numaAwareLb] at *
    omega
  have hend : e.base + e.len < 2 ^ 64 := hend.resolve_right hhi'
  have hb : entryBase e ≤ y * 4096 := (entryBase_le_iff hbase hlo).mpr hy1
  have hn : y * 4096 + 4096 ≤ coreNext e := (le_coreNext_iff hend hlo hhi).mpr hy2
  rw [← entryBase_lt_iff hbase, ← kernelLb_lt_coreNext_iff hend] at hside
  have hdma : AddedTo e .dma ↔ entryBase e < kernelLb := and_iff_right (hb.trans_lt hhi)
  have hkernel : AddedTo e .kernel ↔ kernelLb < coreNext e := and_iff_right (hb.trans_lt hhi)
  have h1 := addedPages_le_one (4096 * P) .dma e (y + P)
  have h2 := addedPages_le_one (4096 * P) .kernel e (y + P)
  have hd := (addedPages_pos_iff (P := P) hb hn).trans hdma
  have hk := (addedPages_pos_iff (P := P) hb hn).trans hkernel
  generalize entryBase e = b at *
  generalize coreNext e = n at *
  omega

theorem sided_range (he : e.Sided) {x : ℕ} (hadd : 0 < addedPages (4096 * P) z e x) :
    match z with
    | .dma => bootEnd + 4096 * P ≤ x * 4096 ∧ x * 4096 < kernelLb + 4096 * P
    | .kernel => kernelLb + 4096 * P ≤ x * 4096 ∧ x * 4096 < numaAwareLb + 4096 * P := by
  obtain ⟨hbase, -, hside⟩ := he
  have hend := end_lt_of_added hbase hadd
  obtain ⟨hadd, hb, hn⟩ := addedPages_pos.mp hadd
  have hlo := bootEnd_le_entryBase hbase
  have hcore := coreNext_le (e := e)
  rw [← entryBase_lt_iff hbase, ← kernelLb_lt_coreNext_iff hend] at hside
  cases z with
  | dma =>
    have := hadd.2
    dsimp only at this ⊢
    omega
  | kernel =>
    have := hadd.2
    dsimp only at this ⊢
    omega

end Pages

section Init
variable {map : List SysmapEntry} {P : ℕ} (hP : 0 < P) (hP' : 4096 * P + numaAwareLb < regionEnd)
include hP hP'

theorem init_pos {z : CoreZone} {x : ℕ} :
    0 < freeCount ((physMemoryInit map (4096 * P)).heads z) x ↔ ∃ e ∈ map, 0 < addedPages (4096 * P) z e x := by
  rw [init_count (by omega) hP', sum_map_pos]

/-- Entries on one side, and each address in one of them at most, give each zone its own pages. -/
theorem partitioned_of_sided (hd : DisjointMap map) (hs : ∀ e ∈ map, e.Sided) :
    Partitioned map (physMemoryInit map (4096 * P)) where
  dma x hx := by
    obtain ⟨e, he, hadd⟩ := (init_pos hP hP').mp hx
    exact sided_range (hs e he) hadd
  kernel x hx := by
    obtain ⟨e, he, hadd⟩ := (init_pos hP hP').mp hx
    exact sided_range (hs e he) hadd
  once y hlo hhi hy := by
    have hdiv : (physMemoryInit map (4096 * P)).p2v / pageSize = P := Nat.mul_div_cancel_left P (by decide)
    rw [hdiv, init_count (by omega) hP', init_count (by omega) hP', ← sum_map_add]
    -- the pages that the entries add are counted as the entries are
    have hone : ∀ e ∈ map, addedPages (4096 * P) .dma e (y + P) + addedPages (4096 * P) .kernel e (y + P) =
        if e.holds y then 1 else 0 := by
      intro e he
      split
      · next h => exact addedPages_sided (hs e he) hlo hhi h
      · next h =>
        have h1 : ¬0 < addedPages (4096 * P) .dma e (y + P) := fun hadd => h (holds_of_added (hs e he).1 hlo hadd)
        have h2 : ¬0 < addedPages (4096 * P) .kernel e (y + P) := fun hadd => h (holds_of_added (hs e he).1 hlo hadd)
        omega
    rw [map_congr_left hone, ← cover_eq_sum]
    have hle := cover_holds_le_one hd y
    have hpos := (cover_pos SysmapEntry.holds y).mpr hy
    omega

variable {e : SysmapEntry}

/-- In a partition no entry starts in the last page of the address space: it would be rounded up to 0. -/
theorem base_le_of_partitioned (h : Partitioned map (physMemoryInit map (4096 * P))) (he : e ∈ map) :
    e.base + 4096 ≤ 2 ^ 64 := by
  by_contra hlast
  have hadd : 0 < addedPages (4096 * P) .dma e P := added_of_last_page hlast
  have hrange : bootEnd + 4096 * P ≤ P * 4096 := (h.dma P ((init_pos hP hP').mpr ⟨e, he, hadd⟩)).1
  rw [bootEnd] at hrange
  omega

/-- Nor does one reach the end from below 64 MiB: its last page below would be lost. -/
theorem end_lt_of_partitioned (hd : DisjointMap map) (h : Partitioned map (physMemoryInit map (4096 * P)))
    (he : e ∈ map) (hbase : e.base + 4096 ≤ numaAwareLb) : e.base + e.len < 2 ^ 64 := by
  by_contra hwrap
  obtain ⟨y, hy⟩ : ∃ y, y = 16383 := ⟨_, rfl⟩
  have hlo : bootEnd ≤ y * 4096 := by rw [hy]; decide
  have hhi : y * 4096 + 4096 = numaAwareLb := by rw [hy]; rfl
  have hin : e.holds y = true := by
    rw [holds_iff]
    rw [numaAwareLb] at hbase hhi
    omega
  have hnone : ∀ z, ¬0 < addedPages (4096 * P) z e (y + P) := by
    intro z hadd
    obtain ⟨-, -, hn⟩ := addedPages_pos.mp hadd
    have hmax := coreNext_wrapped (e := e) (by omega)
    simp only [bootEnd, numaAwareLb] at *
    omega
  have hone := h.once y hlo (by rw [pageSize_eq]; omega) ⟨e, he, hin⟩
  have hdiv : (physMemoryInit map (4096 * P)).p2v / pageSize = P := Nat.mul_div_cancel_left P (by decide)
  rw [hdiv] at hone
  -- an entry that adds the page has the page, so it is this one
  have hother : ∀ z, ¬0 < freeCount ((physMemoryInit map (4096 * P)).heads z) (y + P) := by
    intro z hpos
    obtain ⟨e', he', hadd⟩ := (init_pos hP hP').mp hpos
    have hin' := holds_of_added (base_le_of_partitioned hP hP' h he') hlo hadd
    obtain rfl : e' = e := eq_of_cover_le_one (cover_holds_le_one hd) he' he hin' hin
    exact hnone z hadd
  have h1 := hother .dma
  have h2 := hother .kernel
  omega

/-- Nor does one have pages on both sides of 16 MiB: the DMA zone would have the upper ones too. -/
theorem one_side_of_partitioned (hd : DisjointMap map) (h : Partitioned map (physMemoryInit map (4096 * P)))
    (he : e ∈ map) : ¬(e.base + 4096 ≤ kernelLb ∧ kernelLb + 4096 ≤ e.base + e.len) := by
  rintro ⟨hlow, hhigh⟩
  have hend := end_lt_of_partitioned hP hP' hd h he (hlow.trans (by decide))
  have hb := (entryBase_lt_iff (base_le_of_partitioned hP hP' h he)).mpr hlow
  have hn : 4096 * 4096 + 4096 ≤ coreNext e := (le_coreNext_iff hend (by decide) (by decide)).mpr hhigh
  have hadd : 0 < addedPages (4096 * P) .dma e (4096 + P) := by
    rw [addedPages_pos, AddedTo]
    simp only [numaAwareLb, kernelLb] at *
    omega
  have hrange : (4096 + P) * 4096 < kernelLb + 4096 * P := (h.dma _ ((init_pos hP hP').mpr ⟨e, he, hadd⟩)).2
  rw [kernelLb] at hrange
  omega

end Init

/-- The zones are a partition of the pages of a map without overlaps exactly if each entry is on one
    side of 16 MiB, within the address space as the code rounds it. -/
theorem zones_partitioned_iff {map : List SysmapEntry} (hd : DisjointMap map) {P : ℕ} (hP : 0 < P)
    (hP' : 4096 * P + numaAwareLb < regionEnd) :
    Partitioned map (physMemoryInit map (4096 * P)) ↔ ∀ e ∈ map, e.Sided := by
  constructor
  · intro h e he
    refine ⟨base_le_of_partitioned hP hP' h he, ?_, one_side_of_partitioned hP hP' hd h he⟩
    by_cases hbase : e.base + 4096 ≤ numaAwareLb
    · exact .inl (end_lt_of_partitioned hP hP' hd h he hbase)
    · exact .inr (by omega)
  · exact partitioned_of_sided hP hP' hd

/-- `KERNEL_LMAP`, in pages. -/
def lmapPages : ℕ := 0x100000

/-- Below 16 MiB and from 20 MiB to 1 GiB. -/
def splitMap : List SysmapEntry :=
  [⟨0x200000, 0xe00000, by decide, by decide⟩, ⟨0x1400000, 0x3ec00000, by decide, by decide⟩]

theorem zones_partitioned_split : Partitioned splitMap (physMemoryInit splitMap (4096 * lmapPages)) := by
  have hd : DisjointMap splitMap := by
    simp only [DisjointMap, splitMap, List.pairwise_cons, List.mem_singleton, forall_eq]
    simp
    omega
  refine (zones_partitioned_iff hd (by decide) (by decide)).mpr fun e he => ?_
  fin_cases he <;> simp [SysmapEntry.Sided, numaAwareLb, kernelLb]

/-- From 2 MiB to 18 MiB. -/
def straddlingEntry : SysmapEntry := ⟨0x200000, 0x1000000, by decide, by decide⟩

/-- The page at 16 MiB is in the DMA zone. -/
theorem straddling_entry_in_dma : DisjointMap [straddlingEntry] ∧
    0 < freeCount ((physMemoryInit [straddlingEntry] (4096 * lmapPages)).heads .dma) (4096 + lmapPages) ∧
    ¬Partitioned [straddlingEntry] (physMemoryInit [straddlingEntry] (4096 * lmapPages)) := by
  have hpos : 0 < freeCount ((physMemoryInit [straddlingEntry] (4096 * lmapPages)).heads .dma) (4096 + lmapPages) := by
    decide +kernel
  refine ⟨List.pairwise_singleton .., hpos, fun h => ?_⟩
  have hrange : (4096 + lmapPages) * 4096 < kernelLb + 4096 * lmapPages := (h.dma _ hpos).2
  exact absurd hrange (by decide)

end Advos.Physmem
