import Advos.Acpi.Tables

/-! What `_parse_srat` leaves in `acpi_t`.

    A memory entry is added behind the ones before it while there is room; a processor entry goes to
    the element of its APIC id, a byte. There are 128 elements, and ids from 128 on write what stands
    behind the array:

        lapic_domain[128].valid    ──▶  num_memory_region
        lapic_domain[128].domain   ──▶  memory_domain[0].base

    Without such an id the arrays hold what the table says. The invariant `Inside` is carried along
    the entries the walk goes over. -/

namespace Advos.Acpi
open Word Bytes Orbit Function List

/-- `memory_domain[j]`. -/
def Config.memoryDomain (acpi : Config) (j : ℤ) : Region where
  base := acpi.words (257 + 6 * j) + 2 ^ 32 * acpi.words (257 + 6 * j + 1)
  length := acpi.words (257 + 6 * j + 2) + 2 ^ 32 * acpi.words (257 + 6 * j + 3)
  domain := acpi.words (257 + 6 * j + 4)

/-- The offsets of the entries that the first `n` rounds walk over. -/
def walkedOver (t : Table) (n : ℕ) : List ℕ := trail (Walked t) (next t) n sratStart

/-- The entry at an offset is an enabled memory entry. -/
def isRegion (t : Table) (len : ℕ) : Bool := entryType t len = 1 ∧ enabled t len

/-- The regions of the enabled memory entries among some entries, in table order. -/
def memoryRegions (t : Table) (lens : List ℕ) : List Region := (lens.filter (isRegion t)).map (regionOf t)

/-- The parser has kept to the arrays, and these hold the regions of the entries. -/
structure Inside (t : Table) (lens : List ℕ) (acpi : Config) : Prop where
  lapic : ∀ i, .lapicDomain i ∈ acpi.writes → 0 ≤ i ∧ i < maxProcessors
  memory : ∀ i, .memoryDomain i ∈ acpi.writes → 0 ≤ i ∧ i < maxMemoryRegions
  num : acpi.numMemoryRegion = min ((memoryRegions t lens).length : ℤ) maxMemoryRegions
  regions : ∀ (j : ℕ) (r : Region), (memoryRegions t lens)[j]? = some r → (j : ℤ) < maxMemoryRegions →
    acpi.memoryDomain j = r

/-- The processor entries' APIC ids have an element. -/
def SmallId (t : Table) (len : ℕ) : Prop := entryType t len = 0 → (apicIdOf t len : ℤ) < maxProcessors

section
variable {t : Table} {acpi : Config}

/-! ### The two kinds of writes -/

theorem setLapicDomain_words {i : ℤ} {domain : ℕ} (hi : i < maxProcessors) {w : ℤ} (hw : 256 ≤ w) :
    (acpi.setLapicDomain i domain).words w = acpi.words w := by
  rw [maxProcessors] at hi
  simp only [Config.setLapicDomain]
  rw [update_of_ne (by omega), update_of_ne (by omega)]

theorem memoryDomain_congr {acpi' : Config} {j : ℤ}
    (h : ∀ k : ℤ, 0 ≤ k → k < 5 → acpi'.words (257 + 6 * j + k) = acpi.words (257 + 6 * j + k)) :
    acpi'.memoryDomain j = acpi.memoryDomain j := by
  have h0 := h 0 (le_refl _) (by omega)
  rw [add_zero] at h0
  simp only [Config.memoryDomain, h0, h 1 (by omega) (by omega), h 2 (by omega) (by omega), h 3 (by omega) (by omega),
    h 4 (by omega) (by omega)]

theorem setLapicDomain_memoryDomain {i : ℤ} {domain : ℕ} (hi : i < maxProcessors) (j : ℕ) :
    (acpi.setLapicDomain i domain).memoryDomain j = acpi.memoryDomain j :=
  memoryDomain_congr fun _ hk _ => setLapicDomain_words hi (by omega)

variable {r : Region}

theorem addMemoryDomain_num {i : ℤ} (h0 : 0 ≤ i) (hi : i < maxMemoryRegions) :
    (acpi.addMemoryDomain i r).numMemoryRegion = i + 1 := by
  rw [maxMemoryRegions] at hi
  simp only [Config.numMemoryRegion, Config.addMemoryDomain, update_self]
  rw [Int.emod_eq_of_lt (by omega) (by omega), toInt32_of_lt (by omega), Int.toNat_of_nonneg (by omega)]

theorem addMemoryDomain_words {i w : ℤ} (hw : w ≠ 256) :
    (acpi.addMemoryDomain i r).words w =
      if 257 + 6 * i ≤ w ∧ w < 257 + 6 * i + 5 then r.word (w - (257 + 6 * i)) else acpi.words w := by
  simp only [Config.addMemoryDomain]
  rw [update_of_ne hw]

theorem addMemoryDomain_self (i : ℤ) (r : Region) : (acpi.addMemoryDomain i r).memoryDomain i = r := by
  have hword : ∀ k : ℤ, 0 ≤ k → k < 5 → (acpi.addMemoryDomain i r).words (257 + 6 * i + k) = r.word k := by
    intro k hk hk5
    rw [addMemoryDomain_words (by omega), if_pos (by omega), add_sub_cancel_left]
  have hfirst := hword 0 (le_refl _) (by omega)
  rw [add_zero] at hfirst
  have hbase := Nat.mod_add_div r.base (2 ^ 32)
  have hlength := Nat.mod_add_div r.length (2 ^ 32)
  simp only [Config.memoryDomain, hfirst, hword 1 (by omega) (by omega), hword 2 (by omega) (by omega),
    hword 3 (by omega) (by omega), hword 4 (by omega) (by omega)]
  have hhalves : r.word 0 = r.base % 2 ^ 32 ∧ r.word 1 = r.base / 2 ^ 32 ∧ r.word 2 = r.length % 2 ^ 32 ∧
      r.word 3 = r.length / 2 ^ 32 ∧ r.word 4 = r.domain := ⟨rfl, rfl, rfl, rfl, rfl⟩
  rw [hhalves.1, hhalves.2.1, hhalves.2.2.1, hhalves.2.2.2.1, hhalves.2.2.2.2, hbase, hlength]

theorem addMemoryDomain_other {i j : ℤ} (hne : j ≠ i) :
    (acpi.addMemoryDomain i r).memoryDomain j = acpi.memoryDomain j := by
  refine memoryDomain_congr fun k hk hk5 => ?_
  rw [addMemoryDomain_words (by omega), if_neg (by omega)]

/-! ### One entry -/

variable {len : ℕ}

theorem memoryRegions_other (lens : List ℕ) (h : isRegion t len = false) :
    memoryRegions t (lens ++ [len]) = memoryRegions t lens := by
  simp [memoryRegions, h]

theorem memoryRegions_region (lens : List ℕ) (h : isRegion t len = true) :
    memoryRegions t (lens ++ [len]) = memoryRegions t lens ++ [regionOf t len] := by
  simp [memoryRegions, h]

section Entry
variable {lens : List ℕ} {len : ℕ} (h : Inside t lens acpi)
include h

/-- An entry without a region makes no difference to what is to be kept. -/
theorem Inside.other (hother : isRegion t len = false) : Inside t (lens ++ [len]) acpi := by
  have hregions := memoryRegions_other lens hother
  exact ⟨h.lapic, h.memory, hregions ▸ h.num, hregions ▸ h.regions⟩

/-- A processor with an element of its own is written below the other fields. -/
theorem Inside.setLapicDomain {i : ℤ} (h0 : 0 ≤ i) (hi : i < maxProcessors) (domain : ℕ) :
    Inside t lens (acpi.setLapicDomain i domain) := by
  refine ⟨fun i' hw => ?_, fun i' hw => ?_, ?_, fun j r hj hlt => ?_⟩
  · rcases mem_append.mp hw with hw | hw
    · exact h.lapic i' hw
    · rw [mem_singleton, Element.lapicDomain.injEq] at hw
      rw [hw]
      exact ⟨h0, hi⟩
  · rcases mem_append.mp hw with hw | hw
    · exact h.memory i' hw
    · simp at hw
  · rw [← h.num, Config.numMemoryRegion, setLapicDomain_words hi (le_refl _)]
    rfl
  · rw [setLapicDomain_memoryDomain hi]
    exact h.regions j r hj hlt

theorem Inside.addMemoryDomain (hregion : isRegion t len = true) (hroom : acpi.numMemoryRegion < maxMemoryRegions) :
    Inside t (lens ++ [len]) (acpi.addMemoryDomain acpi.numMemoryRegion (regionOf t len)) := by
  have hregions := memoryRegions_region lens hregion
  have hnum := h.num
  have hindex : acpi.numMemoryRegion = ((memoryRegions t lens).length : ℤ) := by omega
  have h0 : 0 ≤ acpi.numMemoryRegion := by omega
  refine ⟨fun i hi => ?_, fun i hi => ?_, ?_, fun j r hj hlt => ?_⟩
  · rcases mem_append.mp hi with hi | hi
    · exact h.lapic i hi
    · simp at hi
  · rcases mem_append.mp hi with hi | hi
    · exact h.memory i hi
    · rw [mem_singleton, Element.memoryDomain.injEq] at hi
      rw [hi]
      exact ⟨h0, hroom⟩
  · rw [addMemoryDomain_num h0 hroom, hregions, length_append, length_singleton]
    push_cast
    omega
  · rw [hregions] at hj
    rcases getElem?_append_singleton hj with hj | ⟨rfl, rfl⟩
    · have hlen := (List.getElem?_eq_some_iff.mp hj).1
      rw [addMemoryDomain_other (by omega)]
      exact h.regions j r hj hlt
    · rw [hindex, addMemoryDomain_self]

theorem Inside.full (hregion : isRegion t len = true) (hfull : ¬acpi.numMemoryRegion < maxMemoryRegions) :
    Inside t (lens ++ [len]) acpi := by
  have hregions := memoryRegions_region lens hregion
  have hnum := h.num
  refine ⟨h.lapic, h.memory, ?_, fun j r hj hlt => ?_⟩
  · rw [hregions, length_append, length_singleton]
    push_cast
    omega
  · rw [hregions] at hj
    rcases getElem?_append_singleton hj with hj | ⟨rfl, rfl⟩
    · exact h.regions j r hj hlt
    · omega

/-- STEP: an entry with a small id keeps the parser inside the arrays. -/
theorem Inside.entry (hsmall : SmallId t len) : Inside t (lens ++ [len]) (sratEntry t len acpi) := by
  rw [sratEntry]
  split_ifs with hlapic hmemory hadd
  · exact (h.setLapicDomain (Int.natCast_nonneg _) (hsmall hlapic) _).other (by simp [isRegion, hlapic])
  · exact h.addMemoryDomain (by simp [isRegion, hmemory, hadd.1]) hadd.2
  · -- a memory entry that is disabled, or behind the last element
    by_cases henabled : enabled t len = true
    · exact h.full (by simp [isRegion, hmemory, henabled]) fun hlt => hadd ⟨henabled, hlt⟩
    · exact h.other (by simp [isRegion, henabled])
  · exact h.other (by simp [isRegion, hmemory])

end Entry

/-- STEP: no entry takes a write back. -/
theorem sratEntry_writes (len : ℕ) (acpi : Config) : acpi.writes ⊆ (sratEntry t len acpi).writes := by
  rw [sratEntry]
  split_ifs
  · exact subset_append_left _ _
  · exact subset_append_left _ _
  · exact List.Subset.refl _
  · exact List.Subset.refl _

theorem lapicDomain_written (h : entryType t len = 0) :
    .lapicDomain (apicIdOf t len) ∈ (sratEntry t len acpi).writes := by
  rw [sratEntry, if_pos h]
  exact mem_append_right _ mem_cons_self

/-! ### The whole walk -/

/-- The entries of a list handled in turn. -/
def handle (t : Table) (lens : List ℕ) (acpi : Config) : Config :=
  lens.foldl (fun acpi len => sratEntry t len acpi) acpi

/-- RUN: small ids keep the parser inside the arrays. -/
theorem Inside.handle {lens : List ℕ} (h : Inside t [] acpi) (hsmall : ∀ len ∈ lens, SmallId t len) :
    Inside t lens (handle t lens acpi) := by
  induction lens using List.reverseRecOn with
  | nil => exact h
  | append_singleton lens len ih =>
    rw [Acpi.handle, foldl_append]
    exact (ih fun l hl => hsmall l (mem_append_left _ hl)).entry
      (hsmall len (mem_append_right _ mem_cons_self))

/-- RUN: the writes of every processor entry are among those of the walk. -/
theorem handle_written {lens : List ℕ} (hlen : len ∈ lens) (h : entryType t len = 0) :
    .lapicDomain (apicIdOf t len) ∈ (handle t lens acpi).writes := by
  induction lens using List.reverseRecOn with
  | nil => cases hlen
  | append_singleton lens last ih =>
    rw [Acpi.handle, foldl_append]
    rcases mem_append.mp hlen with hlen | hlen
    · exact sratEntry_writes last _ (ih hlen)
    · rw [mem_singleton] at hlen
      subst hlen
      exact lapicDomain_written h

theorem entries_eq {n start : ℕ} {e : Exit} {acpi' : Config}
    (h : entries t (sratEntry t) n start acpi = some (e, acpi')) :
    acpi' = handle t (trail (Walked t) (next t) n start) acpi := by
  induction n generalizing start acpi with
  | zero => cases h
  | succ n ih =>
    by_cases hw : Walked t start
    · rw [entries_walked hw] at h
      rw [trail_go hw]
      exact ih h
    · obtain ⟨e', he⟩ := entries_stop (sratEntry t) hw n acpi
      rw [he] at h
      cases h
      rw [trail_stop hw]
      rfl

theorem inside_start (hnum : acpi.numMemoryRegion = 0) (hw : acpi.writes = []) : Inside t [] acpi := by
  refine ⟨fun i hi => ?_, fun i hi => ?_, ?_, fun j r hj => ?_⟩
  · rw [hw] at hi; cases hi
  · rw [hw] at hi; cases hi
  · rw [hnum]; rfl
  · cases hj

end

/-- Where the walk ends, the parser has kept to the arrays and filled them as the table says iff the
    APIC ids of the entries it went over are below 128. -/
theorem srat_inside_iff {t : Table} {acpi acpi' : Config} {n : ℕ} {ret : ℤ} (hnum : acpi.numMemoryRegion = 0)
    (hwrites : acpi.writes = []) (hend : parseSrat n t acpi = some (ret, acpi')) :
    Inside t (walkedOver t n) acpi' ↔ ∀ len ∈ walkedOver t n, SmallId t len := by
  rw [parseSrat, Option.map_eq_some_iff] at hend
  obtain ⟨⟨e, acpi''⟩, hentries, heq⟩ := hend
  cases heq
  obtain rfl := entries_eq hentries
  constructor
  · intro hinside len hlen htype
    exact (hinside.lapic _ (handle_written hlen htype)).2
  · exact (inside_start hnum hwrites).handle

/-- A table with one processor entry of 16 bytes, whose APIC id is `id`. -/
def oneProcessor (id : UInt8) : Table := fun a => if a = 4 then 64 else if a = 49 then 16 else if a = 51 then id else 0

theorem oneProcessor_declared (id : UInt8) : declared (oneProcessor id) = 64 := rfl

theorem oneProcessor_next (id : UInt8) : next (oneProcessor id) 48 = 64 := rfl

theorem oneProcessor_walked (id : UInt8) : Walked (oneProcessor id) 48 :=
  ⟨by rw [oneProcessor_declared]; omega, le_of_eq (oneProcessor_next id)⟩

theorem oneProcessor_stop (id : UInt8) : ¬Walked (oneProcessor id) 64 := fun h =>
  absurd h.1 (by rw [oneProcessor_declared]; omega)

theorem oneProcessor_ends (id : UInt8) : parseSrat 2 (oneProcessor id) cleared =
    some (0, cleared.setLapicDomain id.toNat 0) := by
  obtain ⟨e, he⟩ := entries_stop (sratEntry (oneProcessor id)) (oneProcessor_stop id) 0
    (sratEntry (oneProcessor id) 48 cleared)
  have hentry : sratEntry (oneProcessor id) 48 cleared = cleared.setLapicDomain id.toNat 0 := by
    have htype : entryType (oneProcessor id) 48 = 0 := rfl
    have hdomain : lapicDomainOf (oneProcessor id) 48 = 0 := by simp [lapicDomainOf, oneProcessor]
    rw [sratEntry, if_pos htype, hdomain]
    rfl
  rw [parseSrat, show sratStart = 48 from rfl, entries_walked (oneProcessor_walked id), oneProcessor_next, he, hentry]
  rfl

theorem oneProcessor_walkedOver (id : UInt8) : walkedOver (oneProcessor id) 2 = [48] := by
  rw [walkedOver, show sratStart = 48 from rfl, trail_go (oneProcessor_walked id), oneProcessor_next,
    trail_stop (oneProcessor_stop id)]

theorem srat_inside_id_127 : Inside (oneProcessor 127) (walkedOver (oneProcessor 127) 2)
    (cleared.setLapicDomain 127 0) := by
  refine (srat_inside_iff (by decide) rfl (oneProcessor_ends 127)).mpr fun len hlen _ => ?_
  rw [oneProcessor_walkedOver, List.mem_singleton] at hlen
  rw [hlen]
  decide

/-- With id 128 the loop ends, but the count of memory regions has become 1. -/
theorem srat_id_128_overruns :
    parseSrat 2 (oneProcessor 128) cleared = some (0, cleared.setLapicDomain 128 0) ∧
      (cleared.setLapicDomain 128 0).numMemoryRegion = 1 ∧
      ¬Inside (oneProcessor 128) (walkedOver (oneProcessor 128) 2) (cleared.setLapicDomain 128 0) := by
  refine ⟨oneProcessor_ends 128, by decide, fun h => ?_⟩
  have hbound := h.lapic 128 (by simp [Config.setLapicDomain])
  exact absurd hbound.2 (by decide)

end Advos.Acpi
