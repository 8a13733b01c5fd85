import Advos.Schemes.Orbit
import Advos.Schemes.Bytes
import Advos.Schemes.Word

/-! The tables of the firmware (`acpi.c`): the interrupt controllers (APIC) and the affinities of
    processors and memory (SRAT).

    Behind its header a table is a sequence of entries, each with its type and its length in the
    first two bytes. The parsers follow the lengths up to the declared length of the table:

        0          36       44 / 48                                 declared
        |  header  | fields |type len ...|type len ...|    ...      |
                            len ──────────▶ len + length ──▶ ...

    The lengths are bytes of the table. The walk goes round for ever at an entry of length 0, and
    also where `len`, 32 bits wide, wraps and comes back to an entry it has been at. -/

namespace Advos.Acpi
open Word Bytes Orbit List

/-- The bytes of a table, from its header on. -/
abbrev Table := ℕ → UInt8

/-- `sdt->length`. -/
def declared (t : Table) : ℕ := loadLE t 4 4

/-- The `type` byte of the entry at an offset. -/
def entryType (t : Table) (len : ℕ) : UInt8 := t len

/-- The `length` byte of the entry at an offset. -/
def entryLength (t : Table) (len : ℕ) : ℕ := (t (len + 1)).toNat

/-- `len + hdr->length`, in 32 bits. -/
def next (t : Table) (len : ℕ) : ℕ := (len + entryLength t len) % 2 ^ 32

/-- How an entry loop ends: at the declared length, or at an entry that goes beyond it. -/
inductive Exit
  | ended | oversized
deriving DecidableEq

/-- The loop over the entries, `n` rounds of it; none if it has not ended by then. -/
def entries {β : Type} (t : Table) (body : ℕ → β → β) : ℕ → ℕ → β → Option (Exit × β)
  | 0, _, _ => none
  | n + 1, len, acpi =>
    if len < declared t then
      if next t len > declared t then some (.oversized, acpi)
      else entries t body n (next t len) (body len acpi)
    else some (.ended, acpi)

/-- The elements of the two arrays of `acpi_t`. -/
inductive Element
  | lapicDomain (i : ℤ) | memoryDomain (i : ℤ)

/-- `acpi_t`, as far as the two parsers go: two fields, the 32-bit words from `lapic_domain` on, and
    the array elements that have been written. The words are

        0 ... 255             256                  257 ...
        lapic_domain[128]     num_memory_region    memory_domain[128]

    with two words (`valid`, `domain`) and six (`base`, `length`, `domain`, padding) an element. -/
structure Config where
  apicAddress : ℕ
  ioapicBase : ℕ
  words : ℤ → ℕ
  writes : List Element

/-! ### `_parse_apic` -/

/-- The `switch` of `_parse_apic`: the first I/O APIC is used. -/
def apicEntry (t : Table) (len : ℕ) (acpi : Config) : Config :=
  if entryType t len = 1 then
    if acpi.ioapicBase = 0 then { acpi with ioapicBase := loadLE t 4 (len + 4) } else acpi
  else acpi

/-- The offset of the first APIC entry: the header and `struct acpi_sdt_apic`. -/
def apicStart : ℕ := 36 + 8

/-- `_parse_apic`, `n` rounds of its loop. -/
def parseApic (n : ℕ) (t : Table) (acpi : Config) : Option (ℤ × Config) :=
  (entries t (apicEntry t) n apicStart { acpi with apicAddress := loadLE t 4 36 }).map fun r =>
    (if r.1 = .oversized then -1 else 0, r.2)

/-! ### `_parse_srat` -/

/-- `MAX_PROCESSORS`. -/
def maxProcessors : ℤ := 128

/-- `MAX_MEMORY_REGIONS`. -/
def maxMemoryRegions : ℤ := 128

/-- `num_memory_region`, an `int`. -/
def Config.numMemoryRegion (acpi : Config) : ℤ := toInt32 (acpi.words 256)

/-- `lapic_domain[i].valid = 1` and `lapic_domain[i].domain = domain`. -/
def Config.setLapicDomain (acpi : Config) (i : ℤ) (domain : ℕ) : Config :=
  { acpi with
    words := Function.update (Function.update acpi.words (2 * i) 1) (2 * i + 1) domain
    writes := acpi.writes ++ [.lapicDomain i] }

/-- A region of `memory_domain`. -/
structure Region where
  base : ℕ
  length : ℕ
  domain : ℕ
deriving DecidableEq

/-- The words of a region: two 64-bit fields, low half first, and the domain. -/
def Region.word (r : Region) (k : ℤ) : ℕ :=
  if k = 0 then r.base % 2 ^ 32 else if k = 1 then r.base / 2 ^ 32
  else if k = 2 then r.length % 2 ^ 32 else if k = 3 then r.length / 2 ^ 32 else r.domain

/-- `memory_domain[i] = r`, field by field, and `num_memory_region++` when `i` is its value. -/
def Config.addMemoryDomain (acpi : Config) (i : ℤ) (r : Region) : Config :=
  { acpi with
    words := Function.update
      (fun w => if 257 + 6 * i ≤ w ∧ w < 257 + 6 * i + 5 then r.word (w - (257 + 6 * i)) else acpi.words w)
      256 ((i + 1) % 2 ^ 32).toNat
    writes := acpi.writes ++ [.memoryDomain i] }

/-- The domain of a `struct acpi_sdt_srat_lapic`: bits 7-0, and bits 31-8 in three bytes. -/
def lapicDomainOf (t : Table) (len : ℕ) : ℕ :=
  (t (len + 2)).toNat ||| (t (len + 9)).toNat <<< 8 ||| (t (len + 10)).toNat <<< 16 ||| (t (len + 11)).toNat <<< 24

/-- Its `apic_id`. -/
def apicIdOf (t : Table) (len : ℕ) : ℕ := (t (len + 3)).toNat

/-- The region of a `struct acpi_sdt_srat_memory`. -/
def regionOf (t : Table) (len : ℕ) : Region where
  base := loadLE t 4 (len + 8) ||| loadLE t 4 (len + 12) <<< 32
  length := loadLE t 4 (len + 16) ||| loadLE t 4 (len + 20) <<< 32
  domain := loadLE t 4 (len + 2)

/-- `srat_memory->flags & 1`. -/
def enabled (t : Table) (len : ℕ) : Bool := loadLE t 4 (len + 28) &&& 1 ≠ 0

/-- The `switch` of `_parse_srat`. -/
def sratEntry (t : Table) (len : ℕ) (acpi : Config) : Config :=
  if entryType t len = 0 then acpi.setLapicDomain (apicIdOf t len) (lapicDomainOf t len)
  else if entryType t len = 1 then
    if enabled t len ∧ acpi.numMemoryRegion < maxMemoryRegions then
      acpi.addMemoryDomain acpi.numMemoryRegion (regionOf t len)
    else acpi
  else acpi

/-- The offset of the first SRAT entry: the header and `struct acpi_sdt_srat_hdr`. -/
def sratStart : ℕ := 36 + 12

/-- `_parse_srat`, `n` rounds of its loop. -/
def parseSrat (n : ℕ) (t : Table) (acpi : Config) : Option (ℤ × Config) :=
  (entries t (sratEntry t) n sratStart acpi).map fun r => (0, r.2)

/-! ### The walk -/

/-- The loop goes on behind the entry at an offset. -/
def Walked (t : Table) (len : ℕ) : Prop := len < declared t ∧ next t len ≤ declared t

instance (t : Table) (len : ℕ) : Decidable (Walked t len) := inferInstanceAs (Decidable (_ ∧ _))

/-- The offsets of the entries whose header is read in the first `n` rounds. -/
def visits (t : Table) : ℕ → ℕ → List ℕ
  | 0, _ => []
  | n + 1, len =>
    if len < declared t then len :: (if next t len > declared t then [] else visits t n (next t len)) else []

/-- The offset of the `m`-th entry, following the length bytes. -/
def offset (t : Table) (start m : ℕ) : ℕ := (next t)^[m] start

/-- Some entries in a row, all of them walked over, have lengths that sum to 0 in 32 bits. The
    shortest such row is one entry of length 0. -/
def Returns (t : Table) (start : ℕ) : Prop :=
  ∃ i k, 0 < k ∧ (∀ m, m < i + k → Walked t (offset t start m)) ∧
    2 ^ 32 ∣ ((List.range k).map fun m => entryLength t (offset t start (i + m))).sum

section
variable {t : Table} {β : Type} {body : ℕ → β → β}

theorem visits_lt (n start : ℕ) : ∀ len ∈ visits t n start, len < declared t := by
  induction n generalizing start with
  | zero => simp [visits]
  | succ n ih =>
    intro len hlen
    rw [visits] at hlen
    split_ifs at hlen with hin hover
    · rw [mem_singleton] at hlen
      rwa [hlen]
    · rcases mem_cons.mp hlen with rfl | hlen
      · exact hin
      · exact ih _ len hlen
    · cases hlen

/-- STEP: a round that is walked over hands on to the next one. -/
theorem entries_walked {len : ℕ} (h : Walked t len) (n : ℕ) (acpi : β) :
    entries t body (n + 1) len acpi = entries t body n (next t len) (body len acpi) := by
  rw [entries, if_pos h.1, if_neg (Nat.not_lt.mpr h.2)]

/-- STEP: any other round is the last. -/
theorem entries_stop (body : ℕ → β → β) {len : ℕ} (h : ¬Walked t len) (n : ℕ) (acpi : β) :
    ∃ e, entries t body (n + 1) len acpi = some (e, acpi) := by
  rw [entries]
  by_cases hin : len < declared t
  · rw [if_pos hin, if_pos (Nat.lt_of_not_le fun hle => h ⟨hin, hle⟩)]
    exact ⟨_, rfl⟩
  · rw [if_neg hin]
    exact ⟨_, rfl⟩

/-- RUN: the loop has ended after `n` rounds iff one of them was not walked over. -/
theorem entries_isSome_iff (n start : ℕ) (acpi : β) :
    (entries t body n start acpi).isSome ↔ ∃ m, m < n ∧ ¬Walked t (offset t start m) := by
  induction n generalizing start acpi with
  | zero => simp [entries]
  | succ n ih =>
    by_cases hw : Walked t start
    · rw [entries_walked hw, ih]
      constructor
      · rintro ⟨m, hm, hnot⟩
        exact ⟨m + 1, by omega, hnot⟩
      · rintro ⟨m, hm, hnot⟩
        cases m with
        | zero => exact absurd hw hnot
        | succ m => exact ⟨m, by omega, hnot⟩
    · obtain ⟨e, he⟩ := entries_stop body hw n acpi
      simp only [he, Option.isSome_some, true_iff]
      exact ⟨0, Nat.succ_pos n, hw⟩

theorem ends_iff_returned (start : ℕ) (acpi : β) :
    (∃ n, (entries t body n start acpi).isSome) ↔ Ends (next t) (Walked t) start := by
  constructor
  · rintro ⟨n, hn⟩
    obtain ⟨m, -, hm⟩ := (entries_isSome_iff n start acpi).mp hn
    exact ⟨m, hm⟩
  · rintro ⟨m, hm⟩
    exact ⟨m + 1, (entries_isSome_iff _ start acpi).mpr ⟨m, Nat.lt_succ_self m, hm⟩⟩

/-! ### Coming back -/

theorem next_lt (len : ℕ) : next t len < 2 ^ 32 := Nat.mod_lt _ (by norm_num)

theorem offset_succ (start m : ℕ) : offset t start (m + 1) = next t (offset t start m) :=
  Function.iterate_succ_apply' _ _ _

variable {start : ℕ}

theorem offset_lt (h : start < 2 ^ 32) (m : ℕ) : offset t start m < 2 ^ 32 := by
  cases m with
  | zero => exact h
  | succ m =>
    rw [offset_succ]
    exact next_lt _

/-- The lengths of `k` entries in a row lead from the first to the one behind the last. -/
theorem offset_add (h : start < 2 ^ 32) (i k : ℕ) : offset t start (i + k) =
    (offset t start i + ((List.range k).map fun m => entryLength t (offset t start (i + m))).sum) % 2 ^ 32 := by
  induction k with
  | zero => exact (Nat.mod_eq_of_lt (offset_lt h i)).symm
  | succ k ih =>
    rw [← Nat.add_assoc, offset_succ, next, range_succ, map_append, sum_append]
    simp only [map_cons, map_nil, sum_cons, sum_nil, Nat.add_zero]
    rw [ih]
    omega

theorem returns_iff (h : start < 2 ^ 32) : Returns t start ↔ Circles (next t) (Walked t) start := by
  have hback : ∀ i k, offset t start (i + k) = offset t start i ↔
      2 ^ 32 ∣ ((List.range k).map fun m => entryLength t (offset t start (i + m))).sum := by
    intro i k
    have hi := offset_lt (t := t) h i
    rw [offset_add h, Nat.dvd_iff_mod_eq_zero]
    omega
  constructor
  · rintro ⟨i, k, hk, hwalk, hsum⟩
    exact ⟨i, k, hk, hwalk, (hback i k).mpr hsum⟩
  · rintro ⟨i, k, hk, hwalk, heq⟩
    exact ⟨i, k, hk, hwalk, (hback i k).mp heq⟩

theorem returned_iff (t : Table) (body : ℕ → β → β) (h : start < 2 ^ 32) (acpi : β) :
    (∃ n, (entries t body n start acpi).isSome) ↔ ¬Returns t start := by
  rw [ends_iff_returned, returns_iff h]
  apply ends_iff
  -- 32 bits hold finitely many offsets
  apply Set.Finite.subset (Set.finite_lt_nat (2 ^ 32))
  rintro _ ⟨m, rfl⟩
  exact offset_lt h m

end

/-- Each walk ends, inside the declared length, iff its entry lengths never lead back. -/
theorem table_walks_end_iff (t : Table) (acpi : Config) :
    (((∃ n, (parseApic n t acpi).isSome) ∧ ∀ n, ∀ len ∈ visits t n apicStart, len < declared t) ↔
        ¬Returns t apicStart) ∧
      (((∃ n, (parseSrat n t acpi).isSome) ∧ ∀ n, ∀ len ∈ visits t n sratStart, len < declared t) ↔
        ¬Returns t sratStart) := by
  constructor
  · have hstart : apicStart < 2 ^ 32 := by norm_num [apicStart]
    have hend := returned_iff t (apicEntry t) hstart { acpi with apicAddress := loadLE t 4 36 }
    simp only [parseApic, Option.isSome_map]
    rw [hend]
    exact ⟨fun h => h.1, fun h => ⟨h, fun n => visits_lt n _⟩⟩
  · have hstart : sratStart < 2 ^ 32 := by norm_num [sratStart]
    have hend := returned_iff t (sratEntry t) hstart acpi
    simp only [parseSrat, Option.isSome_map]
    rw [hend]
    exact ⟨fun h => h.1, fun h => ⟨h, fun n => visits_lt n _⟩⟩

/-- A table of 52 bytes, all of them 0 but the declared length. -/
def blankTable : Table := fun a => if a = 4 then 52 else 0

/-- The structure as `acpi_load` clears it. -/
def cleared : Config := ⟨0, 0, fun _ => 0, []⟩

theorem entries_stuck {t : Table} {start : ℕ} (hw : Walked t start) (hback : next t start = start)
    (body : ℕ → Config → Config) (n : ℕ) (acpi : Config) : entries t body n start acpi = none := by
  induction n generalizing acpi with
  | zero => rfl
  | succ n ih => rw [entries_walked hw, hback, ih]

/-- Its first entry has length 0, and neither walk leaves it. -/
theorem blank_table_never_ends : (¬∃ n, (parseApic n blankTable cleared).isSome) ∧
    ¬∃ n, (parseSrat n blankTable cleared).isSome := by
  constructor
  · rintro ⟨n, hn⟩
    rw [parseApic, entries_stuck (by decide) (by decide)] at hn
    cases hn
  · rintro ⟨n, hn⟩
    rw [parseSrat, entries_stuck (by decide) (by decide)] at hn
    cases hn

end Advos.Acpi
