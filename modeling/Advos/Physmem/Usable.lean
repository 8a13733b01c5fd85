import Advos.Physmem.NumaInit

/-! Usable memory.

    The memory map tells usable memory (type 1) from what the firmware or devices keep. The two
    initialisers read it for two ranges, and only one of them looks at the type:

        0      2 MiB                              64 MiB
        | boot | phys_memory_init: every entry    | _init_numa_zones: type 1 |

    So below 64 MiB the pages of every entry become free memory. Above, nothing but usable memory is
    added; what stale heads of the zone array lead to is there from the start. -/

namespace Advos.Physmem
open Word Tiling List

/-! ### The property -/

/-- An address is in both entries. -/
def Overlaps (e e' : SysmapEntry) : Prop :=
  ∃ a, (e.base ≤ a ∧ a < e.base + e.len) ∧ e'.base ≤ a ∧ a < e'.base + e'.len

section Property
variable (behind : (ℕ → UInt8) → ℕ → List ℕ) (regions : List Acpi.Region) (map : List TypedEntry) (contents : ℕ → UInt8)

/-- What the NUMA-aware zones are made of ends below `2 ^ 43`. -/
structure Bounded : Prop where
  entries : ∀ e ∈ map, e.type = 1 → e.base + e.len ≤ 2 ^ 43
  regions : ∀ r ∈ regions, r.base + r.length ≤ 2 ^ 43

end Property

variable {map : List TypedEntry}

section Low
variable {P : ℕ} {e : SysmapEntry}

end Low

section Numa
variable {regions : List Acpi.Region} (hr : ∀ r ∈ regions, r.base + r.length ≤ regionEnd)
include hr

end Numa

section Both
variable {behind : (ℕ → UInt8) → ℕ → List ℕ} {regions : List Acpi.Region} {map : List TypedEntry} {contents : ℕ → UInt8}
  (hB : Bounded regions map)
include hB

end Both

end Advos.Physmem
