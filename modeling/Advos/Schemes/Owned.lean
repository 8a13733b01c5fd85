import Mathlib

/-! Cells and their owners.

    Each owner holds a set of cells in use, its footprint, and no cell has two owners. A step that
    writes only the cells of some owners `C` and cells that were not in use

        before     | A A A | B B | C C C | . . . . |
        after      | A A A | B B | C . C | C . . . |

    leaves the other owners alone, so separation after it is a question about `C` only. -/

namespace Advos.Owned

variable {ι ν : Type*} {live live' : Set ν} {L L' C : Set ι} {foot foot' : ι → Set ν}

/-- The owners in `L` hold cells in use, and no two of them the same one. -/
structure Separate (live : Set ν) (L : Set ι) (foot : ι → Set ν) : Prop where
  inUse : ∀ x ∈ L, foot x ⊆ live
  disjoint : ∀ x ∈ L, ∀ y ∈ L, x ≠ y → Disjoint (foot x) (foot y)

theorem Separate.ne (h : Separate live L foot) {x y : ι} {p q : ν} (hx : x ∈ L) (hy : y ∈ L) (hxy : x ≠ y)
    (hp : p ∈ foot x) (hq : q ∈ foot y) : p ≠ q := by
  rintro rfl
  exact Set.disjoint_left.mp (h.disjoint x hx y hy hxy) hp hq

/-- Only owners in `C` have changed; what they hold was theirs or was not in use. -/
theorem Separate.update (h : Separate live L foot) (hL : ∀ x ∈ L', x ∉ C → x ∈ L)
    (hsame : ∀ x ∈ L', x ∉ C → foot' x = foot x ∧ foot x ⊆ live')
    (hlive : ∀ x ∈ L', x ∈ C → foot' x ⊆ live')
    (hold : ∀ x ∈ L', x ∈ C → ∀ p ∈ foot' x, p ∈ live → ∃ y ∈ L, y ∈ C ∧ p ∈ foot y)
    (hdisj : ∀ x ∈ L', x ∈ C → ∀ y ∈ L', y ∈ C → x ≠ y → Disjoint (foot' x) (foot' y)) :
    Separate live' L' foot' := by
  -- a changed owner against one that stays: a common cell was in use, so it was some changed owner's
  have hmix : ∀ x ∈ L', x ∈ C → ∀ y ∈ L', y ∉ C → Disjoint (foot' x) (foot' y) := by
    intro x hx hxC y hy hyC
    refine Set.disjoint_left.mpr fun p hpx hpy => ?_
    rw [(hsame y hy hyC).1] at hpy
    obtain ⟨z, hz, hzC, hpz⟩ := hold x hx hxC p hpx (h.inUse y (hL y hy hyC) hpy)
    have hne : z ≠ y := by
      rintro rfl
      exact hyC hzC
    exact h.ne hz (hL y hy hyC) hne hpz hpy rfl
  refine ⟨fun x hx => ?_, fun x hx y hy hxy => ?_⟩
  · by_cases hxC : x ∈ C
    · exact hlive x hx hxC
    · rw [(hsame x hx hxC).1]
      exact (hsame x hx hxC).2
  · by_cases hxC : x ∈ C <;> by_cases hyC : y ∈ C
    · exact hdisj x hx hxC y hy hyC hxy
    · exact hmix x hx hxC y hy hyC
    · exact (hmix y hy hyC x hx hxC).symm
    · rw [(hsame x hx hxC).1, (hsame y hy hyC).1]
      exact h.disjoint x (hL x hx hxC) y (hL y hy hyC) hxy

end Advos.Owned
