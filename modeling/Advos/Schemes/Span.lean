import Mathlib.Data.Int.Basic
import Mathlib.Data.List.Basic
import Mathlib.Tactic.Common

/-! The indices of array accesses, and whether they are within the array. -/

namespace Advos.Indices
open List

/-- The indices `start`, `start + 1`, ... of an access to `n` elements. -/
def span (start : ℤ) (n : ℕ) : List ℤ := (List.range n).map fun i : ℕ => start + i

theorem mem_span {start i : ℤ} {n : ℕ} : i ∈ span start n ↔ start ≤ i ∧ i < start + n := by
  rw [span, mem_map]
  constructor
  · rintro ⟨k, hk, rfl⟩
    rw [mem_range] at hk
    omega
  · rintro ⟨h0, h1⟩
    exact ⟨(i - start).toNat, mem_range.mpr (by omega), by omega⟩

/-- All of the indices are those of an array of `size` elements. -/
def Within (size : ℤ) (l : List ℤ) : Prop := ∀ i ∈ l, 0 ≤ i ∧ i < size

variable {size start i : ℤ} {n : ℕ} {l l' : List ℤ}

theorem within_nil : Within size [] := fun i hi => by cases hi

theorem within_singleton (h0 : 0 ≤ i) (h1 : i < size) : Within size [i] := fun j hj => by
  rw [mem_singleton] at hj
  rw [hj]
  exact ⟨h0, h1⟩

theorem within_span (h0 : 0 ≤ start) (h1 : start + n ≤ size) : Within size (span start n) := fun i hi => by
  rw [mem_span] at hi
  omega

theorem Within.append (h : Within size l) (h' : Within size l') : Within size (l ++ l') := fun i hi =>
  (mem_append.mp hi).elim (h i) (h' i)

end Advos.Indices
