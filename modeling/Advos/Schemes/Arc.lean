import Advos.Schemes.Tiling
import Advos.Schemes.Word

/-! Intervals of 64-bit addresses, start and size, that may run over the end of the address space.

    A point `x` is in the arc of `size` points from `start` on when the wrapping difference
    `x - start` is below `size`. Two arcs of which the second starts where the first ends are one arc,
    point by point, so splitting and joining keep the count of `Tiling.cover`. -/

namespace Advos.Arc
open Tiling Word

/-- The address `x` is one of the `a.2` addresses from `a.1` on, modulo `2 ^ 64`. -/
def arc (a : ℕ × ℕ) (x : ℕ) : Bool := decide (sub64 x a.1 < a.2)

variable {s n k x : ℕ}

theorem arc_iff : arc (s, n) x = true ↔ (x + (2 ^ 64 - s)) % 2 ^ 64 < n := decide_eq_true_iff

theorem arc_eq_true (h : s + n ≤ 2 ^ 64) (hx : x < 2 ^ 64) : arc (s, n) x = true ↔ s ≤ x ∧ x < s + n := by
  rw [arc_iff]
  rcases Nat.lt_or_ge x s with hlt | hge <;> omega

@[simp] theorem arc_empty : arc (s, 0) x = false := by simp [arc]

/-- SPLIT: an arc is its first `n` points and the `k` points after them. -/
theorem arc_split (hs : s < 2 ^ 64) (h : n + k ≤ 2 ^ 64) :
    (if arc (s, n + k) x then 1 else 0) =
      (if arc (s, n) x then 1 else 0) + (if arc (add64 s n, k) x then 1 else 0) := by
  simp only [arc_iff, add64]
  split_ifs <;> omega

theorem arc_end (hs : s < 2 ^ 64) (hn : n < 2 ^ 64) : arc (s, n) (add64 s n) = false := by
  rw [Bool.eq_false_iff, ne_eq, arc_iff, add64]
  omega

/-- Two arcs in a row with `2 ^ 64` points or more leave no point out. -/
theorem arc_or_arc (hs : s < 2 ^ 64) (h : 2 ^ 64 ≤ n + k) :
    arc (s, n) x = true ∨ arc (add64 s n, k) x = true := by
  rw [arc_iff, arc_iff, add64]
  omega

variable {a : ℕ × ℕ}

/-- Inside one arc, two in a row have fewer than `2 ^ 64` points together. -/
theorem add_lt_of_tiles {l : List (ℕ × ℕ)} (h : Tiles arc l fun x => arc a x = true) (ha : a.1 < 2 ^ 64)
    (ha' : a.2 < 2 ^ 64) (hs : s < 2 ^ 64) (h1 : (s, n) ∈ l) (h2 : (add64 s n, k) ∈ l) : n + k < 2 ^ 64 := by
  by_contra hle
  have hout : ¬arc a (add64 a.1 a.2) = true := by
    rw [arc_end ha ha']
    simp
  refine hout ((h.mem_iff _).mp ?_)
  rcases arc_or_arc hs (Nat.le_of_not_lt hle) with h | h
  · exact ⟨_, h1, h⟩
  · exact ⟨_, h2, h⟩

/-! ### Arcs with no point in common -/

/-- Where an arc ends. -/
def stop (a : ℕ × ℕ) : ℕ := add64 a.1 a.2

theorem arc_last (ha : 0 < a.2) (ha' : a.2 < 2 ^ 64) (hs : a.1 < 2 ^ 64) :
    arc a (sub64 (stop a) 1) = true := by
  rw [arc_iff, sub64, stop, add64]
  omega

theorem arc_first (ha : 0 < a.2) (hs : a.1 < 2 ^ 64) : arc a a.1 = true := by
  rw [arc_iff]
  omega

variable {a a' : ℕ × ℕ}

/-- An arc that contains the point behind another, and none of its points, starts there. -/
theorem start_eq_stop (hs : a'.1 < 2 ^ 64) (hstop : arc a' (stop a) = true)
    (hlast : ¬arc a' (sub64 (stop a) 1) = true) : a'.1 = stop a := by
  have hlt : stop a < 2 ^ 64 := add64_lt ..
  rw [arc_iff, sub64] at hlast
  rw [arc_iff] at hstop
  omega

theorem stop_eq_stop (hs : a.1 < 2 ^ 64) (ha : a.2 < 2 ^ 64) (hout : ¬arc a (stop a') = true)
    (hlast : arc a (sub64 (stop a') 1) = true) : stop a' = stop a := by
  have hlt : stop a' < 2 ^ 64 := add64_lt ..
  rw [arc_iff, sub64] at hlast
  rw [arc_iff] at hout
  change stop a' = (a.1 + a.2) % 2 ^ 64
  omega

/-- Two arcs that end at the same point and contain each other's starts are the same. -/
theorem eq_of_stop_eq (ha : a.1 < 2 ^ 64 ∧ a.2 < 2 ^ 64) (ha' : a'.1 < 2 ^ 64 ∧ a'.2 < 2 ^ 64)
    (hstop : stop a' = stop a) (h : arc a a'.1 = true) (h' : arc a' a.1 = true) : a' = a := by
  rw [arc_iff] at h h'
  rw [stop, stop, add64, add64] at hstop
  exact Prod.ext (by omega) (by omega)

/-- SINGLE: arcs that tile an arc, none of which ends where another one starts, are one arc. -/
theorem eq_singleton_of_tiles {l : List (ℕ × ℕ)} (h : Tiles arc l fun x => arc a x = true)
    (ha : a.1 < 2 ^ 64 ∧ a.2 < 2 ^ 64) (hpos : 0 < a.2) (hl : ∀ r ∈ l, (r.1 < 2 ^ 64 ∧ r.2 < 2 ^ 64) ∧ 0 < r.2)
    (hapart : ∀ r ∈ l, ∀ r' ∈ l, r ≠ r' → stop r ≠ r'.1) : l = [a] := by
  have hin : ∀ r ∈ l, ∀ x, arc r x = true → arc a x = true := fun r hr x hx => (h.mem_iff x).mp ⟨r, hr, hx⟩
  have hdis : ∀ r ∈ l, ∀ r' ∈ l, r ≠ r' → ∀ x, arc r x = true → ¬arc r' x = true := by
    intro r hr r' hr' hne x hx hx'
    have hsymm : Std.Symm fun r r' : ℕ × ℕ => ∀ x, ¬(arc r x = true ∧ arc r' x = true) :=
      ⟨fun _ _ h x hx => h x ⟨hx.2, hx.1⟩⟩
    exact h.pairwise.forall hr hr' hne x ⟨hx, hx'⟩
  -- behind an arc comes no other one, so they all end where `a` ends
  have hstop : ∀ r ∈ l, stop r = stop a := by
    intro r hr
    obtain ⟨⟨hs, hn⟩, hpos⟩ := hl r hr
    have hlast := arc_last hpos hn hs
    refine stop_eq_stop ha.1 ha.2 (fun hend => ?_) (hin r hr _ hlast)
    obtain ⟨r', hr', hx⟩ := (h.mem_iff _).mpr hend
    have hne : r ≠ r' := by
      rintro rfl
      rw [stop, arc_end hs hn] at hx
      cases hx
    exact hapart r hr r' hr' hne (start_eq_stop (hl r' hr').1.1 hx (hdis r hr r' hr' hne _ hlast)).symm
  have hlast : ∀ r ∈ l, arc r (sub64 (stop a) 1) = true := fun r hr =>
    hstop r hr ▸ arc_last (hl r hr).2 (hl r hr).1.2 (hl r hr).1.1
  obtain ⟨r, hr, hfirst⟩ := (h.mem_iff a.1).mpr (arc_first hpos ha.1)
  have hra : r = a := eq_of_stop_eq ha (hl r hr).1 (hstop r hr)
    (hin r hr _ (arc_first (hl r hr).2 (hl r hr).1.1)) hfirst
  -- the last point is in each of them, and counted once
  have hlen : l.length = 1 := by
    have hone := (h (sub64 (stop a) 1)).1 (hin r hr _ (hlast r hr))
    rwa [cover, List.countP_eq_length.mpr hlast] at hone
  obtain ⟨r', rfl⟩ := List.length_eq_one_iff.mp hlen
  rw [← hra, List.mem_singleton.mp hr]

end Advos.Arc
