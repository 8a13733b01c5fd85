import Advos.Vmem.Wire

/-! Wiring at any address (`virt_memory_wire2`, `_alloc_virt_pages_wire`).

    Superpages are wired while they fit, then pages. Each of them moves on by a superpage in physical
    memory, and the page tables align the frame of a superpage down:

        virtual    |-- 2 MiB --|-- 2 MiB --|4K|4K|4K|
        physical   |-- 2 MiB --|-- 2 MiB --|4K ...      |4K ...      |4K ...

    so the second page and those after it are not where they should be. -/

namespace Advos.Space
open Vmem Word Pgt List

variable {σ : Type} {E : Env σ} {v : ℕ} {live : σ → Set ℕ} {buf : Buffer}

/-! ### The walk reads 48 bits -/

theorem index_add {y s : ℕ} (hs : s ≤ 39) (n : ℕ) : index (y + 2 ^ 48 * n) s = index y s := by
  have hmask : ∀ x, x &&& 0x1ff = x % 2 ^ 9 := fun x => Nat.and_two_pow_sub_one_eq_mod x 9
  obtain ⟨k, hk⟩ := Nat.exists_eq_add_of_le hs
  have hpow : 2 ^ 48 = 2 ^ s * (2 ^ 9 * 2 ^ k) := by
    rw [← Nat.pow_add, ← Nat.pow_add]
    congr 1
    omega
  rw [index, index, hmask, hmask, Nat.shiftRight_eq_div_pow, Nat.shiftRight_eq_div_pow, hpow, Nat.mul_assoc (2 ^ s),
    Nat.add_mul_div_left _ _ (Nat.two_pow_pos s), Nat.mul_assoc, Nat.add_mul_mod_self_left]

theorem walk_add (t : PageTable) (y n : ℕ) : walk t (y + 2 ^ 48 * n) = walk t y := by
  simp only [walk, index_add (show 39 ≤ 39 by decide), index_add (show 30 ≤ 39 by decide),
    index_add (show 21 ≤ 39 by decide), index_add (show 12 ≤ 39 by decide)]

theorem walk_size {t : PageTable} {y : ℕ} {x : Xlat} (h : walk t y = some x) : x.size ∣ 2 ^ 48 := by
  simp only [walk] at h
  split_ifs at h
  all_goals
    cases h
    exact Nat.pow_dvd_pow 2 (by decide)

theorem translate_add (t : PageTable) (y n : ℕ) : translate t (y + 2 ^ 48 * n) = translate t y := by
  rw [translate, translate, walk_add]
  refine Option.map_congr fun x hx => ?_
  obtain ⟨q, hq⟩ := walk_size hx
  rw [hq, Nat.mul_assoc, Nat.add_mul_mod_self_left]

theorem Linear.le {t : PageTable} {virtual physical nr : ℕ} (h : Linear t virtual physical nr) : nr ≤ 2 ^ 36 := by
  by_contra hnr
  have h0 := h 0 (by omega)
  have h1 := h (2 ^ 36) (by omega)
  have hfar : virtual + 4096 * 2 ^ 36 = virtual + 4096 * 0 + 2 ^ 48 * 1 := rfl
  rw [hfar, translate_add, h0] at h1
  have := Option.some.inj h1
  omega

/-! ### The leaves of a plan -/

section Range
variable {start nr physical : ℕ}

end Range

/-! ### Frames -/

section Frames
variable {nr a k : ℕ}

end Frames

/-- The range in the free interval `f`, and what is left over of it, do not start at address 0, and none of
    its 4 KiB pages is on a 2 MiB page. -/
def Away (W : ℕ → Option Xlat) (nr : ℕ) (m : Mem) (f : ℕ) : Prop :=
  alignStart nr (m f) ≠ 0 ∧ (∀ r ∈ rest (span m f) (alignStart nr (m f), mul64 nr 4096), r.1 ≠ 0) ∧
  ∀ k, 512 * (nr / 512) ≤ k → k < nr → ∀ x, W (add64 (alignStart nr (m f)) (4096 * k)) = some x → x.size ≠ 2 ^ 21

theorem Away.congr {W : ℕ → Option Xlat} {nr f : ℕ} {m m' : Mem} (h : Away W nr m f) (hspan : span m' f = span m f) :
    Away W nr m' f := by
  have hstart : m' f = m f := congrArg Prod.fst hspan
  rw [Away, hspan, hstart]
  exact h

section Wire2
variable {st : St (σ × PageTable)} {T : ℕ → Forest} {M M' : Machine (σ × PageTable)} {physical nr p : ℕ}

end Wire2

end Advos.Space
