import Mathlib

/-! Dyadic blocks and their canonical decompositions.

    A block of order `k` starts at a multiple of `2 ^ k` and holds `2 ^ k` cells. Two such blocks are
    nested or disjoint. A family of disjoint blocks of order at most `N` in which no two buddies
    stand side by side is COALESCED, and a set of cells has at most one coalesced decomposition: a
    fully covered block always lies inside a single member of the family (`exists_parent`), so
    membership is decided by the covered set alone (`unique`).

        order 2   [0 . . .]         [8 . . .]
        order 1            [4 .]
        order 0                 [6]                  7 is the missing buddy of 6  -/

namespace Advos.Dyadic

/-- Cell `x` belongs to the block of order `k` at `p`. -/
def Cell (p k x : ℕ) : Prop := p ≤ x ∧ x < p + 2 ^ k

theorem cell_self (p k : ℕ) : Cell p k p := ⟨le_refl p, by have := Nat.two_pow_pos k; omega⟩

theorem nested {p q k j x y : ℕ} (hp : 2 ^ k ∣ p) (hq : 2 ^ j ∣ q) (hkj : k ≤ j)
    (hx : Cell p k x) (hx' : Cell q j x) (hy : Cell p k y) : Cell q j y := by
  obtain ⟨d, rfl⟩ := Nat.exists_eq_add_of_le hkj
  obtain ⟨a, rfl⟩ := hp
  obtain ⟨b, rfl⟩ := hq
  obtain ⟨hx1, hx2⟩ := hx
  obtain ⟨hx3, hx4⟩ := hx'
  obtain ⟨hy1, hy2⟩ := hy
  have hk := Nat.two_pow_pos k
  rw [pow_add, mul_assoc] at hx3 hx4
  -- in units of `2 ^ k` the small block is the cell `a` of the large one
  have h1 : 2 ^ d * b < a + 1 := by
    refine Nat.lt_of_mul_lt_mul_left (a := 2 ^ k) ?_
    rw [mul_add]; omega
  have h2 : a < 2 ^ d * b + 2 ^ d := by
    refine Nat.lt_of_mul_lt_mul_left (a := 2 ^ k) ?_
    rw [mul_add]; omega
  refine ⟨?_, ?_⟩
  · calc 2 ^ (k + d) * b = 2 ^ k * (2 ^ d * b) := by rw [pow_add, mul_assoc]
      _ ≤ 2 ^ k * a := Nat.mul_le_mul_left _ (by omega)
      _ ≤ y := hy1
  · calc y < 2 ^ k * a + 2 ^ k := hy2
      _ = 2 ^ k * (a + 1) := by ring
      _ ≤ 2 ^ k * (2 ^ d * b + 2 ^ d) := Nat.mul_le_mul_left _ (by omega)
      _ = 2 ^ (k + d) * b + 2 ^ (k + d) := by rw [pow_add]; ring

theorem eq_of_meet {p q k x : ℕ} (hp : 2 ^ k ∣ p) (hq : 2 ^ k ∣ q) (hx : Cell p k x)
    (hx' : Cell q k x) : p = q := by
  have h1 := nested hp hq (le_refl k) hx hx' (cell_self p k)
  have h2 := nested hq hp (le_refl k) hx' hx (cell_self q k)
  exact le_antisymm h2.1 h1.1

/-- A coalesced family of disjoint dyadic blocks of order at most `N`: `D k p` says that the block
    of order `k` at `p` is a member. -/
structure Canonical (N : ℕ) (D : ℕ → ℕ → Prop) : Prop where
  order_le : ∀ {k p}, D k p → k ≤ N
  aligned : ∀ {k p}, D k p → 2 ^ k ∣ p
  disjoint : ∀ {k p j q x}, D k p → D j q → Cell p k x → Cell q j x → k = j ∧ p = q
  coalesced : ∀ {k p}, k < N → 2 ^ (k + 1) ∣ p → D k p → ¬ D k (p + 2 ^ k)

/-- The cells a family covers. -/
def Covered (D : ℕ → ℕ → Prop) (x : ℕ) : Prop := ∃ k p, D k p ∧ Cell p k x

/-- A block whose cells are all covered lies inside one member of a canonical family. -/
theorem Canonical.exists_parent {N : ℕ} {D : ℕ → ℕ → Prop} (h : Canonical N D) :
    ∀ {k p : ℕ}, k ≤ N → 2 ^ k ∣ p → (∀ x, Cell p k x → Covered D x) →
      ∃ j q, k ≤ j ∧ D j q ∧ ∀ x, Cell p k x → Cell q j x
  | 0, p, _, _, hc => by
      obtain ⟨j, q, hD, hq⟩ := hc p (cell_self p 0)
      refine ⟨j, q, Nat.zero_le j, hD, fun x hx => ?_⟩
      have hxp : x = p := by obtain ⟨h1, h2⟩ := hx; simp at h2; omega
      rwa [hxp]
  | k + 1, p, hk, hp, hc => by
      have hpow : 2 ^ (k + 1) = 2 ^ k + 2 ^ k := by rw [pow_succ]; ring
      have hpk : 2 ^ k ∣ p := dvd_trans (pow_dvd_pow 2 (Nat.le_succ k)) hp
      have hpk' : 2 ^ k ∣ p + 2 ^ k := Dvd.dvd.add hpk (dvd_refl _)
      -- the two halves, each inside a member by induction
      have hlo : ∀ x, Cell p k x → Cell p (k + 1) x := fun x hx => ⟨hx.1, by have := hx.2; omega⟩
      have hhi : ∀ x, Cell (p + 2 ^ k) k x → Cell p (k + 1) x := fun x hx =>
        ⟨by have := hx.1; omega, by have := hx.2; omega⟩
      obtain ⟨j, q, hkj, hD, hsub⟩ :=
        h.exists_parent (Nat.le_of_succ_le hk) hpk fun x hx => hc x (hlo x hx)
      obtain ⟨j', q', hkj', hD', hsub'⟩ :=
        h.exists_parent (Nat.le_of_succ_le hk) hpk' fun x hx => hc x (hhi x hx)
      rcases Nat.eq_or_lt_of_le hkj with rfl | hlt
      · rcases Nat.eq_or_lt_of_le hkj' with rfl | hlt'
        · -- both halves are members themselves: two buddies side by side
          have hq : p = q := eq_of_meet hpk (h.aligned hD) (cell_self p k) (hsub p (cell_self p k))
          have hq' : p + 2 ^ k = q' :=
            eq_of_meet hpk' (h.aligned hD') (cell_self _ k) (hsub' _ (cell_self _ k))
          subst hq hq'
          exact absurd hD' (h.coalesced hk hp hD)
        · exact ⟨j', q', hlt', hD', fun x hx => nested hp (h.aligned hD') hlt'
            (hhi _ (cell_self _ k)) (hsub' _ (cell_self _ k)) hx⟩
      · exact ⟨j, q, hlt, hD, fun x hx => nested hp (h.aligned hD) hlt
          (hlo _ (cell_self _ k)) (hsub _ (cell_self _ k)) hx⟩

/-- UNIQUE: canonical families that cover the same cells have the same members. -/
theorem Canonical.unique {N : ℕ} {D D' : ℕ → ℕ → Prop} (h : Canonical N D) (h' : Canonical N D')
    (hcov : ∀ x, Covered D x ↔ Covered D' x) {k p : ℕ} (hD : D k p) : D' k p := by
  obtain ⟨j, q, hkj, hq, hsub⟩ := h'.exists_parent (h.order_le hD) (h.aligned hD)
    fun x hx => (hcov x).mp ⟨k, p, hD, hx⟩
  obtain ⟨i, r, hji, hr, hsub'⟩ := h.exists_parent (h'.order_le hq) (h'.aligned hq)
    fun x hx => (hcov x).mpr ⟨j, q, hq, hx⟩
  have hp := cell_self p k
  -- the member around the member around `p` is `p` again, so all three orders agree
  obtain ⟨hki, -⟩ := h.disjoint hD hr hp (hsub' p (hsub p hp))
  have hkj' : k = j := by omega
  subst hkj'
  rwa [eq_of_meet (h.aligned hD) (h'.aligned hq) hp (hsub p hp)]

end Advos.Dyadic
