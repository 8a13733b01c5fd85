import Advos.Physmem.Coalesce

/-! Adding a region to the free lists.

    `_add_region_order` cuts `[base, next)` at the block boundaries of its order: the blocks between
    the rounded ends go into the list of that order, the two ragged ends go down one order.

        base     baseAligned              nextAligned   next
          |--lower--|======|======|======|======|--upper--|

    Rounding and the block count are those of 64 and 32 bits. A new block is maximal: the block of the
    next order around it sticks out of the region, which is why no two new blocks are buddies. -/

namespace Advos.Physmem
open Word Tiling

/-- The addresses a region may have: below `2 ^ 43` a block count fits into `int`. -/
def regionEnd : ℕ := 2 ^ 43

/-! ### Rounding -/

theorem blockSize_le_regionEnd {k : ℕ} (hk : k ≤ buddyOrder) : blockSize k ∣ regionEnd := by
  rw [blockSize_eq, regionEnd]
  exact pow_dvd_pow 2 (by rw [buddyOrder] at hk; omega)

theorem add_le_of_dvd_of_lt {d a b : ℕ} (ha : d ∣ a) (hb : d ∣ b) (h : a < b) : a + d ≤ b := by
  obtain ⟨i, rfl⟩ := ha
  obtain ⟨j, rfl⟩ := hb
  have hij := Nat.lt_of_mul_lt_mul_left h
  calc d * i + d = d * (i + 1) := by ring
    _ ≤ d * j := Nat.mul_le_mul_left d hij

theorem alignDown_bounds {next k : ℕ} (h : next < 2 ^ 64) :
    blockSize k ∣ alignDown next k ∧ alignDown next k ≤ next ∧ next < alignDown next k + blockSize k := by
  rw [alignDown, blockSize_eq, and_not_mask h]
  refine ⟨Dvd.intro _ rfl, Nat.mul_div_le next _, ?_⟩
  have := Nat.lt_mul_div_succ next (Nat.two_pow_pos (k + 12))
  rw [Nat.mul_add, Nat.mul_one] at this
  exact this

theorem alignUp_bounds {base k e : ℕ} (he : blockSize k ∣ e) (hb : base ≤ e) (hfit : e + blockSize k ≤ 2 ^ 64) :
    blockSize k ∣ alignUp base k ∧ base ≤ alignUp base k ∧ alignUp base k < base + blockSize k ∧
      alignUp base k ≤ e := by
  have hpos := blockSize_pos k
  have hsum : add64 base (blockSize k - 1) = base + (blockSize k - 1) := add64_of_lt (by omega)
  have hlt : base + (blockSize k - 1) < 2 ^ 64 := by omega
  have heq : alignUp base k = blockSize k * ((base + (blockSize k - 1)) / blockSize k) := by
    rw [alignUp, hsum]
    simp only [blockSize_eq] at hlt ⊢
    rw [and_not_mask hlt]
  have h1 := Nat.mul_div_le (base + (blockSize k - 1)) (blockSize k)
  have h2 := Nat.lt_mul_div_succ (base + (blockSize k - 1)) hpos
  rw [Nat.mul_add, Nat.mul_one] at h2
  rw [heq]
  refine ⟨Dvd.intro _ rfl, by omega, by omega, ?_⟩
  -- a multiple of the block size below `e + blockSize` is at most `e`
  by_contra hgt
  have := add_le_of_dvd_of_lt he (Dvd.intro _ rfl) (Nat.lt_of_not_le hgt)
  omega

theorem page_le_blockSize (k : ℕ) : 2 ^ 12 ≤ blockSize k := by
  rw [blockSize_eq]; exact Nat.pow_le_pow_right (by decide) (by omega)

/-- The `int` block count: the true number of blocks where it fits, and not positive when no block does. -/
theorem blockCount_blocks {k A B : ℕ} (hk : k ≤ buddyOrder) (hA : blockSize k ∣ A) (hB : blockSize k ∣ B)
    (hA64 : A < 2 ^ 64) (hB64 : B < 2 ^ 64) (hAB : A ≤ B + regionEnd) (hBA : B < A + 2 ^ 31 * blockSize k) :
    (blockCount k A B).toNat * blockSize k = B - A := by
  obtain ⟨i, rfl⟩ := hA
  obtain ⟨j, rfl⟩ := hB
  have hpos := blockSize_pos k
  unfold blockCount
  rcases Nat.lt_or_ge j i with hji | hij
  · -- no block fits: the difference wraps and its `int` is the negative block count
    have hlt : blockSize k * j < blockSize k * i := Nat.mul_lt_mul_of_pos_left hji hpos
    have hdiff : i - j ≤ 2 ^ 31 := by
      have hmul : blockSize k * i ≤ blockSize k * (j + 2 ^ 31) := by
        calc blockSize k * i ≤ blockSize k * j + 2 ^ 12 * 2 ^ 31 := hAB
          _ ≤ blockSize k * j + blockSize k * 2 ^ 31 :=
            Nat.add_le_add_left (Nat.mul_le_mul_right _ (page_le_blockSize k)) _
          _ = blockSize k * (j + 2 ^ 31) := (Nat.mul_add ..).symm
      have := Nat.le_of_mul_le_mul_left hmul hpos
      omega
    have hk18 : k ≤ 18 := hk
    have hsub : sub64 (blockSize k * j) (blockSize k * i) =
        2 ^ k * (pageSize * (2 ^ (52 - k) - (i - j))) := by
      rw [sub64_of_lt hlt hA64]
      have h64 : 2 ^ 64 = 2 ^ k * (pageSize * 2 ^ (52 - k)) := by
        rw [pageSize, ← pow_add, ← pow_add]; congr 1; omega
      rw [h64, Nat.mul_sub, Nat.mul_sub, ← Nat.mul_sub]
      congr 1
      rw [blockSize]; ring
    rw [hsub, Nat.shiftRight_eq_div_pow, Nat.mul_div_cancel_left _ (Nat.two_pow_pos k),
      Nat.mul_div_cancel_left _ (by decide)]
    have h32 : 2 ^ (52 - k) = 2 ^ 32 * 2 ^ (20 - k) := by
      rw [← pow_add]; congr 1; omega
    have hbig : i - j ≤ 2 ^ (52 - k) := by
      calc i - j ≤ 2 ^ 31 := hdiff
        _ ≤ 2 ^ (52 - k) := Nat.pow_le_pow_right (by decide) (by omega)
    have hneg : toInt32 (2 ^ (52 - k) - (i - j)) = -((i - j : ℕ) : ℤ) := by
      unfold toInt32
      rw [Int.ofNat_sub hbig, h32, Nat.cast_mul, sub_eq_neg_add]
      have hcast : ((2 ^ 32 : ℕ) : ℤ) * ((2 ^ (20 - k) : ℕ) : ℤ) =
          ((2 ^ (20 - k) : ℕ) : ℤ) * ((2 ^ 32 : ℕ) : ℤ) := mul_comm _ _
      rw [hcast, Int.add_mul_bmod_self_right]
      exact Int.bmod_eq_of_le (by omega) (by omega)
    rw [hneg, Int.toNat_of_nonpos (neg_nonpos.mpr (Int.natCast_nonneg _)), Nat.zero_mul,
      Nat.sub_eq_zero_of_le (le_of_lt hlt)]
  · have hle : blockSize k * i ≤ blockSize k * j := Nat.mul_le_mul_left _ hij
    have hdiff : j - i < 2 ^ 31 := by
      have hmul : blockSize k * j < blockSize k * (i + 2 ^ 31) := by
        rw [Nat.mul_add, Nat.mul_comm (blockSize k) (2 ^ 31)]
        exact hBA
      have := Nat.lt_of_mul_lt_mul_left hmul
      omega
    have hsub : sub64 (blockSize k * j) (blockSize k * i) = 2 ^ k * (pageSize * (j - i)) := by
      rw [sub64_of_le hle hB64, ← Nat.mul_sub, blockSize]; ring
    rw [hsub, Nat.shiftRight_eq_div_pow, Nat.mul_div_cancel_left _ (Nat.two_pow_pos k),
      Nat.mul_div_cancel_left _ (by decide), toInt32_of_lt hdiff, Int.toNat_natCast,
      ← Nat.mul_sub, mul_comm]

/-! ### Pages and blocks -/

/-- One if page `x` lies wholly in `[base, next)`, else zero. -/
def pageWhole (base next x : ℕ) : ℕ := if wholePage base next x then 1 else 0

theorem wholePage_iff {base next x : ℕ} :
    wholePage base next x ↔ base ≤ x * 4096 ∧ x * 4096 + 4096 ≤ next := by
  rw [wholePage, pageSize_eq, Nat.add_mul, Nat.one_mul]

/-- A block behind the pages counted so far is the next stretch of them. -/
theorem pageWhole_add_block {A C k : ℕ} (hle : A ≤ C) (hC : blockSize k ∣ C) (x : ℕ) :
    pageWhole A (C + blockSize k) x = pageWhole A C x + pageIn C k x := by
  obtain ⟨i, hi⟩ := dvd_trans (pageSize_dvd_blockSize k) hC
  obtain ⟨m, hm⟩ := pageSize_dvd_blockSize k
  rw [pageSize_eq] at hi hm
  simp only [pageWhole, pageIn, wholePage_iff, inBlock_iff, pageSize_eq]
  split_ifs <;> omega

theorem addBlock_spec {b : Buddy} {k addr : ℕ} (hk : k ≤ buddyOrder) (hl : ListOk k (b k))
    (hal : blockSize k ∣ addr) (hbd : addr + blockSize k ≤ memEnd) :
    ListOk k (addBlock b k addr k) ∧ (∀ c ∈ addBlock b k addr k, c ∈ b k ∨ c = addr) ∧
      (∀ x, freeCount (addBlock b k addr) x ≤ freeCount b x + pageIn addr k x) ∧
      (addr ≠ 0 → ∀ x, freeCount (addBlock b k addr) x = freeCount b x + pageIn addr k x) := by
  have hup := fun x => freeCount_update (b := b) hk (insertSorted addr (b k)) x
  have hcount : addr ≠ 0 → ∀ x, _ := fun h0 => addBlock_count (b := b) hk h0
  rw [addBlock_self]
  by_cases h0 : addr = 0
  · -- the NULL link: the list ends there
    subst h0
    rw [addBlock]
    rw [insertSorted_zero hl.nonzero] at hup ⊢
    refine ⟨ListOk.nil k, by simp, fun x => ?_, fun h => absurd rfl h⟩
    have := hup x
    simp only [listCount_nil] at this
    omega
  · exact ⟨hl.insert h0 hal hbd, fun c hc => ((mem_insertSorted h0).mp hc).symm,
      fun x => le_of_eq (hcount h0 x), fun _ => hcount h0⟩

/-! ### One call -/

/-- A block that a call at order `n - 1` may add to list `k`: inside the region, and below the
    call's own order the block of the next order around it is not. -/
structure NewBlock (n base next k c : ℕ) : Prop where
  order_lt : k < n
  base_le : base ≤ c
  le_next : c + blockSize k ≤ next
  maximal : k + 1 < n → ∀ p, blockSize (k + 1) ∣ p → p ≤ c → c < p + blockSize (k + 1) →
    ¬ (base ≤ p ∧ p + blockSize (k + 1) ≤ next)

theorem blockSize_dvd_of_le {j k : ℕ} (h : j ≤ k) : blockSize j ∣ blockSize k := by
  rw [blockSize_eq, blockSize_eq]; exact pow_dvd_pow 2 (by omega)

/-- In a region that does not hold page 0 no block is at address 0. -/
theorem NewBlock.addr_ne_zero {n base next k c : ℕ} (h : NewBlock n base next k c) (h0 : base ≠ 0 ∨ next < pageSize) :
    c ≠ 0 := by
  have h1 := h.base_le
  have h2 := h.le_next
  have h3 := Nat.le_of_dvd (blockSize_pos k) (pageSize_dvd_blockSize k)
  omega

/-- The end of the lower chunk: the region up to the first boundary, nothing if it starts there. -/
def lowerEnd (base next A : ℕ) : ℕ := if base ≠ A then (if A < next then A else next) else base

/-- The start of the upper chunk: the region from the last boundary on, nothing if it is before
    `base` or the region ends there. -/
def upperStart (base next B : ℕ) : ℕ :=
  if next ≠ B ∧ B ≥ base then (if B > base then B else base) else next

/-- A maximal block of the lower chunk is maximal in the whole region. -/
theorem NewBlock.of_lower {order base next A k c : ℕ} (hA : blockSize order ∣ A)
    (hbA : base ≤ A) (hAlt : A < base + blockSize order)
    (h : NewBlock order base (lowerEnd base next A) k c) : NewBlock (order + 1) base next k c := by
  have hpos := blockSize_pos k
  have hle := h.le_next
  have hge := h.base_le
  have hend : lowerEnd base next A ≤ A ∧ (lowerEnd base next A = A ∧ A ≤ next ∨
      lowerEnd base next A = next ∨ lowerEnd base next A = base) := by
    unfold lowerEnd; split_ifs <;> omega
  refine ⟨Nat.lt_succ_of_lt h.order_lt, h.base_le, by omega, fun _ p hp hpc hcp => ?_⟩
  rintro ⟨h1, h2⟩
  have hko := h.order_lt
  rcases Nat.lt_or_ge (k + 1) order with hlt | hge'
  · refine h.maximal hlt p hp hpc hcp ⟨h1, ?_⟩
    have hpA := add_le_of_dvd_of_lt hp (dvd_trans (blockSize_dvd_of_le (le_of_lt hlt)) hA)
      (by omega)
    omega
  · -- the block around `c` has the call's order and would start at or after `A`
    have hk : k + 1 = order := by omega
    rw [hk] at hp
    have := add_le_of_dvd_of_lt hp hA (by omega)
    omega

/-- A maximal block of the upper chunk is maximal in the whole region. -/
theorem NewBlock.of_upper {order base next B k c : ℕ} (hB : blockSize order ∣ B)
    (hBlt : next < B + blockSize order)
    (h : NewBlock order (upperStart base next B) next k c) : NewBlock (order + 1) base next k c := by
  have hpos := blockSize_pos k
  have hle := h.le_next
  have hge := h.base_le
  have hstart : (upperStart base next B = B ∧ base ≤ B) ∨
      (upperStart base next B = base ∧ B = base) ∨ upperStart base next B = next := by
    unfold upperStart; split_ifs <;> omega
  refine ⟨Nat.lt_succ_of_lt h.order_lt, by omega, h.le_next, fun _ p hp hpc hcp => ?_⟩
  rintro ⟨h1, h2⟩
  have hko := h.order_lt
  rcases Nat.lt_or_ge (k + 1) order with hlt | hge'
  · refine h.maximal hlt p hp hpc hcp ⟨?_, h2⟩
    have hBp : B ≤ p := by
      by_contra hcon
      have := add_le_of_dvd_of_lt hp (dvd_trans (blockSize_dvd_of_le (le_of_lt hlt)) hB)
        (Nat.lt_of_not_le hcon)
      omega
    omega
  · have hk : k + 1 = order := by omega
    rw [hk] at hp hcp h2
    -- a block of the call's order behind `B` would not end before `next`
    have := add_le_of_dvd_of_lt hB (Dvd.dvd.add hp (dvd_refl (blockSize order))) (by omega)
    omega

/-- The whole pages of a region are those of its two chunks and of the blocks between. -/
theorem pageWhole_cut {k base next A B : ℕ} (hA : blockSize k ∣ A) (hB : blockSize k ∣ B)
    (hbA : base ≤ A) (hAlt : A < base + blockSize k) (hBn : B ≤ next)
    (hBlt : next < B + blockSize k) (x : ℕ) :
    pageWhole base (lowerEnd base next A) x + pageWhole (upperStart base next B) next x +
      pageWhole A (A + (B - A)) x = pageWhole base next x := by
  obtain ⟨a, ha⟩ := dvd_trans (pageSize_dvd_blockSize k) hA
  obtain ⟨c, hc⟩ := dvd_trans (pageSize_dvd_blockSize k) hB
  rw [pageSize_eq] at ha hc
  simp only [pageWhole, wholePage_iff, lowerEnd, upperStart]
  rcases Nat.lt_or_ge B A with hlt | hge
  · have hsz := add_le_of_dvd_of_lt hB hA hlt
    split_ifs <;> omega
  · split_ifs <;> omega

end Advos.Physmem
