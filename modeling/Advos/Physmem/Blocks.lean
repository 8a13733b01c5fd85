import Advos.Physmem.Region

/-! The blocks of a region.

    What `_add_region_order` adds depends on the region alone: `regionBlocks` lists the blocks, and
    adding them one by one is what the code does. The blocks cover the whole pages of the region, each
    once.

    `RegionSpec` collects what one call does to the lists. Its count is exact unless the block at
    address 0 would have to be linked. -/

namespace Advos.Physmem
open Word Tiling Function List

/-! ### The blocks of a region -/

/-- The blocks that `_add_region_order` adds, with their orders. -/
def regionBlocks : ℕ → ℕ → ℕ → List (ℕ × ℕ)
  | 0, _, _ => []
  | order + 1, base, next =>
    let baseAligned := alignUp base order
    let nextAligned := alignDown next order
    (if base ≠ baseAligned then regionBlocks order base (if baseAligned < next then baseAligned else next) else []) ++
      (if next ≠ nextAligned ∧ nextAligned ≥ base then
        regionBlocks order (if nextAligned > base then nextAligned else base) next else []) ++
      (List.range (blockCount order baseAligned nextAligned).toNat).map fun i =>
        (add64 baseAligned (i * blockSize order), order)

def addBlocks (b : Buddy) (l : List (ℕ × ℕ)) : Buddy := l.foldl (fun b blk => addBlock b blk.2 blk.1) b

theorem addBlocks_append (b : Buddy) (l l' : List (ℕ × ℕ)) : addBlocks b (l ++ l') = addBlocks (addBlocks b l) l' :=
  foldl_append

theorem addRegionOrder_eq : ∀ (n : ℕ) (b : Buddy) (base next : ℕ),
    addRegionOrder n b base next = addBlocks b (regionBlocks n base next)
  | 0, _, _, _ => rfl
  | order + 1, b, base, next => by
      have hif : ∀ (c : Prop) [Decidable c] (b : Buddy) (base next : ℕ),
          (if c then addRegionOrder order b base next else b) =
            addBlocks b (if c then regionBlocks order base next else []) := by
        intro c _ b base next
        split
        · exact addRegionOrder_eq order b base next
        · rfl
      have hmap : ∀ (b : Buddy) (f : ℕ → ℕ) (l : List ℕ),
          l.foldl (fun b i => addBlock b order (f i)) b = addBlocks b (l.map fun i => (f i, order)) := by
        intro b f l
        rw [addBlocks, foldl_map]
      simp only [addRegionOrder, regionBlocks, addBlocks_append, hif, hmap]

/-! ### Windows

    Where a region lies does not matter: a call behaves alike in every window of `2 ^ 43` bytes that
    starts at a boundary of the largest blocks, as the linear map of the kernel does. -/

/-- A call at order `n - 1` on a region in the window from `P` on, whose blocks an `int` can count. -/
structure InWindow (P n base next : ℕ) : Prop where
  aligned : blockSize buddyOrder ∣ P
  fits : P + 2 * regionEnd ≤ 2 ^ 64
  order_le : n ≤ buddyOrder + 1
  le_base : P ≤ base
  base_le : base ≤ P + regionEnd
  le_next : P ≤ next
  next_le : next ≤ P + regionEnd
  count_lt : next < base + 2 ^ 31 * blockSize (n - 1)

/-- The ends of a region rounded to blocks of order `k`, and the number of blocks between. -/
structure Rounded (k P base next A B : ℕ) : Prop where
  dvd_up : blockSize k ∣ A
  le_up : base ≤ A
  up_lt : A < base + blockSize k
  up_le : A ≤ P + regionEnd
  dvd_down : blockSize k ∣ B
  down_le : B ≤ next
  lt_down : next < B + blockSize k
  le_down : P ≤ B
  count : (blockCount k A B).toNat * blockSize k = B - A

theorem blockSize_le_pred (k : ℕ) : blockSize k ≤ 2 ^ 31 * blockSize (k - 1) := by
  cases k with
  | zero => exact Nat.le_mul_of_pos_left _ (by decide)
  | succ k =>
    rw [blockSize_succ, Nat.add_sub_cancel]
    omega

section Window
variable {P order base next : ℕ}

theorem InWindow.rounded (h : InWindow P (order + 1) base next) :
    Rounded order P base next (alignUp base order) (alignDown next order) := by
  have hk : order ≤ buddyOrder := Nat.le_of_succ_le_succ h.order_le
  have hP : blockSize order ∣ P := (blockSize_dvd_of_le hk).trans h.aligned
  have hend : blockSize order ∣ P + regionEnd := hP.add (blockSize_le_regionEnd hk)
  have hsize := Nat.le_of_dvd (by decide) (blockSize_le_regionEnd hk)
  have hpos : 0 < regionEnd := by decide
  have hfits := h.fits
  have hnext := h.next_le
  obtain ⟨hA, hbA, hAlt, hAe⟩ := alignUp_bounds hend h.base_le (by omega)
  obtain ⟨hB, hBn, hBlt⟩ := alignDown_bounds (by omega : next < 2 ^ 64)
  have hPB : P ≤ alignDown next order := by
    by_contra hlt
    have := add_le_of_dvd_of_lt hB hP (Nat.lt_of_not_le hlt)
    have := h.le_next
    omega
  have hcount := h.count_lt
  rw [Nat.add_sub_cancel] at hcount
  exact ⟨hA, hbA, hAlt, hAe, hB, hBn, hBlt, hPB,
    blockCount_blocks hk hA hB (by omega) (by omega) (by omega) (by omega)⟩

variable {A B : ℕ} (h : InWindow P (order + 1) base next) (R : Rounded order P base next A B)
include h R

theorem InWindow.lower : InWindow P order base (if A < next then A else next) := by
  have hpred := blockSize_le_pred order
  have h1 := R.up_lt
  have h2 := R.up_le
  have h3 := R.le_up
  have h4 := h.le_base
  have h5 := h.le_next
  have h6 := h.next_le
  exact ⟨h.aligned, h.fits, Nat.le_of_succ_le h.order_le, h4, h.base_le, by split <;> omega,
    by split <;> omega, by split <;> omega⟩

theorem InWindow.upper : InWindow P order (if B > base then B else base) next := by
  have hpred := blockSize_le_pred order
  have h1 := R.lt_down
  have h2 := R.down_le
  have h3 := R.le_down
  have h4 := h.le_base
  have h5 := h.base_le
  have h6 := h.next_le
  exact ⟨h.aligned, h.fits, Nat.le_of_succ_le h.order_le, by split <;> omega, by split <;> omega,
    h.le_next, h6, by split <;> omega⟩

end Window

theorem inWindow_low {n base next : ℕ} (hn : n ≤ buddyOrder + 1) (hb : base < regionEnd) (hx : next < regionEnd) :
    InWindow 0 n base next := by
  have hmul : regionEnd ≤ 2 ^ 31 * blockSize (n - 1) := Nat.mul_le_mul_left (2 ^ 31) (page_le_blockSize _)
  exact ⟨Nat.dvd_zero .., by decide, hn, Nat.zero_le _, by omega, Nat.zero_le _, by omega, by omega⟩

/-- Every block is aligned, in the region, and as large as the region allows. -/
theorem regionBlocks_mem {P : ℕ} : ∀ {n base next a k : ℕ}, InWindow P n base next →
    (a, k) ∈ regionBlocks n base next → NewBlock n base next k a ∧ blockSize k ∣ a
  | 0, _, _, _, _, _, h => by simp [regionBlocks] at h
  | order + 1, base, next, a, k, hw, h => by
      have R := hw.rounded
      simp only [regionBlocks] at h
      generalize alignUp base order = A at *
      generalize alignDown next order = B at *
      rw [mem_append, mem_append] at h
      rcases h with (h | h) | h
      · split at h
        · next hne =>
          obtain ⟨hnew, hal⟩ := regionBlocks_mem (hw.lower R) h
          refine ⟨NewBlock.of_lower R.dvd_up R.le_up R.up_lt ?_, hal⟩
          rwa [lowerEnd, if_pos hne]
        · simp at h
      · split at h
        · next hne =>
          obtain ⟨hnew, hal⟩ := regionBlocks_mem (hw.upper R) h
          refine ⟨NewBlock.of_upper R.dvd_down R.lt_down ?_, hal⟩
          rwa [upperStart, if_pos hne]
        · simp at h
      · obtain ⟨i, hi, heq⟩ := mem_map.mp h
        cases heq
        rw [mem_range] at hi
        have hpos := blockSize_pos order
        -- the block lies between the rounded ends
        have hle : (i + 1) * blockSize order ≤ B - A := by
          rw [← R.count]
          exact Nat.mul_le_mul_right _ hi
        rw [Nat.add_mul, Nat.one_mul] at hle
        have hlast : A + i * blockSize order + blockSize order ≤ next := by
          have := R.down_le
          omega
        have hlt : A + i * blockSize order < 2 ^ 64 := by
          have := hw.next_le
          have := hw.fits
          omega
        rw [add64_of_lt hlt]
        refine ⟨⟨Nat.lt_succ_self _, R.le_up.trans (Nat.le_add_right ..), hlast, fun h => ?_⟩, ?_⟩
        · exact absurd h (Nat.lt_irrefl _)
        · exact R.dvd_up.add (Dvd.intro_left i rfl)

theorem cover_row {k A : ℕ} (hA : blockSize k ∣ A) (x : ℕ) : ∀ n : ℕ, A + n * blockSize k ≤ 2 ^ 64 →
    cover inBlock ((List.range n).map fun i => (add64 A (i * blockSize k), k)) x =
      pageWhole A (A + n * blockSize k) x
  | 0, _ => by
      rw [pageWhole, if_neg]
      · rfl
      · rw [wholePage_iff]
        omega
  | n + 1, hn => by
      have hpos := blockSize_pos k
      rw [Nat.add_mul, Nat.one_mul, ← Nat.add_assoc] at hn ⊢
      have hal : blockSize k ∣ A + n * blockSize k := hA.add (Dvd.intro_left n rfl)
      rw [range_succ, map_append, cover_append, cover_row hA x n (by omega),
        pageWhole_add_block (Nat.le_add_right ..) hal, map_singleton, add64_of_lt (by omega), cover_cons]
      simp [pageIn]

theorem regionBlocks_cover {P : ℕ} (x : ℕ) : ∀ {n base next : ℕ}, InWindow P n base next →
    (n = 0 → ¬wholePage base next x) → cover inBlock (regionBlocks n base next) x = pageWhole base next x
  | 0, base, next, _, h0 => by
      rw [pageWhole, if_neg (h0 rfl)]
      rfl
  | order + 1, base, next, hw, _ => by
      have R := hw.rounded
      simp only [regionBlocks]
      generalize alignUp base order = A at *
      generalize alignDown next order = B at *
      have hlow : cover inBlock (if base ≠ A then regionBlocks order base (if A < next then A else next) else []) x =
          pageWhole base (lowerEnd base next A) x := by
        rw [lowerEnd]
        split
        · refine regionBlocks_cover x (hw.lower R) fun ho hp => ?_
          -- at order 0 a chunk is shorter than a page
          have h1 := R.up_lt
          obtain ⟨i, hi⟩ := R.dvd_up
          subst ho
          rw [wholePage_iff] at hp
          simp only [blockSize, pageSize] at h1 hi
          split at hp <;> omega
        · rw [pageWhole, if_neg]
          · rfl
          · rw [wholePage_iff]
            omega
      have hup : cover inBlock (if next ≠ B ∧ B ≥ base then
          regionBlocks order (if B > base then B else base) next else []) x =
            pageWhole (upperStart base next B) next x := by
        rw [upperStart]
        split
        · refine regionBlocks_cover x (hw.upper R) fun ho hp => ?_
          have h1 := R.lt_down
          obtain ⟨i, hi⟩ := R.dvd_down
          subst ho
          rw [wholePage_iff] at hp
          simp only [blockSize, pageSize] at h1 hi
          split at hp <;> omega
        · rw [pageWhole, if_neg]
          · rfl
          · rw [wholePage_iff]
            omega
      have hfit : A + (blockCount order A B).toNat * blockSize order ≤ 2 ^ 64 := by
        have := R.up_le
        have := R.down_le
        have := hw.next_le
        have := hw.fits
        rw [R.count]
        omega
      rw [cover_append, cover_append, hlow, hup, cover_row R.dvd_up x _ hfit, R.count]
      exact pageWhole_cut R.dvd_up R.dvd_down R.le_up R.up_lt R.down_le R.lt_down x

/-! ### What a call does to the lists -/

theorem addBlocks_count (x : ℕ) : ∀ (l : List (ℕ × ℕ)) (b : Buddy), (∀ blk ∈ l, blk.1 ≠ 0 ∧ blk.2 ≤ buddyOrder) →
    freeCount (addBlocks b l) x = freeCount b x + cover inBlock l x
  | [], _, _ => rfl
  | (a, j) :: l, b, h => by
      obtain ⟨h0, hj⟩ := h (a, j) mem_cons_self
      have ih := addBlocks_count x l (addBlock b j a) fun blk hblk => h blk (mem_cons_of_mem _ hblk)
      rw [addBlock_count hj h0, pageIn] at ih
      rw [cover_cons, Nat.add_comm (cover inBlock l x), ← Nat.add_assoc]
      exact ih

theorem addBlocks_other {k : ℕ} : ∀ {l : List (ℕ × ℕ)} (b : Buddy), (∀ blk ∈ l, blk.2 ≠ k) → addBlocks b l k = b k
  | [], _, _ => rfl
  | (a, j) :: l, b, h => by
      rw [forall_mem_cons] at h
      have ih := addBlocks_other (addBlock b j a) h.2
      rw [addBlock, update_of_ne (Ne.symm h.1)] at ih
      exact ih

/-- Real blocks make lists of real blocks. At address 0 pages can only be lost. -/
theorem addBlocks_lists : ∀ {l : List (ℕ × ℕ)} {b : Buddy}, (∀ k, ListOk k (b k)) →
    (∀ blk ∈ l, blk.2 ≤ buddyOrder ∧ blockSize blk.2 ∣ blk.1 ∧ blk.1 + blockSize blk.2 ≤ memEnd) →
    (∀ k, ListOk k (addBlocks b l k)) ∧ (∀ k, ∀ c ∈ addBlocks b l k, c ∈ b k ∨ (c, k) ∈ l) ∧
      ∀ x, freeCount (addBlocks b l) x ≤ freeCount b x + cover inBlock l x
  | [], b, hl, _ => ⟨hl, fun _ _ hc => .inl hc, fun _ => le_rfl⟩
  | (a, j) :: l, b, hl, h => by
      rw [forall_mem_cons] at h
      obtain ⟨⟨hj, hal, hend⟩, h⟩ := h
      dsimp only at hj hal hend
      obtain ⟨hok, hmem, hle, -⟩ := addBlock_spec hj (hl j) hal hend
      have hother : ∀ k, k ≠ j → addBlock b j a k = b k := fun k hk => update_of_ne hk ..
      have hl' : ∀ k, ListOk k (addBlock b j a k) := by
        intro k
        by_cases hk : k = j
        · subst hk; exact hok
        · rw [hother k hk]; exact hl k
      obtain ⟨ihl, ihm, ihc⟩ := addBlocks_lists hl' h
      refine ⟨ihl, fun k c hc => ?_, fun x => ?_⟩
      · rcases ihm k c hc with hc | hc
        · by_cases hk : k = j
          · subst hk
            rcases hmem c hc with hc | rfl
            · exact .inl hc
            · exact .inr mem_cons_self
          · rw [hother k hk] at hc
            exact .inl hc
        · exact .inr (mem_cons_of_mem _ hc)
      · have h1 := ihc x
        have h2 := hle x
        rw [pageIn] at h2
        rw [cover_cons]
        exact h1.trans (by omega)

/-- What a call at order `n - 1` does. -/
structure RegionSpec (n : ℕ) (b b' : Buddy) (base next : ℕ) : Prop where
  list : ∀ k, ListOk k (b' k)
  above : ∀ k, n ≤ k → b' k = b k
  mem : ∀ k, ∀ c ∈ b' k, c ∈ b k ∨ NewBlock n base next k c
  count_le : ∀ x, freeCount b' x ≤ freeCount b x + pageWhole base next x
  count_eq : base ≠ 0 ∨ next < pageSize → ∀ x, freeCount b' x = freeCount b x + pageWhole base next x

theorem addRegionOrder_spec {n : ℕ} {b : Buddy} {base next : ℕ} (hn : n ≤ buddyOrder + 1) (hb : base < regionEnd)
    (hx : next < regionEnd) (hl : ∀ k, ListOk k (b k)) (h0 : n = 0 → ∀ x, ¬wholePage base next x) :
    RegionSpec n b (addRegionOrder n b base next) base next := by
  have hw := inWindow_low hn hb hx
  have hcover : ∀ x, cover inBlock (regionBlocks n base next) x = pageWhole base next x := fun x =>
    regionBlocks_cover x hw fun h => h0 h x
  have hmem : ∀ blk ∈ regionBlocks n base next, NewBlock n base next blk.2 blk.1 ∧ blockSize blk.2 ∣ blk.1 :=
    fun _ hblk => regionBlocks_mem hw hblk
  have hreal : ∀ blk ∈ regionBlocks n base next,
      blk.2 ≤ buddyOrder ∧ blockSize blk.2 ∣ blk.1 ∧ blk.1 + blockSize blk.2 ≤ memEnd := by
    intro blk hblk
    obtain ⟨hnew, hal⟩ := hmem blk hblk
    have hlt := hnew.order_lt
    have hle := hnew.le_next
    have hend : regionEnd ≤ memEnd := by decide
    exact ⟨by omega, hal, by omega⟩
  obtain ⟨hlists, hnew, hle⟩ := addBlocks_lists hl hreal
  rw [addRegionOrder_eq]
  refine ⟨hlists, fun k hk => ?_, fun k c hc => ?_, fun x => ?_, fun hz x => ?_⟩
  · exact addBlocks_other b fun blk hblk => Nat.ne_of_lt ((hmem blk hblk).1.order_lt.trans_le hk)
  · exact (hnew k c hc).imp id fun hc => (hmem _ hc).1
  · rw [← hcover]
    exact hle x
  · rw [← hcover]
    exact addBlocks_count x _ b fun blk hblk => ⟨(hmem blk hblk).1.addr_ne_zero hz, (hreal blk hblk).1⟩

end Advos.Physmem
