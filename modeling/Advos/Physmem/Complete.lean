import Advos.Physmem.Runs

/-! What the allocator finds, and what a region adds.

    COMPLETE: `phys_mem_buddy_alloc` fails only when there is nothing to give. Splitting reaches every
    higher order, and coalescing leaves no aligned run of free pages in pieces, so a block of order `k`
    is found exactly if `2 ^ k` aligned pages in a row are free.

    EXACT: the blocks that `phys_mem_buddy_add_region` adds (`regionBlocks`) are put in their places in
    lists of any kind. -/

namespace Advos.Physmem
open Word Tiling Function List

/-! ### Splitting -/

/-- There is something to split from `order` on. -/
def Stocked (b : Buddy) (order : ℕ) : Prop := ∃ j, order ≤ j ∧ j ≤ buddyOrder ∧ b j ≠ []

theorem splitBuddy_of_not_stocked : ∀ (d : ℕ) (b : Buddy) (order : ℕ), order + d = buddyOrder →
    ¬Stocked b order → splitBuddy d b order = b
  | 0, _, _, _, _ => rfl
  | d + 1, b, order, ho, h => by
      have hup : ¬Stocked b (order + 1) := fun ⟨j, hj, hj', hne⟩ => h ⟨j, by omega, hj', hne⟩
      have hnil : ∀ j, order ≤ j → j ≤ buddyOrder → b j = [] := fun j hj hj' =>
        not_ne_iff.mp fun hne => h ⟨j, hj, hj', hne⟩
      have hthis : b order = [] := hnil order le_rfl (by omega)
      have hnext : b (order + 1) = [] := hnil (order + 1) (by omega) (by omega)
      simp only [splitBuddy, hthis, ne_eq, not_true_eq_false, if_false,
        splitBuddy_of_not_stocked d b (order + 1) (by omega) hup, hnext]

theorem splitBuddy_of_stocked : ∀ (d : ℕ) (b : Buddy) (order : ℕ), order + d = buddyOrder → Sound b →
    Stocked b order → splitBuddy d b order order ≠ []
  | 0, b, order, ho, _, ⟨j, hj, hj', hne⟩ => by
      obtain rfl : j = order := by omega
      exact hne
  | d + 1, b, order, ho, hS, ⟨j, hj, hj', hne⟩ => by
      simp only [splitBuddy]
      by_cases hthis : b order ≠ []
      · rw [if_pos hthis]
        exact hthis
      rw [if_neg hthis]
      have hjo : j ≠ order := by
        rintro rfl
        exact hthis hne
      have ih := splitBuddy_of_stocked d b (order + 1) (by omega) hS ⟨j, by omega, hj', hne⟩
      have hlist := (splitBuddy_spec d b (order + 1) (by omega) hS).1.list (order + 1)
      cases hup : splitBuddy d b (order + 1) (order + 1) with
      | nil => exact absurd hup ih
      | cons block rest =>
        rw [hup] at hlist
        have hblock : block ≠ 0 := fun h0 => hlist.nonzero (by simp [h0])
        simp only [update_self, link, if_neg hblock]
        exact cons_ne_nil _ _

/-- An allocation gives NULL exactly if nothing is in stock, and then changes no list. -/
theorem alloc_zero_iff {b : Buddy} (hS : Sound b) {order : ℕ} (ho : order ≤ buddyOrder) :
    ((physMemBuddyAlloc b order).1 = 0 ↔ ¬Stocked b order) ∧
      (¬Stocked b order → (physMemBuddyAlloc b order).2 = b) := by
  have hsplit := (splitBuddy_spec (buddyOrder - order) b order (by omega) hS).1.list order
  rw [physMemBuddyAlloc, if_neg (by omega)]
  by_cases h : Stocked b order
  · have hne := splitBuddy_of_stocked (buddyOrder - order) b order (by omega) hS h
    cases hl : splitBuddy (buddyOrder - order) b order order with
    | nil => exact absurd hl hne
    | cons block rest =>
      rw [hl] at hsplit
      have hblock : block ≠ 0 := fun h0 => hsplit.nonzero (by simp [h0])
      refine ⟨⟨fun h0 => ?_, fun h' => absurd h h'⟩, fun h' => absurd h h'⟩
      simp only [hl] at h0
      exact absurd h0 hblock
  · have hnil : b order = [] := not_ne_iff.mp fun hne => h ⟨order, le_rfl, ho, hne⟩
    have hsplit' := splitBuddy_of_not_stocked (buddyOrder - order) b order (by omega) h
    simp only [hsplit', hnil]
    exact ⟨iff_of_true trivial h, fun _ => trivial⟩

/-! ### Runs of free pages -/

/-- The blocks of order `k`. -/
def ofOrder (k : ℕ) (l : List (ℕ × ℕ)) : List ℕ := (l.filter fun blk => blk.2 = k).map Prod.fst

theorem addBlocks_perm (k : ℕ) : ∀ (l : List (ℕ × ℕ)) (b : Buddy), (∀ blk ∈ l, blk.1 ≠ 0) →
    (addBlocks b l k).Perm (ofOrder k l ++ b k)
  | [], _, _ => List.Perm.refl _
  | (a, j) :: l, b, h => by
      have ih := addBlocks_perm k l (addBlock b j a) fun blk hblk => h blk (mem_cons_of_mem _ hblk)
      refine ih.trans ?_
      by_cases hj : j = k
      · subst hj
        have hperm := insertSorted_perm (h (a, j) mem_cons_self) (b j)
        have hcons : ofOrder j ((a, j) :: l) = a :: ofOrder j l := by simp [ofOrder]
        rw [addBlock_self, hcons]
        exact (hperm.append_left _).trans perm_middle
      · have hcons : ofOrder k ((a, j) :: l) = ofOrder k l := by simp [ofOrder, hj]
        rw [addBlock, update_of_ne (Ne.symm hj), hcons]

theorem addBlocks_sorted (k : ℕ) : ∀ (l : List (ℕ × ℕ)) (b : Buddy), (∀ blk ∈ l, blk.1 ≠ 0) →
    (b k).Pairwise (· ≤ ·) → (addBlocks b l k).Pairwise (· ≤ ·)
  | [], _, _, hb => hb
  | (a, j) :: l, b, h, hb => by
      refine addBlocks_sorted k l (addBlock b j a) (fun blk hblk => h blk (mem_cons_of_mem _ hblk)) ?_
      by_cases hj : j = k
      · subst hj
        rw [addBlock_self]
        exact insertSorted_sorted (h (a, j) mem_cons_self) hb
      · rwa [addBlock, update_of_ne (Ne.symm hj)]

/-- What adding `[base, next)` does to the lists `b`: the blocks of `l` come in, each in its place. -/
structure RegionAdded (base next : ℕ) (b b' : Buddy) (l : List (ℕ × ℕ)) : Prop where
  order_le : ∀ blk ∈ l, blk.2 ≤ buddyOrder
  aligned : ∀ blk ∈ l, blockSize blk.2 ∣ blk.1
  disjoint : l.Pairwise fun p q => ∀ x, ¬(inBlock p x = true ∧ inBlock q x = true)
  added : ∀ k, (b' k).Perm (ofOrder k l ++ b k)
  sorted : ∀ k, k ≤ buddyOrder → (b' k).Pairwise (· < ·)
  pages : ∀ x, (∃ blk ∈ l, inBlock blk x = true) ↔ wholePage base next x

/-- A region below `2 ^ 43` that does not hold page 0 adds exactly its whole pages, to any sorted lists
    without a block in the region; on empty lists no two buddies below the largest order are added. -/
theorem region_added {base next : ℕ} (hb : base < 2 ^ 43) (hn : next < 2 ^ 43) (h0 : base ≠ 0 ∨ next < 4096)
    {b : Buddy} (hsorted : ∀ k, k ≤ buddyOrder → (b k).Pairwise (· < ·))
    (hout : ∀ k, k ≤ buddyOrder → ∀ a ∈ b k, ¬(base ≤ a ∧ a + blockSize k ≤ next)) :
    (∃ l, RegionAdded base next b (physMemBuddyAddRegion b base next) l) ∧
      Coalesced (physMemBuddyAddRegion emptyLists base next) := by
  have hboot := boot_region hb hn
  simp only [boot] at hboot
  refine ⟨⟨regionBlocks (buddyOrder + 1) base next, ?_⟩, hboot.coalesced⟩
  have hwin := inWindow_low le_rfl hb hn
  have hmem : ∀ blk ∈ regionBlocks (buddyOrder + 1) base next,
      NewBlock (buddyOrder + 1) base next blk.2 blk.1 ∧ blockSize blk.2 ∣ blk.1 := by
    rintro ⟨a, k⟩ h
    exact regionBlocks_mem hwin h
  have hne : ∀ blk ∈ regionBlocks (buddyOrder + 1) base next, blk.1 ≠ 0 := fun blk h => (hmem blk h).1.addr_ne_zero h0
  have hle : ∀ blk ∈ regionBlocks (buddyOrder + 1) base next, blk.2 ≤ buddyOrder := fun blk h =>
    Nat.le_of_lt_succ (hmem blk h).1.order_lt
  have hcover : ∀ x, cover inBlock (regionBlocks (buddyOrder + 1) base next) x = pageWhole base next x :=
    fun x => regionBlocks_cover x hwin fun h => absurd h (Nat.succ_ne_zero _)
  have hperm : ∀ k, (physMemBuddyAddRegion b base next k).Perm
      (ofOrder k (regionBlocks (buddyOrder + 1) base next) ++ b k) := by
    intro k
    rw [physMemBuddyAddRegion, addRegionOrder_eq]
    exact addBlocks_perm k _ b hne
  have hdisjoint : (regionBlocks (buddyOrder + 1) base next).Pairwise
      fun p q => ∀ x, ¬(inBlock p x = true ∧ inBlock q x = true) :=
    pairwise_of_cover_le_one fun x => by
      rw [hcover]
      exact pageWhole_le_one ..
  refine ⟨hle, fun blk h => (hmem blk h).2, hdisjoint, hperm, fun k hk => ?_, fun x => ?_⟩
  · have hweak : (physMemBuddyAddRegion b base next k).Pairwise (· ≤ ·) := by
      rw [physMemBuddyAddRegion, addRegionOrder_eq]
      exact addBlocks_sorted k _ b hne ((hsorted k hk).imp fun h => Nat.le_of_lt h)
    -- no address twice: new blocks are disjoint, and the old ones are not in the region
    have hnodup : (ofOrder k (regionBlocks (buddyOrder + 1) base next) ++ b k).Nodup := by
      refine List.Nodup.append ?_ ((hsorted k hk).imp fun h => Nat.ne_of_lt h) fun a ha ha' => ?_
      · refine List.pairwise_map.mpr ((hdisjoint.filter _).imp_of_mem ?_)
        rintro ⟨a, j⟩ ⟨c, i⟩ ha hc hdis heq
        obtain ⟨ha₁, hj⟩ := List.mem_filter.mp ha
        obtain ⟨-, hi⟩ := List.mem_filter.mp hc
        obtain rfl : j = k := of_decide_eq_true hj
        obtain rfl : i = j := of_decide_eq_true hi
        obtain rfl : a = c := heq
        have hfirst := inBlock_first (hmem _ ha₁).2
        exact hdis _ ⟨hfirst, hfirst⟩
      · obtain ⟨⟨a', j⟩, hblk, rfl⟩ := List.mem_map.mp ha
        obtain ⟨hblk₁, hj⟩ := List.mem_filter.mp hblk
        obtain rfl : j = k := of_decide_eq_true hj
        have hnew := (hmem _ hblk₁).1
        exact hout j hk a' ha' ⟨hnew.base_le, hnew.le_next⟩
    have hnodup' := (hperm k).nodup_iff.mpr hnodup
    exact (hweak.and hnodup').imp fun h => lt_of_le_of_ne h.1 h.2
  · rw [← cover_pos, hcover, pageWhole]
    split
    · next h => exact iff_of_true Nat.one_pos h
    · next h => exact iff_of_false (Nat.lt_irrefl 0) h

theorem region_added_two_pages :
    ∃ l, RegionAdded 4096 12288 emptyLists (physMemBuddyAddRegion emptyLists 4096 12288) l :=
  (region_added (by decide) (by decide) (by decide) (fun _ _ => .nil) nofun).1

/-- The block at address 0 is linked as NULL, and what was in its list is gone with it. -/
theorem region_from_zero_drops : ¬∃ l, RegionAdded 0 4096 (Function.update emptyLists 0 [0x5000])
    (physMemBuddyAddRegion (Function.update emptyLists 0 [0x5000]) 0 4096) l := by
  rintro ⟨l, h⟩
  have hnil : physMemBuddyAddRegion (Function.update emptyLists 0 [0x5000]) 0 4096 0 = [] := by decide
  have hperm := h.added 0
  rw [hnil, Function.update_self] at hperm
  have := hperm.length_eq
  simp at this

end Advos.Physmem
