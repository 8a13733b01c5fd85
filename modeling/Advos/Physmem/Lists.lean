import Advos.Physmem.Buddy

/-! What every operation on the free lists keeps.

    `Sound` says that the lists hold real blocks (aligned, not NULL, below the end of memory), sorted,
    and that no page is in two of them. The page counts make conservation additive: inserting a block
    adds its pages, splitting one changes nothing, taking one out subtracts its pages. -/

namespace Advos.Physmem
open Word Tiling Function List

/-! ### Block sizes -/

theorem pageSize_eq : pageSize = 4096 := rfl

theorem blockSize_eq (k : ℕ) : blockSize k = 2 ^ (k + 12) := by
  rw [blockSize, pageSize, ← pow_add]

theorem blockSize_succ (k : ℕ) : blockSize (k + 1) = 2 * blockSize k := by
  rw [blockSize, blockSize, pow_succ]; ring

theorem blockSize_pos (k : ℕ) : 0 < blockSize k := by
  rw [blockSize_eq]; exact Nat.two_pow_pos _

theorem pageSize_dvd_blockSize (k : ℕ) : pageSize ∣ blockSize k := Dvd.intro_left _ rfl

theorem blockSize_dvd_succ (k : ℕ) : blockSize k ∣ blockSize (k + 1) :=
  ⟨2, by rw [blockSize_succ, mul_comm]⟩

theorem isBuddy_iff {order block next : ℕ} : isBuddy order block next = true ↔
    blockSize (order + 1) ∣ block ∧ next = add64 block (blockSize order) := by
  have hmask : blockSize order <<< 1 - 1 = 2 ^ (order + 1 + 12) - 1 := by
    rw [Nat.shiftLeft_eq, ← blockSize_eq, blockSize_succ]; ring_nf
  rw [isBuddy, decide_eq_true_iff, hmask, Nat.and_two_pow_sub_one_eq_mod, blockSize_eq (order + 1),
    Nat.dvd_iff_mod_eq_zero]

/-! ### Page counts -/

/-- How many blocks of one list of order `k` hold page `x`. -/
def listCount (k : ℕ) (l : List ℕ) (x : ℕ) : ℕ := cover inBlock (l.map (·, k)) x

/-- One if page `x` is in the block at `a` of order `k`, else zero. -/
def pageIn (a k x : ℕ) : ℕ := if inBlock (a, k) x then 1 else 0

@[simp] theorem listCount_nil (k x : ℕ) : listCount k [] x = 0 := rfl

@[simp] theorem listCount_cons (k a : ℕ) (l : List ℕ) (x : ℕ) :
    listCount k (a :: l) x = listCount k l x + pageIn a k x := by
  simp [listCount, pageIn]

variable {k : ℕ}

theorem listCount_perm {l l' : List ℕ} (h : l.Perm l') (x : ℕ) :
    listCount k l x = listCount k l' x :=
  cover_perm inBlock x (h.map _)

variable {b : Buddy}

theorem freeCount_update (hk : k ≤ buddyOrder) (l : List ℕ) (x : ℕ) :
    freeCount (update b k l) x + listCount k (b k) x =
      freeCount b x + listCount k l x :=
  cover_shelf_update inBlock b l x (nodup_range) (mem_range.mpr (Nat.lt_succ_of_le hk))

theorem inBlock_iff {a k x : ℕ} :
    inBlock (a, k) x = true ↔ a ≤ x * pageSize ∧ x * pageSize < a + blockSize k := by
  simp [inBlock]

theorem pageIn_split (a k x : ℕ) :
    pageIn a (k + 1) x = pageIn a k x + pageIn (a + blockSize k) k x := by
  simp only [pageIn, inBlock_iff, blockSize_succ]
  have := blockSize_pos k
  split_ifs <;> omega

theorem inBlock_first {a k : ℕ} (h : blockSize k ∣ a) : inBlock (a, k) (a / pageSize) = true := by
  have hp : a / pageSize * pageSize = a :=
    Nat.div_mul_cancel (dvd_trans (pageSize_dvd_blockSize k) h)
  rw [inBlock_iff, hp]
  exact ⟨le_refl a, by have := blockSize_pos k; omega⟩

/-! ### Sorted insertion -/

theorem insertSorted_perm {addr : ℕ} (h : addr ≠ 0) : ∀ l : List ℕ,
    (insertSorted addr l).Perm (addr :: l)
  | [] => by simp [insertSorted, link, h]
  | cur :: rest => by
      unfold insertSorted
      split
      · simp [link, h]
      · exact ((insertSorted_perm h rest).cons cur).trans (List.Perm.swap addr cur rest)

variable {l : List ℕ}

theorem mem_insertSorted {addr a : ℕ} (h : addr ≠ 0) :
    a ∈ insertSorted addr l ↔ a = addr ∨ a ∈ l := by
  rw [(insertSorted_perm h l).mem_iff, mem_cons]

theorem insertSorted_sorted {addr : ℕ} (h : addr ≠ 0) : ∀ {l : List ℕ}, l.Pairwise (· ≤ ·) →
    (insertSorted addr l).Pairwise (· ≤ ·)
  | [], _ => by simp [insertSorted, link, h]
  | cur :: rest, hs => by
      obtain ⟨hcur, hrest⟩ := pairwise_cons.mp hs
      unfold insertSorted
      split
      · rename_i hlt
        simp only [link, h, if_false]
        refine pairwise_cons.mpr ⟨fun a ha => ?_, hs⟩
        rcases mem_cons.mp ha with rfl | ha
        · omega
        · have := hcur a ha; omega
      · rename_i hge
        refine pairwise_cons.mpr ⟨fun a ha => ?_, insertSorted_sorted h hrest⟩
        rcases (mem_insertSorted h).mp ha with rfl | ha
        · omega
        · exact hcur a ha

/-- Linking NULL in front of positive addresses ends the list there. -/
theorem insertSorted_zero : ∀ {l : List ℕ}, 0 ∉ l → insertSorted 0 l = []
  | [], _ => by simp [insertSorted, link]
  | cur :: rest, h => by
      have hcur : 0 < cur := Nat.pos_of_ne_zero fun h0 => h (by simp [h0])
      simp [insertSorted, link, hcur]

/-! ### Sound lists -/

/-- The largest end of a block: all addresses are below `2 ^ 44`, so sums do not wrap. -/
def memEnd : ℕ := 2 ^ 44

/-- One list of order `k`: real blocks, in order of address. -/
structure ListOk (k : ℕ) (l : List ℕ) : Prop where
  nonzero : 0 ∉ l
  aligned : ∀ a ∈ l, blockSize k ∣ a
  bound : ∀ a ∈ l, a + blockSize k ≤ memEnd
  sorted : l.Pairwise (· ≤ ·)

theorem ListOk.nil (k : ℕ) : ListOk k [] :=
  ⟨by simp, by simp, by simp, List.Pairwise.nil⟩

theorem ListOk.sublist {l l' : List ℕ} (h : ListOk k l) (hs : l'.Sublist l) : ListOk k l' :=
  ⟨fun h0 => h.nonzero (hs.subset h0), fun a ha => h.aligned a (hs.subset ha),
    fun a ha => h.bound a (hs.subset ha), h.sorted.sublist hs⟩

theorem ListOk.insert {k addr : ℕ} (h : ListOk k l) (h0 : addr ≠ 0) (hal : blockSize k ∣ addr)
    (hb : addr + blockSize k ≤ memEnd) :
    ListOk k (insertSorted addr l) := by
  refine ⟨?_, ?_, ?_, insertSorted_sorted h0 h.sorted⟩
  · rw [mem_insertSorted h0]
    rintro (h' | h')
    · exact h0 h'.symm
    · exact h.nonzero h'
  · intro a ha
    rcases (mem_insertSorted h0).mp ha with rfl | ha
    · exact hal
    · exact h.aligned a ha
  · intro a ha
    rcases (mem_insertSorted h0).mp ha with rfl | ha
    · exact hb
    · exact h.bound a ha

/-- The invariant of the free lists. -/
structure Sound (b : Buddy) : Prop where
  list : ∀ k, ListOk k (b k)
  beyond : ∀ k, buddyOrder < k → b k = []
  once : ∀ x, freeCount b x ≤ 1

theorem Sound.update (h : Sound b) (hk : k ≤ buddyOrder) (hl : ListOk k l)
    (hc : ∀ x, freeCount (update b k l) x ≤ 1) :
    Sound (update b k l) := by
  refine ⟨fun j => ?_, fun j hj => ?_, hc⟩
  · by_cases hjk : j = k
    · subst hjk; rwa [update_self]
    · rw [update_of_ne hjk]; exact h.list j
  · rw [update_of_ne (by omega)]; exact h.beyond j hj

theorem Sound.order_le (h : Sound b) {k a : ℕ} (ha : a ∈ b k) : k ≤ buddyOrder := by
  by_contra hk
  rw [h.beyond k (by omega)] at ha
  simp at ha

theorem mem_freeBlocks {a k : ℕ} (hk : k ≤ buddyOrder) :
    (a, k) ∈ freeBlocks b ↔ a ∈ b k := by
  rw [freeBlocks, mem_shelf, mem_range]
  exact ⟨fun h => h.2, fun h => ⟨Nat.lt_succ_of_le hk, h⟩⟩

theorem Sound.disjoint (h : Sound b) {a k c j x : ℕ} (ha : a ∈ b k) (hc : c ∈ b j)
    (hax : inBlock (a, k) x = true) (hcx : inBlock (c, j) x = true) : k = j ∧ a = c := by
  have heq := eq_of_cover_le_one h.once ((mem_freeBlocks (h.order_le ha)).mpr ha)
    ((mem_freeBlocks (h.order_le hc)).mpr hc) hax hcx
  exact ⟨(Prod.mk.inj heq).2, (Prod.mk.inj heq).1⟩

theorem listCount_le_freeCount (hk : k ≤ buddyOrder) (x : ℕ) :
    listCount k (b k) x ≤ freeCount b x := by
  have := freeCount_update (b := b) hk [] x
  simp only [listCount_nil] at this
  omega

theorem Sound.strict (h : Sound b) (k : ℕ) : (b k).Pairwise (· < ·) := by
  by_cases hk : k ≤ buddyOrder
  · have hcount : ∀ x, cover inBlock ((b k).map (·, k)) x ≤ 1 := fun x =>
      le_trans (listCount_le_freeCount hk x) (h.once x)
    have hpair := pairwise_map.mp (pairwise_of_cover_le_one hcount)
    refine ((h.list k).sorted.and hpair).imp_of_mem ?_
    rintro a c ha - ⟨hle, hdis⟩
    refine lt_of_le_of_ne hle ?_
    rintro rfl
    have hfirst := inBlock_first ((h.list k).aligned a ha)
    exact hdis _ ⟨hfirst, hfirst⟩
  · rw [h.beyond k (by omega)]; exact List.Pairwise.nil

/-! ### Splitting and allocation -/

/-- What splitting does to lists of real blocks: every page stays where it was, and the lower lists and
    those past the largest order stay as they were. -/
structure SplitSpec (order : ℕ) (b b' : Buddy) : Prop where
  list : ∀ k, ListOk k (b' k)
  count : ∀ x, freeCount b' x = freeCount b x
  lower : ∀ j, j < order → b' j = b j
  beyond : ∀ k, buddyOrder < k → b' k = b k

theorem splitBuddy_lists : ∀ (d : ℕ) (b : Buddy) (order : ℕ), order + d = buddyOrder → (∀ k, ListOk k (b k)) →
    SplitSpec order b (splitBuddy d b order)
  | 0, b, order, _, h => ⟨h, fun _ => rfl, fun _ _ => rfl, fun _ _ => rfl⟩
  | d + 1, b, order, ho, h => by
      obtain ⟨hS, hC, hL, hB⟩ := splitBuddy_lists d b (order + 1) (by omega) h
      simp only [splitBuddy]
      by_cases hne : b order ≠ []
      · rw [if_pos hne]; exact ⟨h, fun _ => rfl, fun _ _ => rfl, fun _ _ => rfl⟩
      rw [if_neg hne]
      cases hup : splitBuddy d b (order + 1) (order + 1) with
      | nil => exact ⟨hS, hC, fun j hj => hL j (by omega), hB⟩
      | cons block rest =>
        simp only
        have ho1 : order + 1 ≤ buddyOrder := by omega
        have hU := hS (order + 1)
        rw [hup] at hU
        have hblk : block ≠ 0 := fun h0 => hU.nonzero (by simp [h0])
        have hal := hU.aligned block (by simp)
        have hbd := hU.bound block (by simp)
        have hsz := blockSize_succ order
        have hpos := blockSize_pos order
        have hend : memEnd < 2 ^ 64 := by decide
        -- the two halves are real blocks
        have hadd : add64 block (blockSize order) = block + blockSize order :=
          add64_of_lt (by omega)
        have hpair : link block (link (add64 block (blockSize order)) []) =
            [block, block + blockSize order] := by
          rw [hadd, link, link, if_neg hblk, if_neg (by omega)]
        have hlow : splitBuddy d b (order + 1) order = [] := by
          rw [hL order (by omega)]; simpa using hne
        have hhalves : ListOk order [block, block + blockSize order] := by
          have hal' : blockSize order ∣ block := dvd_trans (blockSize_dvd_succ order) hal
          refine ⟨by simp; omega, ?_, ?_, by simp⟩
          · simp only [mem_cons, not_mem_nil, or_false]
            rintro a (rfl | rfl)
            · exact hal'
            · exact Dvd.dvd.add hal' (dvd_refl _)
          · simp only [mem_cons, not_mem_nil, or_false]
            rintro a (rfl | rfl) <;> omega
        rw [hpair]
        refine ⟨fun k => ?_, fun x => ?_, fun j hj => ?_, fun k hk => ?_⟩
        · by_cases hk : k = order
          · subst hk; rwa [update_self]
          rw [update_of_ne hk]
          by_cases hk1 : k = order + 1
          · subst hk1; rw [update_self]; exact hU.sublist (sublist_cons_self _ _)
          · rw [update_of_ne hk1]; exact hS k
        · have h1 := freeCount_update (b := splitBuddy d b (order + 1)) ho1 rest x
          have h2 := freeCount_update (b := update (splitBuddy d b (order + 1))
            (order + 1) rest) (k := order) (by omega) [block, block + blockSize order] x
          rw [update_of_ne (by omega), hlow] at h2
          rw [hup] at h1
          simp only [listCount_cons, listCount_nil, pageIn_split] at h1 h2
          have := hC x
          omega
        · rw [update_of_ne (by omega), update_of_ne (by omega), hL j (by omega)]
        · rw [update_of_ne (by omega), update_of_ne (by omega), hB k hk]

/-- Splitting keeps the lists sound and every page where it was, and leaves the lower lists alone. -/
theorem splitBuddy_spec (d : ℕ) (b : Buddy) (order : ℕ) (ho : order + d = buddyOrder) (h : Sound b) :
    Sound (splitBuddy d b order) ∧ (∀ x, freeCount (splitBuddy d b order) x = freeCount b x) ∧
      ∀ j, j < order → splitBuddy d b order j = b j := by
  obtain ⟨hS, hC, hL, hB⟩ := splitBuddy_lists d b order ho h.list
  refine ⟨⟨hS, fun k hk => ?_, fun x => ?_⟩, hC, hL⟩
  · rw [hB k hk]; exact h.beyond k hk
  · rw [hC]; exact h.once x

/-- An allocation hands out a free block or, with nothing to split, NULL and the lists as they are.
    The pages of the block leave the lists; no other page moves. -/
theorem alloc_spec (h : Sound b) {order : ℕ} (ho : order ≤ buddyOrder) :
    Sound (physMemBuddyAlloc b order).2 ∧
      (((physMemBuddyAlloc b order).1 = 0 ∧
          ∀ x, freeCount (physMemBuddyAlloc b order).2 x = freeCount b x) ∨
        ((physMemBuddyAlloc b order).1 ≠ 0 ∧ blockSize order ∣ (physMemBuddyAlloc b order).1 ∧
          (physMemBuddyAlloc b order).1 + blockSize order ≤ memEnd ∧
          ∀ x, freeCount (physMemBuddyAlloc b order).2 x +
            pageIn (physMemBuddyAlloc b order).1 order x = freeCount b x)) := by
  obtain ⟨hS, hC, -⟩ := splitBuddy_spec (buddyOrder - order) b order (by omega) h
  unfold physMemBuddyAlloc
  rw [if_neg (by omega)]
  simp only
  cases hsp : splitBuddy (buddyOrder - order) b order order with
  | nil => exact ⟨hS, Or.inl ⟨rfl, hC⟩⟩
  | cons block rest =>
    simp only
    have hl := hS.list order
    rw [hsp] at hl
    have hcount : ∀ x, freeCount (update (splitBuddy (buddyOrder - order) b order)
        order rest) x + pageIn block order x = freeCount b x := by
      intro x
      have h1 := freeCount_update (b := splitBuddy (buddyOrder - order) b order) ho rest x
      rw [hsp, listCount_cons] at h1
      have := hC x
      omega
    refine ⟨hS.update ho (hl.sublist (sublist_cons_self _ _)) fun x => ?_, Or.inr ⟨?_, ?_, ?_, hcount⟩⟩
    · have := hcount x; have := h.once x; omega
    · rintro rfl; exact hl.nonzero (by simp)
    · exact hl.aligned block (by simp)
    · exact hl.bound block (by simp)

end Advos.Physmem
