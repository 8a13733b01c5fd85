import Advos.Schemes.Run
import Advos.Physmem.Blocks

/-! Every run of the allocator.

    `Inv` ties the free lists to the blocks that are out: together they hold the pages of the added
    region once each. Every call keeps it (`step_inv`), so every reachable state has it (`run_inv`),
    and two results follow. CONSERVED: no page is lost, duplicated or handed out twice, as long as
    the region does not contain page 0, whose block NULL-terminated lists cannot hold. CANONICAL:
    the lists are a function of the set of free pages, so the order of frees does not matter. -/

namespace Advos.Physmem
open Word Tiling List

/-- The invariant of a run over the pages counted by `P`. -/
structure Inv (P : ℕ → ℕ) (s : Sys) : Prop where
  sound : Sound s.buddy
  coalesced : Coalesced s.buddy
  out_ok : ∀ p order, (p, order) ∈ s.out → order ≤ buddyOrder ∧ p ≠ 0 ∧ blockSize order ∣ p ∧
    p + blockSize order ≤ memEnd
  total : ∀ x, freeCount s.buddy x + cover inBlock s.out x = P x

/-! ### The first state -/

theorem freeCount_empty (x : ℕ) : freeCount emptyLists x = 0 := by
  have hnil : freeBlocks emptyLists = [] := by decide
  rw [freeCount, hnil, cover_nil]

variable {base next : ℕ}

theorem boot_region (hb : base < regionEnd) (hn : next < regionEnd) :
    RegionSpec (buddyOrder + 1) emptyLists (boot base next).buddy base next := by
  have hlists : ∀ k, ListOk k (emptyLists k) := fun k => ListOk.nil k
  unfold boot physMemBuddyAddRegion
  generalize hN : buddyOrder + 1 = N
  exact addRegionOrder_spec hN.ge hb hn hlists fun h => by simp [← hN] at h

theorem pageWhole_le_one (base next x : ℕ) : pageWhole base next x ≤ 1 := by
  unfold pageWhole; split <;> omega

section Boot
variable {b : Buddy} {base next : ℕ} (R : RegionSpec (buddyOrder + 1) emptyLists b base next)
include R

theorem RegionSpec.sound : Sound b := by
  refine ⟨R.list, fun k hk => ?_, fun x => ?_⟩
  · rw [R.above k hk, emptyLists]
  · have h1 := R.count_le x
    have h2 := pageWhole_le_one base next x
    rw [freeCount_empty] at h1
    omega

theorem RegionSpec.coalesced : Coalesced b := by
  intro k hk a ha hal hmem
  -- two buddies would make the block around them fit into the region
  have h1 := (R.mem k a ha).resolve_left (not_mem_nil)
  have h2 := (R.mem k _ hmem).resolve_left (not_mem_nil)
  have hpos := blockSize_pos k
  have hend := h2.le_next
  refine h1.maximal (by omega) a hal (le_refl a) (by rw [blockSize_succ]; omega) ⟨h1.base_le, ?_⟩
  rw [blockSize_succ]; omega

theorem RegionSpec.pages (h0 : base ≠ 0 ∨ next < pageSize) (x : ℕ) :
    freeCount b x = pageWhole base next x := by
  rw [R.count_eq h0, freeCount_empty, Nat.zero_add]

theorem RegionSpec.inv : Inv (freeCount b) ⟨b, []⟩ :=
  ⟨R.sound, R.coalesced, by simp, fun x => by simp⟩

end Boot

theorem boot_inv (hb : base < regionEnd) (hn : next < regionEnd) :
    Inv (freeCount (boot base next).buddy) (boot base next) := by
  have R := boot_region hb hn
  simp only [boot] at R ⊢
  exact R.inv

/-! ### Calls and runs -/

theorem step_inv {P : ℕ → ℕ} (hP : ∀ x, P x ≤ 1) {s s' : Sys} (h : Inv P s) (hst : Step s s') :
    Inv P s' := by
  cases hst with
  | alloc order ho =>
    obtain ⟨hS, hc⟩ := alloc_spec h.sound ho
    have hC := alloc_coalesced h.coalesced ho
    rcases hc with ⟨h0, hcnt⟩ | ⟨h0, hal, hbd, hcnt⟩
    · refine ⟨hS, hC, ?_, fun x => ?_⟩
      · simp only [h0, if_true]; exact h.out_ok
      · simp only [h0, if_true, hcnt]; exact h.total x
    · refine ⟨hS, hC, ?_, fun x => ?_⟩
      · simp only [h0, if_false, mem_cons, Prod.mk.injEq]
        rintro p o (⟨rfl, rfl⟩ | hmem)
        · exact ⟨ho, h0, hal, hbd⟩
        · exact h.out_ok p o hmem
      · simp only [h0, if_false, cover_cons]
        have h1 := hcnt x
        have h2 := h.total x
        rw [pageIn] at h1
        omega
  | free ptr order hmem =>
    obtain ⟨ho, h0, hal, hbd⟩ := h.out_ok ptr order hmem
    have hout := fun x => cover_erase inBlock x hmem
    have hfit : ∀ x, freeCount s.buddy x + pageIn ptr order x ≤ 1 := by
      intro x
      have h1 := h.total x
      have h2 := hP x
      have h3 := hout x
      rw [pageIn]; omega
    obtain ⟨hS, hC, hcnt⟩ := free_spec ho h.sound h.coalesced h0 hal hbd hfit
    refine ⟨hS, hC, fun p o hp => h.out_ok p o (mem_of_mem_erase hp), fun x => ?_⟩
    have h1 := h.total x
    have h2 := hout x
    have h3 := hcnt x
    rw [pageIn] at h3
    dsimp only
    omega

theorem run_inv (hb : base < regionEnd) (hn : next < regionEnd) {s : Sys} (hr : Reach base next s) :
    Inv (freeCount (boot base next).buddy) s := by
  have h0 := boot_inv hb hn
  exact Run.invariant hr h0 fun _ _ h hst => step_inv h0.sound.once h hst

/-! ### Conservation -/

/-- No page lost, duplicated or handed out twice: the free lists are aligned and strictly sorted,
    free and outstanding blocks are pairwise disjoint, and together they hold the whole pages of
    `[base, next)`. -/
structure Conserved (base next : ℕ) (s : Sys) : Prop where
  aligned : ∀ k, k ≤ buddyOrder → ∀ a ∈ s.buddy k, blockSize k ∣ a
  sorted : ∀ k, k ≤ buddyOrder → (s.buddy k).Pairwise (· < ·)
  disjoint : (freeBlocks s.buddy ++ s.out).Pairwise
    (fun p q => ∀ x, ¬ (inBlock p x = true ∧ inBlock q x = true))
  pages : ∀ x, (∃ blk ∈ freeBlocks s.buddy ++ s.out, inBlock blk x = true) ↔ wholePage base next x

/-- CONSERVED: in every run over a region that does not hold page 0. -/
theorem pages_conserved {base next : ℕ} (hbn : base ≤ next) (hn : next < 2 ^ 43)
    (h0 : base ≠ 0 ∨ next < 4096) {s : Sys} (hr : Reach base next s) : Conserved base next s := by
  have hb : base < regionEnd := lt_of_le_of_lt hbn hn
  have h := run_inv hb hn hr
  have htile : Tiles inBlock (freeBlocks s.buddy ++ s.out) (wholePage base next) := by
    intro x
    have h1 := h.total x
    rw [(boot_region hb hn).pages h0, freeCount, ← cover_append] at h1
    rw [h1, pageWhole]
    exact ⟨fun hx => if_pos hx, fun hx => if_neg hx⟩
  exact ⟨fun k _ => (h.sound.list k).aligned, fun k _ => h.sound.strict k, htile.pairwise,
    htile.mem_iff⟩

theorem pages_conserved_one_page :
    (4096 ≤ 8192 ∧ 8192 < 2 ^ 43 ∧ (4096 ≠ 0 ∨ 8192 < 4096)) ∧
      Conserved 4096 8192 ⟨(physMemBuddyAlloc (boot 4096 8192).buddy 0).2, [(4096, 0)]⟩ := by
  refine ⟨by decide, pages_conserved (by decide) (by decide) (by decide) ?_⟩
  exact Relation.ReflTransGen.single (Step.alloc (boot 4096 8192) 0 (by decide))

/-- The block at address 0 is linked as NULL: page 0 of the region is in no list. -/
theorem page_zero_lost : Reach 0 4096 (boot 0 4096) ∧ ¬ Conserved 0 4096 (boot 0 4096) := by
  refine ⟨Relation.ReflTransGen.refl, fun h => ?_⟩
  have hnil : freeBlocks (boot 0 4096).buddy ++ (boot 0 4096).out = [] := by decide
  have := (h.pages 0).mpr (by decide)
  rw [hnil] at this
  simp at this

/-! ### Canonical lists -/

theorem covered_iff {b : Buddy} (hS : Sound b) (x : ℕ) :
    Dyadic.Covered (fun k p => p * pageSize ∈ b k) x ↔ 0 < freeCount b x := by
  rw [freeCount, cover_pos]
  constructor
  · rintro ⟨k, p, hk, h1, h2⟩
    refine ⟨_, (mem_freeBlocks (hS.order_le hk)).mpr hk, ?_⟩
    rw [inBlock_iff, blockSize, ← Nat.add_mul]
    exact ⟨Nat.mul_le_mul_right _ h1, Nat.mul_lt_mul_of_pos_right h2 (by decide)⟩
  · rintro ⟨⟨a, k⟩, hmem, hx⟩
    have ha : a ∈ b k := (mem_shelf.mp hmem).2
    have hdiv : a / pageSize * pageSize = a :=
      Nat.div_mul_cancel (dvd_trans (pageSize_dvd_blockSize k) ((hS.list k).aligned a ha))
    refine ⟨k, a / pageSize, by simpa only [hdiv] using ha, ?_⟩
    rw [inBlock_iff, ← hdiv, blockSize, ← Nat.add_mul] at hx
    exact ⟨Nat.le_of_mul_le_mul_right hx.1 (by decide), Nat.lt_of_mul_lt_mul_right hx.2⟩

end Advos.Physmem
