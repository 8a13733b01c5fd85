import Advos.Pgt.Arch

/-! A page of any order is mapped as a whole.

    `arch_memory_map` breaks a page of `2 ^ order` frames into leaves. Once all of them are in the page
    tables they are one line from virtual to physical addresses:

        virtual    |--- y - virtual --->y            |
        physical   |--- y - virtual --->y'           |
                   `physical`                        `physical + 4096 * 2 ^ order`        -/

namespace Advos.Pgt
open Word Layers List

variable {b : Buffer} {t : PageTable} {virtual physical order pgf flags : ℕ}

theorem pagesizeOf_mul_countOf (k : ℕ) : pagesizeOf k * countOf k = 4096 * 2 ^ k := by
  rw [pagesizeOf, countOf]
  split
  · next h =>
    obtain ⟨j, rfl⟩ := Nat.exists_eq_add_of_le h
    rw [Nat.add_sub_cancel_left, Nat.pow_add]
    omega
  · rfl

theorem two_pow_pageShift (k : ℕ) : 2 ^ pageShift (superpageOf k) = pagesizeOf k := by
  rw [superpageOf, pagesizeOf]
  split <;> rfl

theorem pagesizeOf_pos (k : ℕ) : 0 < pagesizeOf k := by
  rw [pagesizeOf]
  split <;> decide

theorem pagesizeOf_dvd {k a : ℕ} (h : 4096 * 2 ^ k ∣ a) : pagesizeOf k ∣ a :=
  (Dvd.intro _ (pagesizeOf_mul_countOf k)).trans h

theorem superpageOf_of_zero {k : ℕ} (h : superpageOf k = 0) : pagesizeOf k = 4096 := by
  rw [superpageOf] at h
  rw [pagesizeOf]
  split at h
  · cases h
  · next hk => rw [if_neg hk]

/-! ### The leaf of an address -/

/-- A leaf is the addresses of one page size, up to the bits that a walk does not read. -/
theorem leafAt_has {i y : ℕ} (hlt : virtual + pagesizeOf order * i < 2 ^ 64) :
    (leafAt virtual physical order pgf flags i).Has y ↔
      y % 2 ^ 48 / pagesizeOf order = (virtual + pagesizeOf order * i) % 2 ^ 48 / pagesizeOf order := by
  change Covers (superpageOf order) (add64 virtual (pagesizeOf order * i)) y ↔ _
  rw [Covers, two_pow_pageShift, add64_of_lt hlt]

/-- The address `z` of a page is on one of its leaves, which keeps its distance to the start. -/
theorem leaf_of_offset {y z : ℕ} (hv : pagesizeOf order ∣ virtual) (hp : pagesizeOf order ∣ physical)
    (hvlt : virtual + 4096 * 2 ^ order ≤ 2 ^ 64) (hplt : physical + 4096 * 2 ^ order ≤ 2 ^ 52) (hlo : virtual ≤ z)
    (hhi : z < virtual + 4096 * 2 ^ order) (hyz : y % 2 ^ 48 = z % 2 ^ 48) :
    ∃ r ∈ leaves virtual physical order pgf flags, r.Has y ∧ r.xlat.frame + y % r.xlat.size = physical + (z - virtual) ∧
      r.xlat.rw = rwOf pgf flags ∧ r.xlat.us = flags.testBit 3 := by
  have hpos := pagesizeOf_pos order
  obtain ⟨o, rfl⟩ := Nat.exists_eq_add_of_le hlo
  rw [Nat.add_sub_cancel_left]
  obtain ⟨i, hi⟩ : ∃ i, o / pagesizeOf order = i := ⟨_, rfl⟩
  have hcount : i < countOf order := by
    rw [← hi, Nat.div_lt_iff_lt_mul hpos, Nat.mul_comm (countOf order), pagesizeOf_mul_countOf]
    omega
  have hsplit := Nat.div_add_mod o (pagesizeOf order)
  have hmod := Nat.mod_lt o hpos
  rw [hi] at hsplit
  have hframe : add64 physical (pagesizeOf order * i) = physical + pagesizeOf order * i := add64_of_lt (by omega)
  refine ⟨leafAt virtual physical order pgf flags i, mem_map_of_mem (mem_range.mpr hcount), ?_, ?_, rfl, rfl⟩
  · rw [leafAt_has (by omega), hyz]
    rw [pagesizeOf] at hv hsplit hmod ⊢
    split at hv <;> simp only [*, if_true, if_false] at hsplit hmod ⊢ <;> omega
  · have halign : align (add64 physical (pagesizeOf order * i)) (pageShift (superpageOf order)) =
        physical + pagesizeOf order * i := by
      rw [align_eq (add64_lt ..), two_pow_pageShift, hframe]
      exact Nat.mul_div_cancel' (Dvd.dvd.add hp (Dvd.intro _ rfl))
    have hoff : y % pagesizeOf order = o % pagesizeOf order := by
      have h48 : pagesizeOf order ∣ 2 ^ 48 := by
        rw [pagesizeOf]
        split <;> decide
      obtain ⟨q, rfl⟩ := hv
      rw [← Nat.mod_mod_of_dvd y h48, hyz, Nat.mod_mod_of_dvd _ h48, Nat.mul_add_mod]
    simp only [leafAt, halign, two_pow_pageShift, hoff]
    rw [Nat.mod_eq_of_lt (by omega)]
    omega

theorem not_has_outside {y : ℕ} (hv : pagesizeOf order ∣ virtual) (hvlt : virtual + 4096 * 2 ^ order ≤ 2 ^ 48)
    (hy : ¬(virtual ≤ y % 2 ^ 48 ∧ y % 2 ^ 48 < virtual + 4096 * 2 ^ order)) :
    ∀ r ∈ leaves virtual physical order pgf flags, ¬r.Has y := by
  intro r hr hhas
  obtain ⟨i, hi, rfl⟩ := mem_map.mp hr
  have hlast : pagesizeOf order * (i + 1) ≤ 4096 * 2 ^ order := by
    rw [← pagesizeOf_mul_countOf]
    exact Nat.mul_le_mul_left _ (mem_range.mp hi)
  rw [Nat.mul_add, Nat.mul_one] at hlast
  have hpos := pagesizeOf_pos order
  rw [leafAt_has (by omega), Nat.mod_eq_of_lt (a := virtual + pagesizeOf order * i) (by omega)] at hhas
  obtain ⟨q, rfl⟩ := hv
  rw [← Nat.mul_add, Nat.mul_div_cancel_left _ hpos] at hhas
  have hdiv := Nat.div_add_mod (y % 2 ^ 48) (pagesizeOf order)
  have hmod := Nat.mod_lt (y % 2 ^ 48) hpos
  rw [hhas, Nat.mul_add] at hdiv
  omega

/-! ### All or nothing -/

/-- The 4 KiB leaves of a page are clear if no address of it is in a 2 MiB mapping. -/
theorem spots_clear (hvlt : virtual + 4096 * 2 ^ order ≤ 2 ^ 48)
    (hlarge : order < 9 → ∀ i < 2 ^ order, ¬InLarge t (virtual + 4096 * i)) : Clear (spots virtual order) (walk t) := by
  constructor
  · intro r hr hs x hx hsize
    obtain ⟨i, hi, rfl⟩ := mem_map.mp hr
    have hsmall := superpageOf_of_zero hs
    have hbytes := pagesizeOf_mul_countOf order
    rw [hsmall] at hbytes
    have hcount : countOf order = 2 ^ order := Nat.eq_of_mul_eq_mul_left (by decide) hbytes
    rw [mem_range, hcount] at hi
    rw [hsmall, add64_of_lt (by omega)] at hx
    refine hlarge ?_ i hi ⟨x, hx, hsize⟩
    by_contra h9
    dsimp only at hs
    rw [superpageOf, if_pos (not_lt.mp h9)] at hs
    cases hs
  · refine List.Pairwise.map _ (fun _ _ h => h) (pairwise_of_forall fun i j hs _ => ?_)
    exact hs

variable (virtual physical order pgf flags) in
/-- A page is mapped with all its frames and the permissions of its flags, or the call returns -1 and every
    address is translated as before. -/
theorem arch_memory_map_all_or_nothing (h : Reach b t) (hv : 4096 * 2 ^ order ∣ virtual) (hp : 4096 * 2 ^ order ∣ physical)
    (hvlt : virtual + 4096 * 2 ^ order ≤ 2 ^ 48) (hplt : physical + 4096 * 2 ^ order ≤ 2 ^ 52)
    (hlarge : order < 9 → ∀ i < 2 ^ order, ¬InLarge t (virtual + 4096 * i)) :
    (archMemoryMap t virtual physical order pgf flags).1 = 0 ∧
      (∀ y, virtual ≤ y % 2 ^ 48 ∧ y % 2 ^ 48 < virtual + 4096 * 2 ^ order →
        ∃ x, walk (archMemoryMap t virtual physical order pgf flags).2 y = some x ∧
          x.frame + y % x.size = physical + (y % 2 ^ 48 - virtual) ∧ x.rw = rwOf pgf flags ∧ x.us = flags.testBit 3) ∧
      (∀ y, ¬(virtual ≤ y % 2 ^ 48 ∧ y % 2 ^ 48 < virtual + 4096 * 2 ^ order) →
        walk (archMemoryMap t virtual physical order pgf flags).2 y = walk t y) ∨
    (archMemoryMap t virtual physical order pgf flags).1 = -1 ∧
      ∀ y, walk (archMemoryMap t virtual physical order pgf flags).2 y = walk t y := by
  rcases (h.formed.archMap physical pgf flags (spots_clear hvlt hlarge)).2 with ⟨h0, hlays⟩ | hnone
  swap
  · exact .inr hnone
  refine .inl ⟨h0, fun y hy => ?_, fun y hy => hlays.same y (not_has_outside (pagesizeOf_dvd hv) hvlt hy)⟩
  obtain ⟨r, hr, hhas, hframe, hperm⟩ := leaf_of_offset (pagesizeOf_dvd hv) (pagesizeOf_dvd hp) (by omega) hplt hy.1 hy.2
    (Nat.mod_mod y _).symm
  exact ⟨r.xlat, hlays.value r hr y hhas, hframe, hperm⟩

/-- Two leaves over a mapping at the second one: the first is taken away again. -/
theorem arch_memory_map_all_or_nothing_second_leaf : ∃ t, Reach fourPages t ∧ InLarge t 0x40200000 ∧
    (archMemoryMap t 0x40000000 0x800000 10 2 8).1 = -1 ∧
    ∀ y, walk (archMemoryMap t 0x40000000 0x800000 10 2 8).2 y = walk t y := by
  obtain ⟨t0, h0⟩ : ∃ t0, pgtInit (fun _ => 0) fourPages.base fourPages.nr fourPages.p2v = some t0 := ⟨_, rfl⟩
  have hreach : Reach fourPages (pgtMap t0 0x40200000 0x600000 1 0 1 0).2 :=
    ⟨_, t0, h0, .single ⟨.map 0x40200000 0x600000 1 0 1 0, ⟨by decide, by decide, nofun⟩, rfl⟩⟩
  have hret : (archMemoryMap (pgtMap t0 0x40200000 0x600000 1 0 1 0).2 0x40000000 0x800000 10 2 8).1 = -1 := by
    cases h0
    decide +kernel
  have hin : InLarge (pgtMap t0 0x40200000 0x600000 1 0 1 0).2 0x40200000 := by
    cases h0
    exact ⟨⟨0x600000, 0x200000, true, false⟩, by decide +kernel, rfl⟩
  rcases arch_memory_map_all_or_nothing 0x40000000 0x800000 10 2 8 hreach (by decide) (by decide) (by decide) (by decide)
    (fun h => absurd h (by decide)) with ⟨h1, -⟩ | hsame
  · rw [hret] at h1
    cases h1
  · exact ⟨_, hreach, hin, hsame⟩

end Advos.Pgt
