import Advos.Pgt.Table

/-! Entries as numbers.

    An entry is a page-aligned address plus flags below 4096, so that the bits of the flags and the
    address can be read back from the sum. -/

namespace Advos.Pgt
open Word

/-! ### Addresses and indices -/

theorem align_eq {a k : ℕ} (ha : a < 2 ^ 64) : align a k = 2 ^ k * (a / 2 ^ k) := and_not_mask ha

theorem maskPage_eq {a : ℕ} (ha : a < 2 ^ 64) : maskPage a = 4096 * (a / 4096) :=
  and_not_mask (k := 12) ha

theorem index_eq (v shift : ℕ) : index v shift = v / 2 ^ shift % 512 := by
  rw [index, Nat.shiftRight_eq_div_pow]
  exact Nat.and_two_pow_sub_one_eq_mod _ 9

theorem index_lt (v shift : ℕ) : index v shift < 512 := by
  rw [index_eq]
  exact Nat.mod_lt _ (by decide)

theorem index_align {v k shift : ℕ} (hv : v < 2 ^ 64) (hk : k ≤ shift) :
    index (align v k) shift = index v shift := by
  rw [index_eq, index_eq, align_eq hv, ← Nat.add_sub_cancel' hk, Nat.pow_add, ← Nat.div_div_eq_div_mul,
    ← Nat.div_div_eq_div_mul, Nat.mul_div_cancel_left _ (Nat.two_pow_pos k)]

theorem index_align_page (superpage : ℤ) {v : ℕ} (hv : v < 2 ^ 64) :
    index (align v (pageShift superpage)) 39 = index v 39 ∧
      index (align v (pageShift superpage)) 30 = index v 30 ∧
      index (align v (pageShift superpage)) 21 = index v 21 := by
  have hk : pageShift superpage ≤ 21 := by rw [pageShift]; split <;> decide
  exact ⟨index_align hv (hk.trans (by decide)), index_align hv (hk.trans (by decide)),
    index_align hv hk⟩

/-- An address lies on a 4 KiB page when all four indices are those of the page. -/
theorem covers_small {virtual v : ℕ} : Covers 0 virtual v ↔
    index v 39 = index virtual 39 ∧ index v 30 = index virtual 30 ∧
      index v 21 = index virtual 21 ∧ index v 12 = index virtual 12 := by
  simp only [Covers, pageShift, index_eq]
  norm_num
  omega

/-- An address lies on a 2 MiB page when the upper three indices are those of the page. -/
theorem covers_large {superpage : ℤ} {virtual v : ℕ} (hs : superpage ≠ 0) :
    Covers superpage virtual v ↔ index v 39 = index virtual 39 ∧ index v 30 = index virtual 30 ∧
      index v 21 = index virtual 21 := by
  simp only [Covers, pageShift, index_eq, if_pos hs]
  norm_num
  omega

/-! ### Address and flags -/

theorem or_flags {pa f : ℕ} (ha : pa % 4096 = 0) (hf : f < 4096) : f ||| pa = pa + f := by
  have h := Nat.two_pow_add_eq_or_of_lt (i := 12) hf (pa / 4096)
  have hpa : 2 ^ 12 * (pa / 4096) = pa := by omega
  rw [hpa] at h
  rw [Nat.or_comm, h]

theorem testBit_flags {pa f i : ℕ} (ha : pa % 4096 = 0) (hi : i < 12) :
    (pa + f).testBit i = f.testBit i := by
  have hmod : (pa + f) % 2 ^ 12 = f % 2 ^ 12 := by omega
  have h := congrArg (fun x => x.testBit i) hmod
  simp only [Nat.testBit_mod_two_pow, hi, decide_true, Bool.true_and] at h
  exact h

theorem maskPage_flags {pa f : ℕ} (ha : pa % 4096 = 0) (hf : f < 4096) (hpa : pa < 2 ^ 52) :
    maskPage (pa + f) = pa := by
  rw [maskPage_eq (by omega)]
  omega

theorem frameOf_word {pa f k : ℕ} (hk : 12 ≤ k) (hk' : k ≤ 52) (ha : pa % 2 ^ k = 0) (hf : f < 4096) :
    frameOf (pa + f) k = pa % 2 ^ 52 := by
  obtain ⟨q, rfl⟩ := Nat.dvd_of_mod_eq_zero ha
  have hlt : f < 2 ^ k := lt_of_lt_of_le hf (Nat.pow_le_pow_right (n := 2) (by decide) hk)
  have hsplit : 2 ^ 52 = 2 ^ (52 - k) * 2 ^ k := by rw [← Nat.pow_add, Nat.sub_add_cancel hk']
  rw [frameOf, Nat.mul_add_div (Nat.two_pow_pos k), Nat.div_eq_of_lt hlt, Nat.add_zero, hsplit, Nat.mul_comm (2 ^ k),
    Nat.mul_mod_mul_right]

theorem frameOf_flags {pa f k : ℕ} (hk : 12 ≤ k) (hk' : k ≤ 52) (ha : pa % 2 ^ k = 0) (hf : f < 4096)
    (hpa : pa < 2 ^ 52) : frameOf (pa + f) k = pa := by
  rw [frameOf_word hk hk' ha hf, Nat.mod_eq_of_lt hpa]

/-- The flags of a leaf. -/
def leafFlags (large global rw user : Bool) : ℕ :=
  1 + 2 * rw.toNat + 4 * user.toNat + 128 * large.toNat + 256 * global.toNat

theorem leafFlags_lt (large global rw user : Bool) : leafFlags large global rw user < 4096 := by
  cases large <;> cases global <;> cases rw <;> cases user <;> decide

theorem leafFlags_bits (large global rw user : Bool) :
    (leafFlags large global rw user).testBit 0 = true ∧
      (leafFlags large global rw user).testBit 1 = rw ∧
      (leafFlags large global rw user).testBit 2 = user ∧
      (leafFlags large global rw user).testBit 7 = large := by
  cases large <;> cases global <;> cases rw <;> cases user <;> decide

theorem pointTo_zero {pa : ℕ} (ha : pa % 4096 = 0) : pointTo 0 pa = pa + 7 := or_flags ha (by decide)

theorem mapLarge_zero {pa : ℕ} (ha : pa % 4096 = 0) (global rw user : ℤ) :
    mapLarge 0 pa global rw user = pa + leafFlags true (bitOf global) (bitOf rw) (bitOf user) := by
  rw [← or_flags ha (leafFlags_lt ..)]
  simp only [mapLarge]
  congr 1
  cases bitOf global <;> cases bitOf rw <;> cases bitOf user <;> decide

theorem mapSmall_zero {pa : ℕ} (ha : pa % 4096 = 0) (global rw user : ℤ) :
    mapSmall 0 pa global rw user = pa + leafFlags false (bitOf global) (bitOf rw) (bitOf user) := by
  rw [← or_flags ha (leafFlags_lt ..)]
  simp only [mapSmall]
  congr 1
  cases bitOf global <;> cases bitOf rw <;> cases bitOf user <;> decide

/-! ### The pages of the buffer -/

namespace Buffer

variable (b : Buffer)

/-- Where the kernel reaches page `a` of the buffer. -/
def page (a : ℕ) : ℕ := b.base + 4096 * a

/-- Its physical address. -/
def physPage (a : ℕ) : ℕ := sub64 b.base b.p2v + 4096 * a

/-- An entry that points to page `a` as a table. -/
def tableEntry (a : ℕ) : ℕ := b.physPage a + 7

variable {b} {a c i j : ℕ}

theorem physPage_lt (ha : a < b.nr) : b.physPage a < 2 ^ 52 := by
  have := b.below
  simp only [physPage]
  omega

theorem physPage_aligned : b.physPage a % 4096 = 0 := by
  have := b.aligned
  simp only [physPage]
  omega

theorem base_lt : b.base < 2 ^ 64 := by
  have := b.fits
  have := b.nr_pos
  omega

theorem sub64_page (ha : a < b.nr) : sub64 (b.page a) b.p2v = b.physPage a := by
  have h1 := b.fits
  have h2 := b.offset
  have h3 := b.below
  simp only [page, physPage, sub64] at h3 ⊢
  omega

theorem add64_physPage (ha : a < b.nr) : add64 (b.physPage a) b.p2v = b.page a := by
  have h1 := b.fits
  have h2 := b.offset
  simp only [page, physPage, sub64, add64]
  omega

theorem page_ne_zero (ha : 1 ≤ a) : b.page a ≠ 0 := by
  simp only [page]
  omega

theorem page_inj (h : b.page a = b.page c) : a = c := by
  simp only [page] at h
  omega

theorem slot_inj (hi : i < 512) (hj : j < 512) (h : slot (b.page a) i = slot (b.page c) j) :
    a = c ∧ i = j := by
  simp only [slot, page] at h
  omega

theorem tableEntry_present : present (b.tableEntry a) = true :=
  testBit_flags physPage_aligned (by decide)

theorem tableEntry_page : pageBit (b.tableEntry a) = false :=
  testBit_flags physPage_aligned (by decide)

theorem tableEntry_rw : rwBit (b.tableEntry a) = true :=
  testBit_flags physPage_aligned (by decide)

theorem tableEntry_us : usBit (b.tableEntry a) = true :=
  testBit_flags physPage_aligned (by decide)

theorem maskPage_tableEntry (ha : a < b.nr) : maskPage (b.tableEntry a) = b.physPage a :=
  maskPage_flags physPage_aligned (by decide) (physPage_lt ha)

theorem frameOf_tableEntry (ha : a < b.nr) : frameOf (b.tableEntry a) 12 = b.physPage a :=
  frameOf_flags (by decide) (by decide) physPage_aligned (by decide) (physPage_lt ha)

end Buffer

end Advos.Pgt
