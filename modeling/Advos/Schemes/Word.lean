import Mathlib

/-! 64-bit words as naturals below `2 ^ 64`.

    Sums and differences wrap, complements are taken in 64 bits, and a conversion to `int` keeps the
    low 32 bits in two's complement. The masks of the kernel are all of the form `2 ^ k - 1`, so
    AND-ing with one, or with its complement, is a remainder or a rounding down. -/

namespace Advos.Word

def add64 (a b : ℕ) : ℕ := (a + b) % 2 ^ 64

def sub64 (a b : ℕ) : ℕ := (a + (2 ^ 64 - b)) % 2 ^ 64

def mul64 (a b : ℕ) : ℕ := (a * b) % 2 ^ 64

/-- `~m` on 64 bits. -/
def not64 (m : ℕ) : ℕ := 2 ^ 64 - 1 - m

/-- The `int` a wider unsigned value is converted to. -/
def toInt32 (x : ℕ) : ℤ := Int.bmod x (2 ^ 32)

/-- The value of a byte as a `char`, which is signed. -/
def toInt8 (x : UInt8) : ℤ := Int.bmod x.toNat (2 ^ 8)

/-- Signed 32- and 64-bit arithmetic in two's complement. -/
def wrap32 (x : ℤ) : ℤ := Int.bmod x (2 ^ 32)

def wrap64 (x : ℤ) : ℤ := Int.bmod x (2 ^ 64)

/-- A signed value as an unsigned 64-bit word. -/
def toWord64 (x : ℤ) : ℕ := (x % 2 ^ 64).toNat

variable {a b : ℕ}

theorem add64_of_lt (h : a + b < 2 ^ 64) : add64 a b = a + b := Nat.mod_eq_of_lt h

theorem mul64_of_lt (h : a * b < 2 ^ 64) : mul64 a b = a * b := Nat.mod_eq_of_lt h

theorem sub64_of_le (h : b ≤ a) (ha : a < 2 ^ 64) : sub64 a b = a - b := by
  unfold sub64; omega

theorem sub64_of_lt (h : a < b) (hb : b < 2 ^ 64) : sub64 a b = 2 ^ 64 - (b - a) := by
  unfold sub64; omega

theorem add64_lt (a b : ℕ) : add64 a b < 2 ^ 64 := Nat.mod_lt _ (by decide)

theorem sub64_lt (a b : ℕ) : sub64 a b < 2 ^ 64 := Nat.mod_lt _ (by decide)

theorem mul64_lt (a b : ℕ) : mul64 a b < 2 ^ 64 := Nat.mod_lt _ (by decide)

/-- Clearing the low `k` bits rounds down to a multiple of `2 ^ k`. -/
theorem and_not_mask {x k : ℕ} (hx : x < 2 ^ 64) :
    x &&& not64 (2 ^ k - 1) = 2 ^ k * (x / 2 ^ k) := by
  by_cases hk : k ≤ 64
  · have hm : 2 ^ k - 1 < 2 ^ 64 :=
      lt_of_lt_of_le (Nat.sub_lt (Nat.two_pow_pos k) Nat.one_pos) (Nat.pow_le_pow_right (by decide) hk)
    have hnot : not64 (2 ^ k - 1) = 2 ^ 64 - (2 ^ k - 1 + 1) := by unfold not64; omega
    refine Nat.eq_of_testBit_eq fun i => ?_
    rw [Nat.testBit_and, hnot, Nat.testBit_two_pow_sub_succ hm, Nat.testBit_two_pow_sub_one,
      Nat.testBit_two_pow_mul, Nat.testBit_div_two_pow]
    by_cases hik : k ≤ i
    · rw [Nat.sub_add_cancel hik]
      by_cases hi : i < 64
      · simp [hik, hi, Nat.not_lt.mpr hik]
      · have hxi : x < 2 ^ i :=
          lt_of_lt_of_le hx (Nat.pow_le_pow_right (by decide) (Nat.le_of_not_lt hi))
        simp [Nat.testBit_lt_two_pow hxi]
    · simp [hik, Nat.lt_of_not_le hik]
  · -- the mask is all ones
    have h64 : 2 ^ 64 ≤ 2 ^ k := Nat.pow_le_pow_right (by decide) (by omega)
    have hnot : not64 (2 ^ k - 1) = 0 := by unfold not64; omega
    rw [hnot, Nat.and_zero, Nat.div_eq_of_lt (lt_of_lt_of_le hx h64), Nat.mul_zero]

/-! ### Signed words -/

section Signed
variable {x : ℤ}

theorem wrap32_of_range (h0 : -2 ^ 31 ≤ x) (h1 : x < 2 ^ 31) : wrap32 x = x := Int.bmod_eq_of_le (by omega) (by omega)

theorem wrap64_of_range (h0 : -2 ^ 63 ≤ x) (h1 : x < 2 ^ 63) : wrap64 x = x := Int.bmod_eq_of_le (by omega) (by omega)

theorem wrap32_of_ge (h0 : 2 ^ 31 ≤ x) (h1 : x < 2 ^ 32) : wrap32 x = x - 2 ^ 32 := by
  have hmod : x % (2 ^ 32 : ℕ) = x := Int.emod_eq_of_lt (by omega) (by omega)
  rw [wrap32, Int.bmod_def, hmod, if_neg (by omega)]
  rfl

theorem wrap64_of_ge (h0 : 2 ^ 63 ≤ x) (h1 : x < 2 ^ 64) : wrap64 x = x - 2 ^ 64 := by
  have hmod : x % (2 ^ 64 : ℕ) = x := Int.emod_eq_of_lt (by omega) (by omega)
  rw [wrap64, Int.bmod_def, hmod, if_neg (by omega)]
  rfl

end Signed

theorem toInt32_of_lt {x : ℕ} (h : x < 2 ^ 31) : toInt32 x = x := wrap32_of_range (by omega) (by omega)

theorem toWord64_of_nonneg {x : ℤ} (h0 : 0 ≤ x) (h : x < 2 ^ 64) : toWord64 x = x.toNat := by
  rw [toWord64, Int.emod_eq_of_lt h0 h]

theorem toInt32_le (x : ℕ) : toInt32 x ≤ x := by
  by_cases hx : x < 2 ^ 31
  · rw [toInt32_of_lt hx]
  · have hlt : toInt32 x < (2 ^ 32 + 1) / 2 := Int.bmod_lt (by decide)
    omega

end Advos.Word
