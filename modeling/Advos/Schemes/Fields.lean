import Mathlib.Data.Nat.Basic
import Mathlib.Data.Nat.Bitwise
import Mathlib.Algebra.Order.Ring.Nat
import Mathlib.Tactic.Common

/-! Numbers made of bit fields.

    `pack` stacks fields, each a width and a value, from the lowest bits up; `bits` reads a run of bits.
    Where the run is a field's own, the field is read back:

        pack [(w₀, v₀), (w₁, v₁), (w₂, v₂)]       … v₂ │ v₁ │ v₀
        bits _ (w₀ + w₁) w₂                       = v₂ -/

namespace Advos.Fields

/-- The `n` bits of a number from bit `k` on. -/
def bits (x k n : ℕ) : ℕ := x / 2 ^ k % 2 ^ n

/-- The number made of the fields, the first one lowest. -/
def pack : List (ℕ × ℕ) → ℕ
  | [] => 0
  | (w, v) :: fs => v + 2 ^ w * pack fs

variable {w v k n : ℕ} {fs : List (ℕ × ℕ)}

theorem bits_pack_head (hv : v < 2 ^ w) : bits (pack ((w, v) :: fs)) 0 w = v := by
  rw [bits, pack, pow_zero, Nat.div_one, Nat.add_mul_mod_self_left, Nat.mod_eq_of_lt hv]

theorem bits_pack_tail (hv : v < 2 ^ w) (hk : w ≤ k) : bits (pack ((w, v) :: fs)) k n = bits (pack fs) (k - w) n := by
  obtain ⟨j, rfl⟩ := Nat.exists_eq_add_of_le hk
  rw [bits, bits, pack, Nat.add_sub_cancel_left, pow_add, ← Nat.div_div_eq_div_mul,
    Nat.add_mul_div_left _ _ (Nat.two_pow_pos w), Nat.div_eq_of_lt hv, Nat.zero_add]

theorem lor_shiftLeft {x : ℕ} (h : x < 2 ^ k) (y : ℕ) : x ||| y <<< k = x + 2 ^ k * y := by
  rw [Nat.lor_comm, ← Nat.shiftLeft_add_eq_or_of_lt h, Nat.shiftLeft_eq, Nat.mul_comm, Nat.add_comm]

end Advos.Fields
