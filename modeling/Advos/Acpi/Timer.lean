import Mathlib.Order.Monotone.Basic
import Advos.Schemes.Word

/-! Waiting on the power management timer (`acpi.c`: `acpi_get_timer`, `acpi_get_timer_period`,
    `acpi_busy_usleep`).

    The timer counts at 3.579545 MHz in a register of 24 or 32 bits. The wait adds up the distances
    between readings, each taken the short way round:

        T      0        T₁       P  T₂        2P
               |--------|--------|--|---------|
        read            r₁          r₂ < r₁          P + r₂ - r₁ = T₂ - T₁

    As long as less than a period passes between two readings, the sum is the true distance. -/

namespace Advos.Acpi
open Word

/-- The fields of `acpi_t` that describe the timer. -/
structure PmTimer where
  pmTmrPort : ℕ
  pmTmrExt : ℕ

/-- `ACPI_TMR_HZ`. -/
def acpiTmrHz : ℕ := 3579545

/-- `acpi_get_timer`: the `i`-th reading of the timer's port, of those that each port gives. -/
def acpiGetTimer (acpi : PmTimer) (in32 : ℕ → ℕ → ℕ) (i : ℕ) : ℕ := in32 acpi.pmTmrPort i

/-- `acpi_get_timer_period`. -/
def acpiGetTimerPeriod (acpi : PmTimer) : ℕ := if acpi.pmTmrExt ≠ 0 then 1 <<< 32 else 1 <<< 24

/-- The local variables of `acpi_busy_usleep` at the head of its loop. -/
structure Waiting where
  acc : ℕ
  prev : ℕ
deriving DecidableEq

/-- `clk`. -/
def usecToCount (usec : ℕ) : ℕ := mul64 acpiTmrHz usec / 1000000

/-- The body of the loop, with its reading of the timer. -/
def Waiting.next (acpi : PmTimer) (w : Waiting) (cur : ℕ) : Waiting :=
  { acc :=
      if cur < w.prev then add64 w.acc (sub64 (add64 (acpiGetTimerPeriod acpi) cur) w.prev)
      else add64 w.acc (sub64 cur w.prev)
    prev := cur }

/-- `acpi_busy_usleep` at the head of its loop after `i` rounds, none if it leaves the loop before. -/
def acpiBusyUsleep (acpi : PmTimer) (usec : ℕ) (in32 : ℕ → ℕ → ℕ) : ℕ → Option Waiting
  | 0 => some { acc := 0, prev := acpiGetTimer acpi in32 0 }
  | i + 1 => (acpiBusyUsleep acpi usec in32 i).bind fun w =>
    if w.acc < usecToCount usec then some (w.next acpi (acpiGetTimer acpi in32 (i + 1))) else none

/-- The loop is left after `i` rounds. -/
def ExitsAt (acpi : PmTimer) (usec : ℕ) (in32 : ℕ → ℕ → ℕ) (i : ℕ) : Prop :=
  ∃ w, acpiBusyUsleep acpi usec in32 i = some w ∧ ¬w.acc < usecToCount usec

/-- The port gives the values of a count that never runs back, and goes by less than a period in between. -/
structure Reads (acpi : PmTimer) (in32 : ℕ → ℕ → ℕ) (T : ℕ → ℕ) : Prop where
  reading : ∀ i, in32 acpi.pmTmrPort i = T i % acpiGetTimerPeriod acpi
  mono : Monotone T
  gap : ∀ i, T (i + 1) - T i < acpiGetTimerPeriod acpi

/-! ### One reading -/

theorem acpiGetTimerPeriod_pos (acpi : PmTimer) : 0 < acpiGetTimerPeriod acpi := by
  rw [acpiGetTimerPeriod]
  split_ifs <;> decide

theorem acpiGetTimerPeriod_le (acpi : PmTimer) : acpiGetTimerPeriod acpi ≤ 2 ^ 32 := by
  rw [acpiGetTimerPeriod]
  split_ifs <;> decide

/-- The distance of two readings, taken the short way round, is the distance of the counts. -/
theorem short_way {P s d : ℕ} (hd : d < P) :
    (if (s + d) % P < s % P then P + (s + d) % P - s % P else (s + d) % P - s % P) = d := by
  have hr : s % P < P := Nat.mod_lt s (by omega)
  rw [Nat.add_mod, Nat.mod_eq_of_lt hd]
  generalize s % P = r at hr
  rcases Nat.lt_or_ge (r + d) P with h | h
  · rw [Nat.mod_eq_of_lt h, if_neg (by omega)]
    omega
  · rw [Nat.mod_eq_sub_mod h, Nat.mod_eq_of_lt (by omega), if_pos (by omega)]
    omega

/-- STEP: a round adds the distance the count has gone since the last reading. -/
theorem Waiting.next_eq {acpi : PmTimer} {w : Waiting} {s d : ℕ} (hprev : w.prev = s % acpiGetTimerPeriod acpi)
    (hd : d < acpiGetTimerPeriod acpi) (hacc : w.acc + d < 2 ^ 64) :
    w.next acpi ((s + d) % acpiGetTimerPeriod acpi) = ⟨w.acc + d, (s + d) % acpiGetTimerPeriod acpi⟩ := by
  have hP := acpiGetTimerPeriod_le acpi
  have hsum := short_way (s := s) hd
  have hr : s % acpiGetTimerPeriod acpi < acpiGetTimerPeriod acpi := Nat.mod_lt s (acpiGetTimerPeriod_pos acpi)
  have hc : (s + d) % acpiGetTimerPeriod acpi < acpiGetTimerPeriod acpi := Nat.mod_lt _ (acpiGetTimerPeriod_pos acpi)
  rw [Waiting.next, hprev]
  generalize (s + d) % acpiGetTimerPeriod acpi = cur at hsum hc
  generalize s % acpiGetTimerPeriod acpi = prev at hsum hr
  by_cases hlt : cur < prev
  · have hfit : add64 (acpiGetTimerPeriod acpi) cur = acpiGetTimerPeriod acpi + cur := add64_of_lt (by omega)
    rw [if_pos hlt] at hsum
    rw [if_pos hlt, hfit, sub64_of_le (by omega) (by omega), hsum, add64_of_lt hacc]
  · rw [if_neg hlt] at hsum
    rw [if_neg hlt, sub64_of_le (by omega) (by omega), hsum, add64_of_lt hacc]

/-! ### Whole waits -/

section Wait

variable {acpi : PmTimer} {usec : ℕ} {in32 : ℕ → ℕ → ℕ} {T : ℕ → ℕ}

theorem usecToCount_lt (usec : ℕ) : usecToCount usec < 2 ^ 45 := by
  have h := mul64_lt acpiTmrHz usec
  rw [usecToCount]
  omega

/-- RUN: at the head of the loop the sum is the distance from the first reading. -/
theorem acpiBusyUsleep_eq (hr : Reads acpi in32 T) (i : ℕ) {w : Waiting}
    (hw : acpiBusyUsleep acpi usec in32 i = some w) : w = ⟨T i - T 0, T i % acpiGetTimerPeriod acpi⟩ := by
  induction i generalizing w with
  | zero =>
    rw [acpiBusyUsleep, acpiGetTimer, hr.reading, Option.some.injEq] at hw
    rw [← hw, Nat.sub_self]
  | succ i ih =>
    rw [acpiBusyUsleep, Option.bind_eq_some_iff] at hw
    obtain ⟨v, hv, hnext⟩ := hw
    obtain rfl := ih hv
    have h0 : T 0 ≤ T i := hr.mono (Nat.zero_le i)
    have hi : T i ≤ T (i + 1) := hr.mono (Nat.le_succ i)
    obtain ⟨d, hd⟩ := Nat.exists_eq_add_of_le hi
    have hgap : d < acpiGetTimerPeriod acpi := by
      have := hr.gap i
      omega
    have hroom := usecToCount_lt usec
    have hP := acpiGetTimerPeriod_le acpi
    split_ifs at hnext with hlt
    rw [Option.some.injEq, acpiGetTimer, hr.reading, hd, Waiting.next_eq rfl hgap (by dsimp only at hlt ⊢; omega)] at hnext
    rw [← hnext, hd]
    congr 1
    dsimp only
    omega

/-- The loop gets to its `i`-th round when the wanted count was not reached before. -/
theorem acpiBusyUsleep_isSome_iff (hr : Reads acpi in32 T) (i : ℕ) :
    (acpiBusyUsleep acpi usec in32 i).isSome ↔ ∀ j < i, T j - T 0 < usecToCount usec := by
  induction i with
  | zero => simp [acpiBusyUsleep]
  | succ i ih =>
    rw [Nat.forall_lt_succ_right, ← ih, acpiBusyUsleep]
    cases hw : acpiBusyUsleep acpi usec in32 i with
    | none => simp
    | some w =>
      obtain rfl := acpiBusyUsleep_eq hr i hw
      simp

/-- ELAPSED: after every round the sum is the count gone by since the first reading, and the loop is left at the
    first reading at which the wanted count has gone by. -/
theorem busy_usleep_elapsed (hr : Reads acpi in32 T) (husec : 3579545 * usec < 2 ^ 64) :
    (∀ i w, acpiBusyUsleep acpi usec in32 i = some w → w.acc = T i - T 0)
      ∧ ∀ i, ExitsAt acpi usec in32 i ↔
        3579545 * usec / 1000000 ≤ T i - T 0 ∧ ∀ j < i, T j - T 0 < 3579545 * usec / 1000000 := by
  have hclk : usecToCount usec = 3579545 * usec / 1000000 := by
    rw [usecToCount, acpiTmrHz, mul64_of_lt husec]
  refine ⟨fun i w hw => by rw [acpiBusyUsleep_eq hr i hw], fun i => ?_⟩
  rw [← hclk, ← acpiBusyUsleep_isSome_iff hr i, ExitsAt]
  constructor
  · rintro ⟨w, hw, hdone⟩
    obtain rfl := acpiBusyUsleep_eq hr i hw
    exact ⟨by simpa using hdone, by rw [hw, Option.isSome_some]⟩
  · rintro ⟨hdone, hsome⟩
    obtain ⟨w, hw⟩ := Option.isSome_iff_exists.mp hsome
    refine ⟨w, hw, ?_⟩
    obtain rfl := acpiBusyUsleep_eq hr i hw
    simpa using hdone

end Wait

/-- A count that goes on by ten million a reading, on a timer of 24 bits that wraps twice on the way. -/
theorem busy_usleep_wrapping : ExitsAt ⟨0x408, 0⟩ 10000000 (fun _ i => 10000000 * i % 2 ^ 24) 4 := by
  have hr : Reads ⟨0x408, 0⟩ (fun _ i => 10000000 * i % 2 ^ 24) (fun i => 10000000 * i) :=
    { reading := fun _ => rfl
      mono := fun i j hij => Nat.mul_le_mul_left _ hij
      gap := fun i => by
        rw [← Nat.mul_sub, Nat.add_sub_cancel_left]
        decide }
  exact ((busy_usleep_elapsed hr (by decide)).2 4).mpr ⟨by decide, by decide⟩

end Advos.Acpi
