import Mathlib.Data.Nat.Digits.Lemmas

/-! Numerals: strings of digits, most significant first, and the numbers they denote.

    A number is written by taking digits off its low end, which gives them in reverse, and read from the left:

        n ──(n % b, n / b, ...)──▶ digits, low end first ──reverse──▶ numeral ──foldl──▶ n

    Leading zeros do not change what is denoted. -/

namespace Advos.Numeral
open List

variable {α : Type*} {b k n : ℕ} {char : ℕ → α} {digit : α → ℕ} {l : List α}

/-- The digits of `n` from the low end, `k` of them at most. -/
def digitsUpTo (b : ℕ) : ℕ → ℕ → List ℕ
  | 0, _ => []
  | k + 1, n => if n = 0 then [] else n % b :: digitsUpTo b k (n / b)

theorem digitsUpTo_eq (hb : 1 < b) : ∀ {k n : ℕ}, n < b ^ k → digitsUpTo b k n = Nat.digits b n
  | 0, n, h => by
      obtain rfl : n = 0 := by simpa using h
      rw [digitsUpTo, Nat.digits_zero]
  | k + 1, n, h => by
      rw [digitsUpTo]
      by_cases hn : n = 0
      · rw [if_pos hn, hn, Nat.digits_zero]
      · have hdiv : n / b < b ^ k := by
          rw [Nat.div_lt_iff_lt_mul (by omega), ← Nat.pow_succ]
          exact h
        rw [if_neg hn, digitsUpTo_eq hb hdiv, Nat.digits_def' hb (Nat.pos_of_ne_zero hn)]

/-- The number a numeral denotes. -/
def value (b : ℕ) (digit : α → ℕ) (l : List α) : ℕ := l.foldl (fun n c => b * n + digit c) 0

theorem value_append_singleton (c : α) : value b digit (l ++ [c]) = b * value b digit l + digit c := by
  simp [value]

theorem value_replicate_append (digit : α → ℕ) {z : α} (hz : digit z = 0) (k : ℕ) :
    value b digit (List.replicate k z ++ l) = value b digit l := by
  have hzero : value b digit (List.replicate k z) = 0 := by
    induction k with
    | zero => rfl
    | succ k ih => rw [replicate_succ', value_append_singleton, ih, hz, mul_zero, add_zero]
  rw [value] at hzero
  rw [value, value, foldl_append, hzero]

theorem value_reverse_map (hchar : ∀ d, d < b → digit (char d) = d) : ∀ {ds : List ℕ}, (∀ d ∈ ds, d < b) →
    value b digit (ds.map char).reverse = Nat.ofDigits b ds
  | [], _ => rfl
  | d :: ds, h => by
      rw [forall_mem_cons] at h
      rw [map_cons, reverse_cons, value_append_singleton, value_reverse_map hchar h.2, hchar d h.1,
        Nat.ofDigits_cons, add_comm]

theorem value_digits (hb : 1 < b) (hchar : ∀ d, d < b → digit (char d) = d) (n : ℕ) :
    value b digit ((Nat.digits b n).map char).reverse = n := by
  rw [value_reverse_map hchar fun d hd => Nat.digits_lt_base hb hd, Nat.ofDigits_digits]

/-! ### Alphabets -/

/-- A numeral over the digits of an alphabet, and the number it denotes: a digit is worth its place there. -/
structure Denotes [DecidableEq α] (alphabet l : List α) (n : ℕ) : Prop where
  nonempty : l ≠ []
  digits : ∀ c ∈ l, c ∈ alphabet
  value_eq : value alphabet.length alphabet.idxOf l = n

section Alphabet
variable {alphabet : List α}

/-- The alphabet lists the digits `char 0`, `char 1`, …, none of them twice. -/
structure Spells (alphabet : List α) (char : ℕ → α) : Prop where
  nodup : alphabet.Nodup
  char_eq : ∀ d, d < alphabet.length → alphabet[d]? = some (char d)

theorem Spells.mem (h : Spells alphabet char) {d : ℕ} (hd : d < alphabet.length) : char d ∈ alphabet :=
  mem_of_getElem? (h.char_eq d hd)

variable [DecidableEq α]

namespace Spells
variable (h : Spells alphabet char)
include h

theorem idxOf_char {d : ℕ} (hd : d < alphabet.length) :
    alphabet.idxOf (char d) = d := by
  have hget : alphabet[d] = char d := by
    have := h.char_eq d hd
    rwa [List.getElem?_eq_getElem hd, Option.some.injEq] at this
  rw [← hget]
  exact h.nodup.idxOf_getElem d hd

/-- ZERO has one digit. -/
theorem denotes_zero (hb : 0 < alphabet.length) :
    Denotes alphabet [char 0] 0 := by
  refine ⟨by simp, ?_, ?_⟩
  · simpa using h.mem hb
  · simp [value, h.idxOf_char hb]

theorem denotes_digits (hb : 1 < alphabet.length) (hn : n ≠ 0) :
    Denotes alphabet ((Nat.digits alphabet.length n).map char).reverse n := by
  refine ⟨by simpa [Nat.digits_ne_nil_iff_ne_zero] using hn, ?_, value_digits hb (fun d hd => h.idxOf_char hd) n⟩
  intro c hc
  obtain ⟨d, hd, rfl⟩ := mem_map.mp (mem_reverse.mp hc)
  exact h.mem (Nat.digits_lt_base hb hd)

/-- LEADING ZEROS are digits, too. -/
theorem denotes_replicate (hb : 0 < alphabet.length) (k : ℕ) (hl : Denotes alphabet l n) :
    Denotes alphabet (List.replicate k (char 0) ++ l) n := by
  refine ⟨by simp [hl.nonempty], ?_, ?_⟩
  · intro c hc
    rcases mem_append.mp hc with hc | hc
    · rw [eq_of_mem_replicate hc]
      exact h.mem hb
    · exact hl.digits c hc
  · rw [value_replicate_append (fun c => alphabet.idxOf c) (h.idxOf_char hb)]
    exact hl.value_eq

end Spells

end Alphabet

end Advos.Numeral
