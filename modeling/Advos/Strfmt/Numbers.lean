import Advos.Schemes.Numeral
import Advos.Strfmt.Text

/-! The number conversions, untruncated.

    A number is padded to its width, filled with zeros to its precision, and its digits follow:

        ␣␣␣␣ 000 7fff          width 11, precision 7, four digits

    The hexadecimal ones are right for all values. The decimal one keeps its sign among the digits, so that
    zeros come in front of it:

        %05d of -42   ──▶   00-42

    and negates the value before it takes its digits, which does not change the least one. -/

namespace Advos.Strfmt
open Word List
open Numeral (Denotes Spells digitsUpTo digitsUpTo_eq)

/-! ### Untruncated output -/

/-- What a conversion writes into a buffer that has room for all of it and a byte more. -/
def Untruncated (conversion : Option ℕ → ℕ → List UInt8 → Option (ℕ × List UInt8)) (text : List UInt8) : Prop :=
  ∀ buf, text.length < buf.length →
    ∃ buf', conversion (some 0) buf.length buf = some (text.length, buf') ∧ buf'.take text.length = text

theorem Shows.take_eq {size : ℕ} {text buf : List UInt8} (h : Shows size text buf) (hlt : text.length < size) :
    buf.take text.length = text := by
  apply ext_getElem?
  intro i
  rw [List.getElem?_take]
  by_cases hi : i < text.length
  · rw [if_pos hi, List.getElem?_eq_getElem hi]
    exact h.bytes i _ (List.getElem?_eq_getElem hi) (by omega)
  · rw [if_neg hi, List.getElem?_eq_none (by omega)]

theorem number_untruncated (f : Format) (digits : List UInt8) :
    Untruncated (fun str size buf => outputNumber str size f digits buf) (numberText f digits) := by
  intro buf hlt
  have h0 : Shows buf.length [] buf := ⟨rfl, fun i c h => by simp at h⟩
  obtain ⟨buf', hemit, h⟩ : ∃ buf', emit (some 0) buf.length (numberText f digits) (0, buf) =
      some (0 + (numberText f digits).length, buf') ∧ Shows buf.length ([] ++ numberText f digits) buf' :=
    emit_shows (.inl ⟨by omega, rfl, rfl⟩) h0 rfl
  rw [zero_add] at hemit
  exact ⟨buf', (outputNumber_eq _ _ _ _ _).trans hemit, h.take_eq hlt⟩

/-- The blanks of a number, and the zeros behind them. -/
def blanks (f : Format) (ptr : ℕ) : ℕ := if f.zero then 0 else padCount f ptr

def zeros (f : Format) (ptr : ℕ) : ℕ := (if f.zero then padCount f ptr else 0) + precCount f ptr

theorem numberText_eq (f : Format) (digits : List UInt8) :
    numberText f digits = List.replicate (blanks f digits.length) (ch ' ') ++
      (List.replicate (zeros f digits.length) (ch '0') ++ digits.reverse) := by
  rw [numberText, blanks, zeros]
  cases f.zero with
  | false => simp
  | true => simp only [reduceIte, replicate_zero, nil_append, replicate_add]

theorem precCount_eq (f : Format) (ptr : ℕ) : (precCount f ptr : ℤ) = max f.prec ptr - ptr := by
  rw [precCount]
  split <;> omega

variable {f : Format}

/-- The padding fills the width, unless the width minus the precision is no `int`. -/
theorem padCount_eq {ptr : ℕ} (hfits : f.pad ≤ ptr ∨ f.pad - f.prec < 2 ^ 31) :
    (padCount f ptr : ℤ) = max f.pad (max f.prec ptr) - max f.prec ptr := by
  rw [padCount]
  split
  · rw [wrap32_of_range (by omega) (by omega)]
    omega
  · omega

variable {digits : List UInt8}

/-- WIDTH: the text is as long as its longest part. -/
theorem numberText_length (hfits : f.pad ≤ digits.length ∨ f.pad - f.prec < 2 ^ 31) :
    ((numberText f digits).length : ℤ) = max (max f.pad f.prec) digits.length := by
  have hpad := padCount_eq hfits
  have hprec := precCount_eq f digits.length
  rw [numberText, length_append, length_append, length_replicate, length_replicate,
    length_reverse]
  push_cast
  omega

theorem numberText_short (hpad : f.pad < 2 ^ 31) (hprec : -2 ^ 31 ≤ f.prec) (hwide : 2 ^ 31 ≤ f.pad - f.prec) :
    numberText f digits = digits.reverse := by
  have hwrap : wrap32 (f.pad - f.prec) < 0 := by
    rw [wrap32_of_ge hwide (by omega)]
    omega
  have hpad0 : padCount f digits.length = 0 := by
    rw [padCount]
    split <;> omega
  have hprec0 : precCount f digits.length = 0 := by
    rw [precCount]
    split <;> omega
  rw [numberText, hpad0, hprec0, replicate_zero, replicate_zero, nil_append, nil_append]

theorem pad_le_length_iff (hpad : f.pad < 2 ^ 31) (hprec : -2 ^ 31 ≤ f.prec) :
    f.pad ≤ (numberText f digits).length ↔ f.pad ≤ digits.length ∨ f.pad - f.prec < 2 ^ 31 := by
  constructor
  · intro h
    by_contra hcon
    rw [not_or, not_le, not_lt] at hcon
    rw [numberText_short hpad hprec hcon.2, length_reverse] at h
    omega
  · intro h
    rw [numberText_length h]
    omega

/-! ### Digits -/

def decimal : List UInt8 := "0123456789".toList.map ch

def hexadecimal (cap : Bool) : List UInt8 :=
  (if cap then "0123456789ABCDEF" else "0123456789abcdef").toList.map ch

/-- The character of a decimal digit. -/
def decChar (d : ℕ) : UInt8 := UInt8.ofNat (d + (ch '0').toNat)

theorem decimal_spells : Spells decimal decChar := ⟨by decide, by decide⟩

theorem hexadecimal_spells (cap : Bool) : Spells (hexadecimal cap) (hexChar cap) := by
  cases cap
  · exact ⟨by decide, by decide⟩
  · exact ⟨by decide, by decide⟩

theorem hexLoop_eq (cap : Bool) (k n : ℕ) : hexLoop cap k n = (digitsUpTo 16 k n).map (hexChar cap) := by
  induction k generalizing n with
  | zero => rfl
  | succ k ih =>
    have hand : n &&& 0xf = n % 16 := Nat.and_two_pow_sub_one_eq_mod n 4
    have hshift : n >>> 4 = n / 16 := Nat.shiftRight_eq_div_pow n 4
    rw [hexLoop, digitsUpTo, hand, hshift, ih]
    split <;> rfl

theorem ofInt_natCast (m : ℕ) : UInt8.ofInt (m : ℤ) = UInt8.ofNat m := by
  have hmod : ((m : ℤ) % 2 ^ 8).toNat = m % 2 ^ 8 := by omega
  rw [UInt8.ofInt, hmod]
  exact UInt8.ofNat_mod_size

theorem decLoop_eq (k n : ℕ) : decLoop k n = (digitsUpTo 10 k n).map decChar := by
  induction k generalizing n with
  | zero => rfl
  | succ k ih =>
    have hmod : UInt8.ofInt ((n : ℤ).tmod 10 + (ch '0').toNat) = decChar (n % 10) := by
      rw [decChar, ← ofInt_natCast]
      rfl
    have hdiv : (n : ℤ).tdiv 10 = (n / 10 : ℕ) := rfl
    rw [decLoop, digitsUpTo, hmod, hdiv, ih]
    by_cases hn : n = 0
    · simp [hn]
    · simp [hn]

section OrZero
variable {alphabet : List UInt8} {char : ℕ → UInt8}

theorem orZero_denotes (h : Spells alphabet char) (hb : 1 < alphabet.length) (h0 : char 0 = ch '0') (n : ℕ) :
    Denotes alphabet (orZero ((Nat.digits alphabet.length n).map char)).reverse n := by
  by_cases hn : n = 0
  · subst hn
    rw [Nat.digits_zero, map_nil, orZero, if_pos rfl, ← h0]
    exact h.denotes_zero (by omega)
  · have hne : (Nat.digits alphabet.length n).map char ≠ [] := by
      simpa [Nat.digits_ne_nil_iff_ne_zero] using hn
    rw [orZero, if_neg hne]
    exact h.denotes_digits hb hn

theorem orZero_length (b n : ℕ) (char : ℕ → UInt8) :
    (orZero ((Nat.digits b n).map char)).length = max (Nat.digits b n).length 1 := by
  rw [orZero]
  split
  · next h =>
    rw [map_eq_nil_iff.mp h]
    rfl
  · next h =>
    have : 0 < ((Nat.digits b n).map char).length := length_pos_of_ne_nil h
    rw [length_map] at this ⊢
    omega

end OrZero

variable {v : ℕ}

theorem hexDigits_eq (cap : Bool) (hv : v < 2 ^ 64) :
    hexDigits cap v = orZero ((Nat.digits 16 v).map (hexChar cap)) := by
  have hlt : v < 16 ^ 64 := hv.trans (by norm_num)
  rw [hexDigits, hexLoop_eq, digitsUpTo_eq (by norm_num) hlt]

theorem hexDigits_denotes (cap : Bool) (hv : v < 2 ^ 64) :
    Denotes (hexadecimal cap) (hexDigits cap v).reverse v := by
  have hlen : (hexadecimal cap).length = 16 := by cases cap <;> rfl
  have h := orZero_denotes (hexadecimal_spells cap) (by omega) (by cases cap <;> rfl) v
  rwa [hlen, ← hexDigits_eq cap hv] at h

/-- SCRATCH: sixteen bytes are enough. -/
theorem hexDigits_length (cap : Bool) (hv : v < 2 ^ 64) :
    (hexDigits cap v).length = max (Nat.digits 16 v).length 1 ∧ (hexDigits cap v).length ≤ 16 := by
  have hlen : (Nat.digits 16 v).length ≤ 16 := by
    rw [Nat.digits_length_le_iff (by norm_num)]
    exact hv.trans_eq (by norm_num)
  rw [hexDigits_eq cap hv, orZero_length]
  exact ⟨rfl, by omega⟩

/-! ### Hexadecimal numbers -/

/-- Blanks, only without the zero flag, and a numeral; as long as the width, the precision and the digits ask. -/
structure HexText (f : Format) (cap : Bool) (v : ℕ) (text : List UInt8) : Prop where
  denotes : ∃ k ds, text = List.replicate k (ch ' ') ++ ds ∧ Denotes (hexadecimal cap) ds v ∧
    (k ≠ 0 → f.zero = false)
  length : (text.length : ℤ) = max (max f.pad f.prec) (max (Nat.digits 16 v).length 1 : ℕ)

theorem hexText_number (cap : Bool) (hv : v < 2 ^ 64) (hfits : f.pad - f.prec < 2 ^ 31) :
    HexText f cap v (numberText f (hexDigits cap v)) := by
  have hspells := hexadecimal_spells cap
  have hpos : 0 < (hexadecimal cap).length := by cases cap <;> decide
  have h0 : hexChar cap 0 = ch '0' := by cases cap <;> rfl
  refine ⟨?_, ?_⟩
  · have hds := hspells.denotes_replicate hpos (zeros f (hexDigits cap v).length) (hexDigits_denotes cap hv)
    rw [h0] at hds
    refine ⟨_, _, numberText_eq f _, hds, ?_⟩
    rw [blanks]
    cases f.zero <;> simp
  · rw [numberText_length (.inr hfits), (hexDigits_length cap hv).1]

theorem argUnsigned_lt (mod : Modifier) (w : ℕ) : argUnsigned mod w < 2 ^ 64 := by
  cases mod <;> simp only [argUnsigned] <;> omega

/-- HEXADECIMAL: `_output_hexdecimal` in both cases, and `_output_pointer`. -/
theorem hexadecimal_faithful (zero : Bool) (width precision : ℕ) (hwidth : width < 2 ^ 31)
    (hprecision : precision < 2 ^ 31) (mod : Modifier) (spec : UInt8) (w : ℕ) (args : List ℕ) :
    let f : Format := ⟨zero, width, precision, mod, spec⟩
    (∀ cap, (hexDigits cap (argUnsigned mod w)).length ≤ 16 ∧
      ∃ text, Untruncated (fun str size buf => outputHexdecimal str size f (w :: args) cap buf) text ∧
        HexText f cap (argUnsigned mod w) text) ∧
    (hexDigits false (w % 2 ^ 64)).length ≤ 16 ∧
      ∃ text, Untruncated (fun str size buf => outputPointer str size f (w :: args) buf) text ∧
        HexText f false (w % 2 ^ 64) text := by
  have hfits : (width : ℤ) - precision < 2 ^ 31 := by omega
  have hw : w % 2 ^ 64 < 2 ^ 64 := Nat.mod_lt _ (by norm_num)
  refine ⟨fun cap => ⟨(hexDigits_length cap (argUnsigned_lt mod w)).2, _, number_untruncated _ _, ?_⟩,
    (hexDigits_length false hw).2, _, number_untruncated _ _, ?_⟩
  · exact hexText_number cap (argUnsigned_lt mod w) hfits
  · exact hexText_number false hw hfits

theorem hexadecimal_faithful_padded :
    let f : Format := ⟨true, 8, 0, .none, ch 'x'⟩
    (∀ cap, (hexDigits cap 255).length ≤ 16 ∧
      ∃ text, Untruncated (fun str size buf => outputHexdecimal str size f [255] cap buf) text ∧
        HexText f cap 255 text) ∧
    (hexDigits false 255).length ≤ 16 ∧
      ∃ text, Untruncated (fun str size buf => outputPointer str size f [255] buf) text ∧
        HexText f false 255 text :=
  hexadecimal_faithful true 8 0 (by norm_num) (by norm_num) .none (ch 'x') 255 []

/-! ### Decimal numbers -/

/-- Blanks, a sign perhaps, and a numeral; together the value. -/
def DecimalText (val : ℤ) (text : List UInt8) : Prop :=
  ∃ (k : ℕ) (neg : Bool) (ds : List UInt8) (n : ℕ),
    text = List.replicate k (ch ' ') ++ ((if neg then [ch '-'] else []) ++ ds) ∧ Denotes decimal ds n ∧
      val = if neg then -(n : ℤ) else n

/-- The characters of a number and its sign. -/
def signedLength (val : ℤ) : ℕ := max (Nat.digits 10 val.natAbs).length 1 + (if val < 0 then 1 else 0)

/-- The width can be counted off, and a negative number is not the least one and gets no zeros in front. -/
def DecimalFits (f : Format) (val : ℤ) : Prop :=
  (f.pad ≤ signedLength val ∨ f.pad - f.prec < 2 ^ 31) ∧
    (0 ≤ val ∨ (val ≠ -2 ^ 63 ∧ f.prec ≤ signedLength val ∧ (f.zero = false ∨ f.pad ≤ signedLength val)))

/-- The digits without the sign. -/
def magnitude (val : ℤ) : List UInt8 := orZero ((Nat.digits 10 val.natAbs).map decChar)

theorem magnitude_denotes (val : ℤ) : Denotes decimal (magnitude val).reverse val.natAbs :=
  orZero_denotes decimal_spells (by decide) rfl val.natAbs

theorem magnitude_eq (n : ℕ) (hn : n < 2 ^ 63) : orZero (decLoop 64 n) = magnitude n := by
  have hlt : n < 10 ^ 64 := hn.trans (by norm_num)
  rw [decLoop_eq, digitsUpTo_eq (by norm_num) hlt]
  rfl

section Decimal
variable {f : Format} {val : ℤ} {text : List UInt8}

theorem decimalDigits_nonneg (h0 : 0 ≤ val) (h1 : val < 2 ^ 63) : decimalDigits val = magnitude val := by
  lift val to ℕ using h0
  rw [decimalDigits, if_neg (by omega), magnitude_eq val (by omega)]

theorem decimalDigits_neg (h0 : val < 0) (h1 : -2 ^ 63 < val) : decimalDigits val = magnitude val ++ [ch '-'] := by
  obtain ⟨n, rfl⟩ : ∃ n : ℕ, val = -n := ⟨val.natAbs, by omega⟩
  have hwrap : wrap64 (-(n : ℤ) * -1) = n := by
    rw [neg_mul_neg, mul_one]
    exact wrap64_of_range (by omega) (by omega)
  have habs : magnitude n = magnitude (-(n : ℤ)) := by rw [magnitude, magnitude, Int.natAbs_neg]
  rw [decimalDigits, if_pos h0, hwrap, magnitude_eq n (by omega), habs]

/-- LEAST: its negation is itself, and the last remainder is -8. -/
theorem decimalDigits_min : ∃ ds, decimalDigits (-2 ^ 63) = ch '(' :: ds := by
  have hwrap : wrap64 (-2 ^ 63 * -1) = -2 ^ 63 := by norm_num [wrap64, Int.bmod]
  rw [decimalDigits, if_pos (by norm_num), hwrap, decLoop, if_neg (by norm_num), orZero, if_neg (by simp)]
  exact ⟨_, rfl⟩

theorem decimalDigits_length (h0 : -2 ^ 63 < val) (h1 : val < 2 ^ 63) :
    (decimalDigits val).length = signedLength val := by
  have hlen : (magnitude val).length = max (Nat.digits 10 val.natAbs).length 1 := orZero_length 10 _ decChar
  by_cases hneg : val < 0
  · rw [decimalDigits_neg hneg h0, length_append, hlen, signedLength, if_pos hneg, length_singleton]
  · rw [decimalDigits_nonneg (by omega) h1, hlen, signedLength, if_neg hneg, add_zero]

theorem DecimalText.getLast (h : DecimalText val text) : ∃ c ∈ decimal, text.getLast? = some c := by
  obtain ⟨k, neg, ds, n, rfl, hds, -⟩ := h
  refine ⟨ds.getLast hds.nonempty, hds.digits _ (getLast_mem _), ?_⟩
  rw [← append_assoc, List.getLast?_append_of_ne_nil _ hds.nonempty, List.getLast?_eq_getLast_of_ne_nil]

theorem dropWhile_blanks (k : ℕ) {c : UInt8} {l : List UInt8} (hc : c ≠ ch ' ') :
    (List.replicate k (ch ' ') ++ c :: l).dropWhile (· == ch ' ') = c :: l := by
  induction k with
  | zero => simp [hc]
  | succ k ih => rw [replicate_succ, cons_append, dropWhile_cons_of_pos (by simp), ih]

theorem not_decimalText_zero_sign (k : ℕ) {l : List UInt8} (hsign : ch '-' ∈ l) :
    ¬ DecimalText val (List.replicate k (ch ' ') ++ ch '0' :: l) := by
  rintro ⟨k', neg, ds, n, heq, hds, -⟩
  have hdrop := congrArg (List.dropWhile (· == ch ' ')) heq
  rw [dropWhile_blanks k (by decide)] at hdrop
  cases neg with
  | true =>
    rw [if_pos rfl, singleton_append, dropWhile_blanks k' (by decide), List.cons.injEq] at hdrop
    exact absurd hdrop.1 (by decide)
  | false =>
    obtain ⟨d, ds', rfl⟩ := exists_cons_of_ne_nil hds.nonempty
    have hd : d ≠ ch ' ' := by
      rintro rfl
      exact absurd (hds.digits _ mem_cons_self) (by decide)
    rw [if_neg (by simp), nil_append, dropWhile_blanks k' hd, List.cons.injEq] at hdrop
    rw [hdrop.2] at hsign
    exact absurd (hds.digits _ (mem_cons_of_mem _ hsign)) (by decide)

theorem decimalText_nonneg (h0 : 0 ≤ val) (h1 : val < 2 ^ 63) :
    DecimalText val (numberText f (decimalDigits val)) := by
  have hds := decimal_spells.denotes_replicate (by decide) (zeros f (decimalDigits val).length)
    (magnitude_denotes val)
  rw [← decimalDigits_nonneg h0 h1] at hds
  refine ⟨_, false, _, _, numberText_eq f _, hds, ?_⟩
  rw [if_neg (by simp)]
  omega

/-- SIGN: it is among the digits, so no zero may come before them. -/
theorem decimalText_neg_iff (h0 : val < 0) (h1 : -2 ^ 63 < val) :
    DecimalText val (numberText f (decimalDigits val)) ↔ zeros f (decimalDigits val).length = 0 := by
  have hdigits : (decimalDigits val).reverse = ch '-' :: (magnitude val).reverse := by
    rw [decimalDigits_neg h0 h1, reverse_append, reverse_singleton, singleton_append]
  rw [numberText_eq, hdigits]
  constructor
  · intro h
    by_contra hz
    obtain ⟨j, hj⟩ := Nat.exists_eq_succ_of_ne_zero hz
    rw [hj, replicate_succ, cons_append] at h
    exact not_decimalText_zero_sign _ (by simp) h
  · intro hz
    rw [hz, replicate_zero, nil_append]
    refine ⟨_, true, _, _, rfl, magnitude_denotes val, ?_⟩
    rw [if_pos rfl]
    omega

theorem not_decimalText_min : ¬ DecimalText (-2 ^ 63) (numberText f (decimalDigits (-2 ^ 63))) := by
  intro h
  obtain ⟨c, hc, hlast⟩ := h.getLast
  obtain ⟨ds, hds⟩ := decimalDigits_min
  rw [numberText, hds, reverse_cons, ← append_assoc, List.getLast?_concat, Option.some.injEq] at hlast
  subst hlast
  exact absurd hc (by decide)

theorem zeros_eq_zero_iff {ptr : ℕ} (hlen : f.pad ≤ ptr ∨ f.pad - f.prec < 2 ^ 31) :
    zeros f ptr = 0 ↔ f.prec ≤ ptr ∧ (f.zero = false ∨ f.pad ≤ ptr) := by
  have hprec := precCount_eq f ptr
  have hpad := padCount_eq hlen
  rw [zeros]
  cases f.zero with
  | false =>
    simp only [Bool.false_eq_true, if_false, zero_add, true_or, and_true]
    omega
  | true =>
    simp only [if_true, reduceCtorEq, false_or]
    omega

end Decimal

theorem argInt_range (mod : Modifier) (w : ℕ) : -2 ^ 63 ≤ argInt mod w ∧ argInt mod w < 2 ^ 63 := by
  have h32 : -2 ^ 63 ≤ toInt32 w ∧ toInt32 w < 2 ^ 63 := by
    have hle : -((2 ^ 32 : ℕ) : ℤ) / 2 ≤ toInt32 w := Int.le_bmod (by norm_num)
    have hlt : toInt32 w < (((2 ^ 32 : ℕ) : ℤ) + 1) / 2 := Int.bmod_lt (by norm_num)
    omega
  have h64 : -2 ^ 63 ≤ wrap64 w ∧ wrap64 w < 2 ^ 63 := by
    have hle : -((2 ^ 64 : ℕ) : ℤ) / 2 ≤ wrap64 w := Int.le_bmod (by norm_num)
    have hlt : wrap64 w < (((2 ^ 64 : ℕ) : ℤ) + 1) / 2 := Int.bmod_lt (by norm_num)
    omega
  cases mod
  · exact h32
  · exact h64
  · exact h64

/-- DECIMAL: `_output_decimal`. -/
theorem decimal_faithful_iff (f : Format) (hpad : -2 ^ 31 ≤ f.pad ∧ f.pad < 2 ^ 31)
    (hprec : -2 ^ 31 ≤ f.prec ∧ f.prec < 2 ^ 31) (w : ℕ) (args : List ℕ) :
    ∃ text, Untruncated (fun str size buf => outputDecimal str size f (w :: args) buf) text ∧
      (DecimalText (argInt f.mod w) text ∧ f.pad ≤ text.length ↔ DecimalFits f (argInt f.mod w)) := by
  refine ⟨_, number_untruncated _ _, ?_⟩
  have hrange := argInt_range f.mod w
  change DecimalText (argInt f.mod w) (numberText f (decimalDigits (argInt f.mod w))) ∧
    f.pad ≤ (numberText f (decimalDigits (argInt f.mod w))).length ↔ DecimalFits f (argInt f.mod w)
  generalize argInt f.mod w = val at hrange ⊢
  rw [pad_le_length_iff hpad.2 hprec.1, DecimalFits]
  by_cases hmin : val = -2 ^ 63
  · subst hmin
    constructor
    · rintro ⟨h, -⟩
      exact absurd h not_decimalText_min
    · rintro ⟨-, h | ⟨h, -⟩⟩
      · omega
      · exact absurd rfl h
  · rw [decimalDigits_length (by omega) hrange.2]
    rcases lt_or_ge val 0 with hneg | hnonneg
    · rw [decimalText_neg_iff hneg (by omega), decimalDigits_length (by omega) hrange.2]
      constructor
      · rintro ⟨hz, hlen⟩
        exact ⟨hlen, .inr ⟨hmin, (zeros_eq_zero_iff hlen).mp hz⟩⟩
      · rintro ⟨hlen, h | ⟨-, h⟩⟩
        · omega
        · exact ⟨(zeros_eq_zero_iff hlen).mpr h, hlen⟩
    · constructor
      · rintro ⟨-, hlen⟩
        exact ⟨hlen, .inl hnonneg⟩
      · rintro ⟨hlen, -⟩
        exact ⟨decimalText_nonneg hnonneg hrange.2, hlen⟩

theorem decimal_faithful_iff_blanks :
    ∃ text, Untruncated (fun str size buf => outputDecimal str size ⟨false, 5, 0, .none, ch 'd'⟩ [7] buf) text ∧
      (DecimalText (argInt .none 7) text ∧ (5 : ℤ) ≤ text.length ↔
        DecimalFits ⟨false, 5, 0, .none, ch 'd'⟩ (argInt .none 7)) :=
  decimal_faithful_iff ⟨false, 5, 0, .none, ch 'd'⟩ (by norm_num) (by norm_num) 7 []

/-- "%05d" of -42 is "00-42". -/
theorem zeros_before_sign :
    argInt .none 4294967254 = -42 ∧
      Untruncated (fun str size buf => outputDecimal str size ⟨true, 5, 0, .none, ch 'd'⟩ [4294967254] buf)
        ("00-42".toList.map ch) ∧
      ¬ DecimalText (-42) ("00-42".toList.map ch) := by
  have harg : toInt32 4294967254 = -42 := by
    unfold toInt32
    norm_num [Int.bmod_def]
  have hdigits : decimalDigits (-42) = [ch '2', ch '4', ch '-'] := by
    have hmag : magnitude (-42) = [decChar 2, decChar 4] := by
      have hds : (Nat.digits 10 (-42 : ℤ).natAbs).map decChar = [decChar 2, decChar 4] := by norm_num
      rw [magnitude, hds, orZero, if_neg (List.cons_ne_nil _ _)]
    rw [decimalDigits_neg (by norm_num) (by norm_num), hmag]
    rfl
  refine ⟨harg, ?_, not_decimalText_zero_sign 0 (by decide)⟩
  have htext : numberText ⟨true, 5, 0, .none, ch 'd'⟩ (decimalDigits (toInt32 4294967254)) =
      "00-42".toList.map ch := by
    rw [harg, hdigits]
    decide
  rw [← htext]
  exact number_untruncated _ _

end Advos.Strfmt
