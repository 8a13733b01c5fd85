import Mathlib.Data.List.GetD
import Mathlib.Data.List.Infix
import Mathlib.Tactic.Ring

/-! Bytes in a memory: where a list of them is stored, little-endian numbers, and writes over an image.

        address   a    a+1   a+2  …
        memory    l₀   l₁    l₂   …          Stored mem a l

    A zero byte ends a string, so at one address at most one string without zeros is stored with its end. -/

namespace Advos.Bytes
open List

variable {mem : ℕ → UInt8} {a n w pos : ℕ} {c : UInt8} {l l' s t out : List UInt8}

/-- An element of a list that is one longer is an old one or the last. -/
theorem getElem?_append_singleton {α : Type*} {l : List α} {x y : α} {i : ℕ} (h : (l ++ [x])[i]? = some y) :
    l[i]? = some y ∨ i = l.length ∧ x = y := by
  rcases Nat.lt_trichotomy i l.length with hi | rfl | hi
  · exact .inl (by rwa [List.getElem?_append_left hi] at h)
  · rw [List.getElem?_append_right (le_refl _), Nat.sub_self] at h
    exact .inr ⟨rfl, Option.some.inj h⟩
  · rw [List.getElem?_eq_none (by rw [length_append, length_singleton]; omega)] at h
    cases h

/-- The bytes of `l` are in memory from address `a` on. -/
def Stored (mem : ℕ → UInt8) (a : ℕ) (l : List UInt8) : Prop := ∀ i c, l[i]? = some c → mem (a + i) = c

theorem stored_nil : Stored mem a [] := fun i c h => by simp at h

theorem stored_cons : Stored mem a (c :: l) ↔ mem a = c ∧ Stored mem (a + 1) l := by
  constructor
  · intro h
    refine ⟨h 0 c rfl, fun i d hd => ?_⟩
    rw [add_assoc, add_comm 1]
    exact h (i + 1) d hd
  · rintro ⟨hc, h⟩ i d hd
    cases i with
    | zero => exact hc.trans (Option.some.inj hd)
    | succ i =>
      rw [add_comm i, ← add_assoc]
      exact h i d hd

theorem stored_append : Stored mem a (l ++ l') ↔ Stored mem a l ∧ Stored mem (a + l.length) l' := by
  induction l generalizing a with
  | nil => simp [stored_nil]
  | cons c l ih => rw [cons_append, stored_cons, stored_cons, ih, and_assoc, length_cons,
      add_assoc a 1, add_comm 1]

theorem Stored.moved {mem' : ℕ → UInt8} {b : ℕ} (h : Stored mem a l)
    (hmove : ∀ i, i < l.length → mem' (b + i) = mem (a + i)) : Stored mem' b l := by
  intro i c hi
  rw [hmove i (List.getElem?_eq_some_iff.mp hi).1]
  exact h i c hi

theorem Stored.map_range (h : Stored mem 0 l) : (List.range l.length).map mem = l := by
  apply ext_getElem?
  intro i
  rcases Nat.lt_or_ge i l.length with hi | hi
  · have hbyte := h i l[i] (List.getElem?_eq_getElem hi)
    rw [Nat.zero_add] at hbyte
    rw [List.getElem?_map, List.getElem?_range hi, List.getElem?_eq_getElem hi, Option.map_some, hbyte]
  · rw [List.getElem?_eq_none (by simpa using hi), List.getElem?_eq_none hi]

theorem Stored.of_isPrefix (h : Stored mem a l') (hp : l <+: l') : Stored mem a l := by
  obtain ⟨t, rfl⟩ := hp
  exact (stored_append.mp h).1

/-- Of two lists at one address the shorter one is the beginning of the other. -/
theorem Stored.isPrefix_iff (h : Stored mem a l') (hle : l.length ≤ l'.length) : Stored mem a l ↔ l <+: l' := by
  constructor
  · intro hl
    refine prefix_iff_getElem?.mpr fun i hi => ?_
    have hi' : i < l'.length := by omega
    rw [List.getElem?_eq_getElem hi']
    exact congrArg some ((h i _ (List.getElem?_eq_getElem hi')).symm.trans (hl i _ (List.getElem?_eq_getElem hi)))
  · exact h.of_isPrefix

/-- STRINGS: the one that is stored with its end is determined by the address. -/
theorem stored_nul_unique (hs : 0 ∉ s) (ht : 0 ∉ t) (h : Stored mem a (s ++ [0])) (h' : Stored mem a (t ++ [0])) :
    s = t := by
  induction s generalizing a t with
  | nil =>
    cases t with
    | nil => rfl
    | cons d t =>
      have hd : d = 0 := (stored_cons.mp h').1.symm.trans (stored_cons.mp h).1
      exact absurd (hd ▸ mem_cons_self) ht
  | cons c s ih =>
    rw [mem_cons, not_or] at hs
    rw [cons_append, stored_cons] at h
    cases t with
    | nil => exact absurd ((stored_cons.mp h').1.symm.trans h.1) hs.1
    | cons d t =>
      rw [mem_cons, not_or] at ht
      rw [cons_append, stored_cons] at h'
      rw [h.1.symm.trans h'.1, ih hs.2 ht.2 h.2 h'.2]

/-! ### Numbers -/

/-- The low `w` bytes of `n`, least significant first. -/
def toLE : ℕ → ℕ → List UInt8
  | 0, _ => []
  | w + 1, n => UInt8.ofNat n :: toLE w (n / 256)

theorem toLE_length (w n : ℕ) : (toLE w n).length = w := by
  induction w generalizing n with
  | zero => rfl
  | succ w ih => rw [toLE, length_cons, ih]

/-- The number of `w` bytes at address `a`. -/
def loadLE (mem : ℕ → UInt8) : ℕ → ℕ → ℕ
  | 0, _ => 0
  | w + 1, a => (mem a).toNat + 256 * loadLE mem w (a + 1)

theorem loadLE_congr {mem mem' : ℕ → UInt8} {w a : ℕ} (h : ∀ i, i < w → mem (a + i) = mem' (a + i)) :
    loadLE mem w a = loadLE mem' w a := by
  induction w generalizing a with
  | zero => rfl
  | succ w ih =>
    have hrest : loadLE mem w (a + 1) = loadLE mem' w (a + 1) := by
      refine ih fun i hi => ?_
      rw [Nat.add_assoc, Nat.add_comm 1 i]
      exact h (i + 1) (by omega)
    rw [loadLE, loadLE, hrest, ← Nat.add_zero a, h 0 (by omega)]

theorem loadLE_zero (w a : ℕ) : loadLE (fun _ => 0) w a = 0 := by
  induction w generalizing a with
  | zero => rfl
  | succ w ih => rw [loadLE, ih]; rfl

theorem loadLE_stored (h : Stored mem a (toLE w n)) (hn : n < 256 ^ w) : loadLE mem w a = n := by
  induction w generalizing a n with
  | zero =>
    rw [pow_zero, Nat.lt_one_iff] at hn
    exact hn.symm
  | succ w ih =>
    rw [toLE, stored_cons] at h
    have hdiv : n / 256 < 256 ^ w := by
      rw [Nat.div_lt_iff_lt_mul (by norm_num), ← pow_succ]
      exact hn
    have hbyte : (UInt8.ofNat n).toNat = n % 256 := UInt8.toNat_ofNat'
    rw [loadLE, h.1, ih h.2 hdiv, hbyte]
    omega

/-! ### Images -/

/-- The image as a memory that starts at 0. -/
def byteAt (out : List UInt8) (i : ℕ) : UInt8 := out.getD i 0

/-- Write `l` over the image from `pos` on; a gap is filled with zeros. -/
def overlay (out : List UInt8) (pos : ℕ) (l : List UInt8) : List UInt8 :=
  out.take pos ++ List.replicate (pos - out.length) 0 ++ l ++ out.drop (pos + l.length)

theorem overlay_length (out : List UInt8) (pos : ℕ) (l : List UInt8) :
    (overlay out pos l).length = max out.length (pos + l.length) := by
  simp only [overlay, length_append, length_take, length_replicate, length_drop]
  omega

theorem byteAt_filled {i : ℕ} (hi : i < pos) :
    (out.take pos ++ List.replicate (pos - out.length) 0).getD i 0 = out.getD i 0 := by
  rw [getD_eq_getElem?_getD, getD_eq_getElem?_getD]
  by_cases hout : i < out.length
  · rw [List.getElem?_append_left (by rw [length_take]; omega), List.getElem?_take_of_lt hi]
  · rw [List.getElem?_append_right (by rw [length_take]; omega), List.getElem?_eq_none (by omega : _ ≤ i),
      List.getElem?_replicate]
    split <;> rfl

theorem byteAt_overlay (i : ℕ) : byteAt (overlay out pos l) i =
    if pos ≤ i ∧ i < pos + l.length then l.getD (i - pos) 0 else byteAt out i := by
  have hlen : (out.take pos ++ List.replicate (pos - out.length) 0).length = pos := by
    rw [length_append, length_take, length_replicate]
    omega
  rw [byteAt, byteAt, overlay, append_assoc]
  rcases Nat.lt_or_ge i pos with hi | hi
  · rw [getD_append _ _ _ _ (by omega), byteAt_filled hi, if_neg (by omega)]
  · rw [getD_append_right _ _ _ _ (by omega), hlen]
    by_cases hl : i < pos + l.length
    · rw [getD_append _ _ _ _ (by omega), if_pos ⟨hi, hl⟩]
    · rw [getD_append_right _ _ _ _ (by omega), if_neg (by omega), getD_eq_getElem?_getD,
        List.getElem?_drop, getD_eq_getElem?_getD]
      congr 2
      omega

theorem stored_overlay : Stored (byteAt (overlay out pos l)) pos l := by
  intro i c h
  have hi : i < l.length := by
    by_contra hge
    rw [List.getElem?_eq_none (by omega)] at h
    cases h
  rw [byteAt_overlay, if_pos (by omega), Nat.add_sub_cancel_left, getD_eq_getElem?_getD, h]
  rfl

/-- FRAME: what is stored beside the write stays. -/
theorem Stored.overlay (h : Stored (byteAt out) a l') (hapart : a + l'.length ≤ pos ∨ pos + l.length ≤ a) :
    Stored (byteAt (overlay out pos l)) a l' := by
  intro i c hi
  have hlt : i < l'.length := by
    by_contra hge
    rw [List.getElem?_eq_none (by omega)] at hi
    cases hi
  rw [byteAt_overlay, if_neg (by omega)]
  exact h i c hi

end Advos.Bytes
