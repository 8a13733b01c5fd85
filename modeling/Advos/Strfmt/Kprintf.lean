import Advos.Strfmt.Text

/-! The kernel's own messages (`kprintf`).

    A message is formatted into 2048 bytes on the stack and given to every console device with the result of the
    formatter, which is the length the text would have without the buffer:

        kvsnprintf ──▶ text.take 2047, NUL │ text.length
        dev->write(dev, buf, text.length)

    A text that does not fit is announced with its full length, and the device reads on behind the buffer. -/

namespace Advos.Strfmt
open Word
open Slab (CString)

/-- A call of `dev->write`. -/
structure ConsoleWrite (δ : Type) where
  dev : δ
  buf : List UInt8
  nbyte : ℕ

variable {δ : Type}

/-- `kprintf`: the calls it makes, for the console devices in their order. -/
def kprintf (mem : ℕ → CString) (format : CString) (args : List ℕ) (tmpstr : List UInt8) (console : List δ) :
    Option (List (ConsoleWrite δ)) := do
  let (ret, buf) ← kvsnprintf mem 2048 format args tmpstr
  some (console.map fun dev => ⟨dev, buf, toWord64 ret⟩)

/-- The device gets the text, up to the 2047 bytes that fit. -/
def Hands (text : List UInt8) (w : ConsoleWrite δ) : Prop :=
  w.nbyte = min text.length 2047 ∧ w.buf.take w.nbyte = text.take 2047

theorem toWord64_wrap32 (n : ℕ) :
    toWord64 (wrap32 n) = if n % 2 ^ 32 < 2 ^ 31 then n % 2 ^ 32 else n % 2 ^ 32 + (2 ^ 64 - 2 ^ 32) := by
  have hmod : (n : ℤ) % (2 ^ 32 : ℕ) = (n % 2 ^ 32 : ℕ) := rfl
  rw [toWord64, wrap32, Int.bmod_def, hmod]
  by_cases hlt : n % 2 ^ 32 < 2 ^ 31
  · rw [if_pos (by omega), if_pos hlt]
    omega
  · rw [if_neg (by omega), if_neg hlt]
    omega

/-- LENGTH: it is the one of the text when that fits, or when the `int` happens to be 2047. -/
theorem nbyte_eq_iff (n : ℕ) : toWord64 (wrap32 n) = min n 2047 ↔ n ≤ 2047 ∨ n % 2 ^ 32 = 2047 := by
  rw [toWord64_wrap32]
  split <;> omega

theorem hands_iff {text buf : List UInt8} (h : Printed 2048 text buf) (dev : δ) (nbyte : ℕ) :
    Hands text ⟨dev, buf, nbyte⟩ ↔ nbyte = min text.length 2047 := by
  constructor
  · exact And.left
  · rintro rfl
    exact ⟨rfl, h.bytes⟩

/-- CONSOLE: every device gets the text it should when the text fits, and no device does otherwise. -/
theorem console_text_iff (mem : ℕ → CString) (format : CString) (args : List ℕ) (tmpstr : List UInt8)
    (hlen : tmpstr.length = 2048) (console : List δ) :
    let text := render mem format args
    ∃ writes, kprintf mem format args tmpstr console = some writes ∧ writes.map ConsoleWrite.dev = console ∧
      ((∀ w ∈ writes, Hands text w) ↔ console = [] ∨ text.length ≤ 2047 ∨ text.length % 2 ^ 32 = 2047) := by
  obtain ⟨out, hret, hprinted⟩ := kvsnprintf_printed mem format args hlen (by norm_num) (by norm_num)
  refine ⟨console.map fun dev => ⟨dev, out, toWord64 (wrap32 (render mem format args).length)⟩, ?_, ?_, ?_⟩
  · rw [kprintf, hret]
    rfl
  · rw [List.map_map]
    exact List.map_id console
  · simp only [List.forall_mem_map, hands_iff hprinted, nbyte_eq_iff]
    constructor
    · intro h
      rcases console with _ | ⟨dev, console⟩
      · exact .inl rfl
      · exact .inr (h dev List.mem_cons_self)
    · rintro (rfl | h) dev hdev
      · cases hdev
      · exact h

theorem renderUpTo_plain (mem : ℕ → CString) (args : List ℕ) {s : List UInt8} (hs : ch '%' ∉ s) {k : ℕ}
    (hk : s.length < k) : renderUpTo mem k s args = s := by
  induction k generalizing s with
  | zero => omega
  | succ k ih =>
    cases s with
    | nil => rfl
    | cons c s =>
      rw [List.mem_cons, not_or] at hs
      rw [List.length_cons] at hk
      rw [renderUpTo_other (Ne.symm hs.1), ih hs.2 (by omega)]

/-- The letter a, `n` times. -/
def letters (n : ℕ) : CString := ⟨List.replicate n (ch 'a'), fun h => absurd (List.eq_of_mem_replicate h) (by decide)⟩

theorem render_letters (mem : ℕ → CString) (n : ℕ) (args : List ℕ) :
    render mem (letters n) args = List.replicate n (ch 'a') :=
  renderUpTo_plain mem args (fun h => absurd (List.eq_of_mem_replicate h) (by decide)) (Nat.lt_succ_self _)

/-- A cleared stack. -/
def cleared (n : ℕ) : List UInt8 := List.replicate n 0

theorem console_text_iff_nothing :
    let text := render (fun _ => letters 0) (letters 0) []
    ∃ writes, kprintf (fun _ => letters 0) (letters 0) [] (cleared 2048) [()] = some writes ∧
      writes.map ConsoleWrite.dev = [()] ∧
      ((∀ w ∈ writes, Hands text w) ↔ [()] = [] ∨ text.length ≤ 2047 ∨ text.length % 2 ^ 32 = 2047) :=
  console_text_iff (fun _ => letters 0) (letters 0) [] (cleared 2048) List.length_replicate [()]

/-- A device is told of 2048 bytes, and there are 2047 of the text and a NUL. -/
theorem console_told_too_much :
    ∃ buf, kprintf (fun _ => letters 0) (letters 2048) [] (cleared 2048) [()] = some [⟨(), buf, 2048⟩] ∧
      buf.length = 2048 ∧ buf[2047]? = some 0 ∧
      ¬ Hands (render (fun _ => letters 0) (letters 2048) []) (ConsoleWrite.mk () buf 2048) := by
  have hcleared : (cleared 2048).length = 2048 := List.length_replicate
  obtain ⟨out, hret, hprinted⟩ :=
    kvsnprintf_printed (fun _ => letters 0) (letters 2048) [] hcleared (by norm_num) (by norm_num)
  have hlen : (render (fun _ => letters 0) (letters 2048) []).length = 2048 := by
    rw [render_letters, List.length_replicate]
  have hterm := hprinted.terminated
  rw [hlen] at hret hterm
  have hnbyte : toWord64 (wrap32 (2048 : ℕ)) = 2048 := by
    rw [toWord64_wrap32]
    norm_num
  refine ⟨out, ?_, hprinted.length, hterm, ?_⟩
  · rw [kprintf, hret]
    simp only [Option.bind_eq_bind, Option.bind_some, hnbyte, List.map_cons, List.map_nil]
  · rw [hands_iff hprinted, hlen]
    norm_num

end Advos.Strfmt
