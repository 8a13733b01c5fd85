import Mathlib.Data.Nat.Basic
import Mathlib.Logic.Function.Basic
import Mathlib.Tactic.Common
import Mathlib.Tactic.SplitIfs
import Advos.Schemes.Word

/-! The byte copies of `asm.S` (`kmemcpy`, `kmemmove`) and `libcasm.S` (`memcpy`, `memmove`).

    All four end in `rep movsb`, which moves one byte from `(%rsi)` to `(%rdi)` and steps both
    pointers, `%rcx` times, upwards or downwards as the direction flag says. Moving to a higher
    address goes downwards, so that the source is read before it is overwritten. It starts at
    `dst + len`, one byte above the last one of the range:

        wanted    dst     dst+1   ...   dst+len-1
        written           dst+1   ...   dst+len-1   dst+len

    The first byte is left as it was and the byte behind the range is overwritten. -/

namespace Advos.Asm
open Word Function

/-- The registers of the routines, the direction flag and the memory. -/
structure Cpu where
  rdi : ℕ
  rsi : ℕ
  rdx : ℕ
  rcx : ℕ
  rax : ℕ
  df : Bool
  mem : ℕ → UInt8

/-- A string instruction's step of a pointer: down when the direction flag is set. -/
def advance (df : Bool) (r : ℕ) : ℕ := if df then sub64 r 1 else add64 r 1

/-- `movsb`. -/
def movsb (c : Cpu) : Cpu :=
  { c with
    mem := Function.update c.mem c.rdi (c.mem c.rsi)
    rdi := advance c.df c.rdi
    rsi := advance c.df c.rsi }

/-- The `rep` repetition with `n` in `%rcx`. -/
def rep : ℕ → Cpu → Cpu
  | 0, c => c
  | n + 1, c => rep n { movsb c with rcx := n }

/-- `rep movsb`. -/
def repMovsb (c : Cpu) : Cpu := rep c.rcx c

/-- The body of `kmemcpy` and `memcpy`. -/
def copyUp (c : Cpu) : Cpu := repMovsb { c with rax := c.rdi, rcx := c.rdx, df := false }

/-- The body of `kmemmove` and `memmove`: `cmpq %rdi,%rsi`, `ja` to the copy of the same file. -/
def copyEither (memcpy : Cpu → Cpu) (c : Cpu) : Cpu :=
  if c.rsi > c.rdi then memcpy c
  else
    { repMovsb { c with
        rax := c.rdi, rcx := c.rdx, df := true
        rdi := add64 c.rdi c.rdx, rsi := add64 c.rsi c.rdx } with df := false }

/-- `kmemcpy` of `asm.S`. -/
def kmemcpy : Cpu → Cpu := copyUp

/-- `kmemmove` of `asm.S`. -/
def kmemmove : Cpu → Cpu := copyEither kmemcpy

/-- `memcpy` of `libcasm.S`. -/
def memcpy : Cpu → Cpu := copyUp

/-- `memmove` of `libcasm.S`. -/
def memmove : Cpu → Cpu := copyEither memcpy

/-! ### What the repetition does to the memory -/

/-- RUN (pointers equal): every byte is copied onto itself. -/
theorem rep_same : ∀ (n : ℕ) (c : Cpu), c.rdi = c.rsi → (rep n c).mem = c.mem
  | 0, _, _ => rfl
  | n + 1, c, h => by
    have hstep : (movsb c).mem = c.mem := by simp [movsb, h]
    rw [rep, rep_same n _ (by simp [movsb, h]), hstep]

/-- STEP (upwards): below the top of the address space both pointers move up by one. -/
theorem rep_up_succ (n : ℕ) {c : Cpu} (hdf : c.df = false) (hdi : c.rdi + 1 < 2 ^ 64) (hsi : c.rsi + 1 < 2 ^ 64) :
    rep (n + 1) c = rep n { c with
      rdi := c.rdi + 1, rsi := c.rsi + 1, rcx := n
      mem := update c.mem c.rdi (c.mem c.rsi) } := by
  simp only [rep, movsb, advance, hdf, Bool.false_eq_true, if_false, add64_of_lt hdi, add64_of_lt hsi]

/-- STEP (downwards): above address 0 both pointers move down by one. -/
theorem rep_down_succ (n : ℕ) {c : Cpu} (hdf : c.df = true) (hdi : 1 ≤ c.rdi) (hdi' : c.rdi < 2 ^ 64)
    (hsi : 1 ≤ c.rsi) (hsi' : c.rsi < 2 ^ 64) :
    rep (n + 1) c = rep n { c with
      rdi := c.rdi - 1, rsi := c.rsi - 1, rcx := n
      mem := update c.mem c.rdi (c.mem c.rsi) } := by
  simp only [rep, movsb, advance, hdf, if_true, sub64_of_le hdi hdi', sub64_of_le hsi hsi']

/-- RUN (upwards to a lower address): the bytes of the range come from the source as it was. -/
theorem rep_up : ∀ (n : ℕ) (c : Cpu), c.df = false → c.rdi < c.rsi → c.rsi + n ≤ 2 ^ 64 → ∀ a : ℕ,
    (rep n c).mem a = if c.rdi ≤ a ∧ a < c.rdi + n then c.mem (a + (c.rsi - c.rdi)) else c.mem a
  | 0, c, _, _, _, a => by
    rw [if_neg (by omega)]
    rfl
  | 1, c, _, hlt, _, a => by
    simp only [rep, movsb]
    by_cases h : a = c.rdi
    · subst h
      rw [update_self, if_pos (by omega), Nat.add_sub_cancel' (le_of_lt hlt)]
    · rw [update_of_ne h, if_neg (by omega)]
  | n + 2, c, hdf, hlt, hend, a => by
    have ih := rep_up (n + 1) { c with
      rdi := c.rdi + 1, rsi := c.rsi + 1, rcx := n + 1
      mem := update c.mem c.rdi (c.mem c.rsi) } hdf
    simp only [Nat.add_sub_add_right] at ih
    rw [rep_up_succ (n + 1) hdf (by omega) (by omega), ih (by omega) (by omega)]
    by_cases hin : c.rdi + 1 ≤ a ∧ a < c.rdi + 1 + (n + 1)
    · -- the byte read here lies above the one just written
      rw [if_pos hin, if_pos (by omega), update_of_ne (by omega)]
    · rw [if_neg hin]
      by_cases h : a = c.rdi
      · subst h
        rw [update_self, if_pos (by omega), Nat.add_sub_cancel' (le_of_lt hlt)]
      · rw [update_of_ne h, if_neg (by omega)]

/-- RUN (downwards to a higher address): the `n` bytes that end at `%rdi` come from the source as
    it was. -/
theorem rep_down : ∀ (n : ℕ) (c : Cpu), c.df = true → c.rsi < c.rdi → n ≤ c.rsi → c.rdi < 2 ^ 64 →
    ∀ a : ℕ, (rep n c).mem a =
      if c.rdi < a + n ∧ a ≤ c.rdi then c.mem (a - (c.rdi - c.rsi)) else c.mem a
  | 0, c, _, _, _, _, a => by
    rw [if_neg (by omega)]
    rfl
  | n + 1, c, hdf, hlt, hn, hend, a => by
    have ih := rep_down n { c with
      rdi := c.rdi - 1, rsi := c.rsi - 1, rcx := n
      mem := update c.mem c.rdi (c.mem c.rsi) } hdf
    have hgap : c.rdi - 1 - (c.rsi - 1) = c.rdi - c.rsi := by omega
    simp only [hgap] at ih
    rw [rep_down_succ n hdf (by omega) hend (by omega) (by omega), ih (by omega) (by omega) (by omega)]
    by_cases hin : c.rdi - 1 < a + n ∧ a ≤ c.rdi - 1
    · -- the byte read here lies below the one just written
      rw [if_pos hin, if_pos (by omega), update_of_ne (by omega)]
    · rw [if_neg hin]
      by_cases h : a = c.rdi
      · subst h
        rw [update_self, if_pos (by omega)]
        congr 1
        omega
      · rw [update_of_ne h, if_neg (by omega)]

/-! ### The calls -/

/-- A call's arguments and the memory before it. Neither range wraps; a range may end at `2 ^ 64`. -/
structure CopyCall where
  dst : ℕ
  src : ℕ
  len : ℕ
  mem : ℕ → UInt8
  dst_lt : dst < 2 ^ 64
  src_lt : src < 2 ^ 64
  dst_end : dst + len ≤ 2 ^ 64
  src_end : src + len ≤ 2 ^ 64

/-- The memory after a routine is called with the arguments in `%rdi`, `%rsi`, `%rdx`; `rcx`, `rax`
    and `df` are what the caller left there. -/
def CopyCall.after (call : CopyCall) (routine : Cpu → Cpu) (rcx rax : ℕ) (df : Bool) : ℕ → UInt8 :=
  (routine ⟨call.dst, call.src, call.len, rcx, rax, df, call.mem⟩).mem

/-- What a copy is for: the range at `dst` holds the bytes that were at `src`, nothing else moved. -/
structure Moved (call : CopyCall) (mem : ℕ → UInt8) : Prop where
  copied : ∀ i, i < call.len → mem (call.dst + i) = call.mem (call.src + i)
  kept : ∀ a, a < call.dst ∨ call.dst + call.len ≤ a → mem a = call.mem a

/-- The calls the code gets right: upwards, empty, or with the two bytes that are treated wrongly
    equal to what they should be already. -/
def CopyCall.Spared (call : CopyCall) : Prop :=
  call.dst < call.src ∨ call.len = 0 ∨
    (call.mem call.dst = call.mem call.src ∧
      call.mem (add64 call.dst call.len) = call.mem (add64 call.src call.len))

section
variable {call : CopyCall} {rcx rax : ℕ} {df : Bool}

theorem moved_up (h : call.dst < call.src) : Moved call (call.after copyUp rcx rax df) := by
  have hrun := rep_up call.len ⟨call.dst, call.src, call.len, call.len, call.dst, false, call.mem⟩
    rfl h call.src_end
  refine ⟨fun i hi => ?_, fun a ha => ?_⟩
  · change (rep _ _).mem _ = _
    rw [hrun, if_pos ⟨Nat.le_add_right _ _, Nat.add_lt_add_left hi _⟩]
    change call.mem (call.dst + i + (call.src - call.dst)) = _
    congr 1
    omega
  · change (rep _ _).mem _ = _
    rw [hrun, if_neg (by change ¬(call.dst ≤ a ∧ a < call.dst + call.len); omega)]

/-- The registers at the downward repetition. -/
def downFrom (call : CopyCall) : Cpu :=
  ⟨add64 call.dst call.len, add64 call.src call.len, call.len, call.len, call.dst, true, call.mem⟩

/-- The memory with the range shifted up by one: the byte behind it is written, its first is not. -/
def shiftedUp (call : CopyCall) (a : ℕ) : UInt8 :=
  if a = add64 call.dst call.len then call.mem (add64 call.src call.len)
  else if call.dst < a ∧ a < call.dst + call.len then call.mem (a - (call.dst - call.src))
  else call.mem a

theorem down_mem_below (h : call.src < call.dst) (hfit : call.dst + call.len < 2 ^ 64) (hlen : call.len ≠ 0) (a : ℕ) :
    (rep call.len (downFrom call)).mem a = shiftedUp call a := by
  have hs : add64 call.src call.len = call.src + call.len := add64_of_lt (by omega)
  have hdd : add64 call.dst call.len = call.dst + call.len := add64_of_lt hfit
  rw [rep_down call.len (downFrom call) rfl (by simp only [downFrom, hs, hdd]; omega)
    (by simp only [downFrom, hs]; omega) (by simp only [downFrom, hdd]; omega)]
  simp only [shiftedUp, downFrom, hs, hdd]
  have hgap : call.dst + call.len - (call.src + call.len) = call.dst - call.src := by omega
  rw [hgap]
  by_cases ha : a = call.dst + call.len
  · subst ha
    rw [if_pos (by omega), if_pos rfl]
    congr 1
    omega
  · rw [if_neg ha]
    by_cases hin : call.dst < a ∧ a < call.dst + call.len
    · rw [if_pos (by omega), if_pos hin]
    · rw [if_neg (by omega), if_neg hin]

/-- A range that ends at `2 ^ 64`: the first byte written is the one at address 0. -/
theorem down_mem_top (h : call.src < call.dst) (hend : call.dst + call.len = 2 ^ 64) (hlen : call.len ≠ 0) (a : ℕ) :
    (rep call.len (downFrom call)).mem a = shiftedUp call a := by
  have hd := call.dst_lt
  obtain ⟨n, hn⟩ := Nat.exists_eq_succ_of_ne_zero hlen
  have hs : add64 call.src call.len = call.src + call.len := add64_of_lt (by omega)
  have hdd : add64 call.dst call.len = 0 := by rw [add64, hend, Nat.mod_self]
  obtain ⟨top, htop⟩ : ∃ top, sub64 0 1 = top := ⟨_, rfl⟩
  have htop1 : top + 1 = 2 ^ 64 := by
    rw [← htop, sub64_of_lt Nat.zero_lt_one (by omega)]
    omega
  have hs1 : sub64 (call.src + call.len) 1 = call.src + n := by
    rw [sub64_of_le (by omega) (by omega)]
    omega
  have hrep : rep call.len (downFrom call) = rep n ⟨top, call.src + n, call.len, n, call.dst, true,
      update call.mem 0 (call.mem (call.src + call.len))⟩ := by
    conv_lhs => rw [hn, rep]
    simp only [movsb, downFrom, advance, hdd, hs, htop, hs1, if_true]
  rw [hrep, rep_down n _ rfl (by dsimp only; omega) (by dsimp only; omega) (by dsimp only; omega)]
  simp only [shiftedUp, hs, hdd]
  by_cases ha : a = 0
  · subst ha
    rw [if_neg (by omega), if_pos rfl, update_self]
  · rw [if_neg ha]
    by_cases hin : call.dst < a ∧ a < call.dst + call.len
    · rw [if_pos (by omega), if_pos hin, update_of_ne (by omega)]
      exact congrArg call.mem (by omega)
    · rw [if_neg (by omega), if_neg hin, update_of_ne ha]

theorem down_mem (h : call.src < call.dst) (hlen : call.len ≠ 0) (a : ℕ) :
    (rep call.len (downFrom call)).mem a = shiftedUp call a := by
  rcases Nat.lt_or_eq_of_le call.dst_end with hfit | hend
  · exact down_mem_below h hfit hlen a
  · exact down_mem_top h hend hlen a

theorem moved_down_iff (h : call.src < call.dst) (hlen : call.len ≠ 0) :
    Moved call (rep call.len (downFrom call)).mem ↔
      call.mem call.dst = call.mem call.src ∧
        call.mem (add64 call.dst call.len) = call.mem (add64 call.src call.len) := by
  have hmem := down_mem h hlen
  simp only [shiftedUp] at hmem
  have hd := call.dst_lt
  have hde := call.dst_end
  -- the byte behind the range is outside it, also where it is the one at address 0
  have hout : add64 call.dst call.len < call.dst ∨ call.dst + call.len ≤ add64 call.dst call.len := by
    rw [add64]; omega
  constructor
  · rintro ⟨hcopied, hkept⟩
    have h0 := hcopied 0 (Nat.pos_of_ne_zero hlen)
    rw [Nat.add_zero, Nat.add_zero, hmem, if_neg (by omega), if_neg (by omega)] at h0
    have hend := hkept _ hout
    rw [hmem, if_pos rfl] at hend
    exact ⟨h0, hend.symm⟩
  · rintro ⟨h0, hend⟩
    refine ⟨fun i hi => ?_, fun a ha => ?_⟩
    · rw [hmem, if_neg (by omega)]
      rcases Nat.eq_zero_or_pos i with rfl | hpos
      · rw [if_neg (by omega)]
        exact h0
      · rw [if_pos (by omega)]
        congr 1
        omega
    · rw [hmem]
      split_ifs with h1 h2
      · rw [h1]; exact hend.symm
      · omega
      · rfl

theorem moved_refl (h : call.dst = call.src ∨ call.len = 0) : Moved call call.mem := by
  refine ⟨fun i hi => ?_, fun _ _ => rfl⟩
  rcases h with h | h
  · rw [h]
  · omega

theorem copyEither_moved_iff : Moved call (call.after (copyEither copyUp) rcx rax df) ↔ call.Spared := by
  unfold CopyCall.Spared
  rcases Nat.lt_trichotomy call.dst call.src with hlt | heq | hgt
  · have hrun : call.after (copyEither copyUp) rcx rax df = call.after copyUp rcx rax df := by
      rw [CopyCall.after, copyEither, if_pos hlt]; rfl
    rw [hrun]
    exact ⟨fun _ => .inl hlt, fun _ => moved_up hlt⟩
  · -- equal pointers stay equal
    have hrun : call.after (copyEither copyUp) rcx rax df = call.mem := by
      rw [CopyCall.after, copyEither, if_neg (by rw [heq]; exact lt_irrefl _)]
      exact rep_same _ _ (by simp only [heq])
    rw [hrun]
    exact ⟨fun _ => .inr (.inr ⟨by rw [heq], by rw [heq]⟩), fun _ => moved_refl (.inl heq)⟩
  · have hrun : call.after (copyEither copyUp) rcx rax df = (rep call.len (downFrom call)).mem := by
      rw [CopyCall.after, copyEither, if_neg (by simpa using le_of_lt hgt)]; rfl
    rw [hrun]
    by_cases hlen : call.len = 0
    · have hnone : (rep call.len (downFrom call)).mem = call.mem := by rw [hlen]; rfl
      rw [hnone]
      exact ⟨fun _ => .inr (.inl hlen), fun _ => moved_refl (.inr hlen)⟩
    · rw [moved_down_iff hgt hlen]
      constructor
      · exact fun h => .inr (.inr h)
      · rintro (h | h | h)
        · omega
        · exact absurd h hlen
        · exact h

end

/-- Both routines copy as they should exactly in the calls that are spared. -/
theorem memmove_moves_iff (call : CopyCall) (rcx rax : ℕ) (df : Bool) :
    (Moved call (call.after kmemmove rcx rax df) ↔ call.Spared) ∧
      (Moved call (call.after memmove rcx rax df) ↔ call.Spared) :=
  ⟨copyEither_moved_iff, copyEither_moved_iff⟩

/-- Two bytes, `1 2`, moved up by one address. -/
def shiftByOne : CopyCall where
  dst := 1
  src := 0
  len := 2
  mem := fun a => if a = 0 then 1 else if a = 1 then 2 else 0
  dst_lt := by decide
  src_lt := by decide
  dst_end := by decide
  src_end := by decide

/-- Afterwards the byte at 1 is still 2, where 1 belongs: the bytes written are those at 3 and 2. -/
theorem memmove_shifts_past_end : shiftByOne.after kmemmove 0 0 false 1 = 2 ∧
    shiftByOne.after memmove 0 0 false 1 = 2 ∧
    ¬Moved shiftByOne (shiftByOne.after kmemmove 0 0 false) ∧
    ¬Moved shiftByOne (shiftByOne.after memmove 0 0 false) := by
  have hk : shiftByOne.after kmemmove 0 0 false 1 = 2 := by decide +kernel
  have hu : shiftByOne.after memmove 0 0 false 1 = 2 := by decide +kernel
  refine ⟨hk, hu, fun h => ?_, fun h => ?_⟩
  · have h0 := h.copied 0 (by decide)
    rw [show shiftByOne.dst + 0 = 1 from rfl, hk] at h0
    exact absurd h0 (by decide)
  · have h0 := h.copied 0 (by decide)
    rw [show shiftByOne.dst + 0 = 1 from rfl, hu] at h0
    exact absurd h0 (by decide)

end Advos.Asm
