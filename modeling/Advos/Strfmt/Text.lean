import Advos.Schemes.Bytes
import Advos.Strfmt.Format

/-! What formatted output writes: the first bytes of a text that does not depend on the buffer.

    `Shows size text buf`: the buffer of `size` bytes has the bytes of `text` at their places, as far as they are
    before the last one. Each character put keeps it for the text with that character at the end, whether the
    conversion writes behind what is there or into the void, so a whole conversion, and a whole format, does:

        Shows size text buf ──put c──▶ Shows size (text ++ [c]) buf' -/

namespace Advos.Strfmt
open Word List
open Bytes (getElem?_append_singleton)
open Slab (CString)

/-! ### Characters and lists of them -/

theorem emit_append (str : Option ℕ) (size : ℕ) (l l' : List UInt8) (st : ℕ × List UInt8) :
    emit str size (l ++ l') st = (emit str size l st).bind (emit str size l') := by
  induction l generalizing st with
  | nil => rfl
  | cons c l ih =>
    rw [cons_append, emit, emit]
    cases put str size c st with
    | none => rfl
    | some st => exact ih st

/-- What a number conversion renders. -/
def numberText (f : Format) (digits : List UInt8) : List UInt8 :=
  List.replicate (padCount f digits.length) (if f.zero then ch '0' else ch ' ') ++
    List.replicate (precCount f digits.length) (ch '0') ++ digits.reverse

theorem outputNumber_eq (str : Option ℕ) (size : ℕ) (f : Format) (digits buf : List UInt8) :
    outputNumber str size f digits buf = emit str size (numberText f digits) (0, buf) := by
  rw [numberText, append_assoc, emit_append, outputNumber]
  cases emit str size _ (0, buf) with
  | none => rfl
  | some st => exact (emit_append str size _ _ st).symm

/-- The bytes of the text are in the buffer, except for the last one of the buffer and what is behind it. -/
structure Shows (size : ℕ) (text buf : List UInt8) : Prop where
  length : buf.length = size
  bytes : ∀ i c, text[i]? = some c → i + 1 < size → buf[i]? = some c

/-- Where a conversion writes when `pos` characters are behind it: at their end, or nowhere. -/
def Target (size pos : ℕ) (str : Option ℕ) (rest : ℕ) : Prop :=
  (pos < size ∧ str = some pos ∧ rest = size - pos) ∨ (size ≤ pos ∧ str = none ∧ rest = 0)

section Shows
variable {size base rest p : ℕ} {str : Option ℕ} {text buf l : List UInt8} {c : UInt8}

/-- ROOM: the byte behind the text is written. -/
theorem Shows.store (h : Shows size text buf) (hlt : text.length + 1 < size) (c : UInt8) :
    ∃ buf', store buf text.length c = some buf' ∧ Shows size (text ++ [c]) buf' := by
  have hlen := h.length
  refine ⟨buf.set text.length c, by rw [Strfmt.store, if_pos (by omega)], by simpa using hlen, ?_⟩
  intro i d hd hi
  rw [List.getElem?_set]
  rcases getElem?_append_singleton hd with hd | ⟨rfl, rfl⟩
  · have hne : text.length ≠ i := by
      rintro rfl
      simp at hd
    rw [if_neg hne]
    exact h.bytes i d hd hi
  · rw [if_pos rfl, if_pos (by omega)]

theorem Shows.skip (h : Shows size text buf) (hge : ¬ text.length + 1 < size) (c : UInt8) :
    Shows size (text ++ [c]) buf := by
  refine ⟨h.length, fun i d hd hi => ?_⟩
  rcases getElem?_append_singleton hd with hd | ⟨rfl, -⟩
  · exact h.bytes i d hd hi
  · exact absurd hi hge

/-- The test of the loop over the format, and of the NUL behind the text. -/
theorem Shows.storeIfRoom (h : Shows size text buf) (c : UInt8) : ∃ buf',
    (if text.length + 1 < size then Strfmt.store buf text.length c else some buf) = some buf' ∧
      Shows size (text ++ [c]) buf' := by
  by_cases hroom : text.length + 1 < size
  · rw [if_pos hroom]
    exact h.store hroom c
  · rw [if_neg hroom]
    exact ⟨buf, rfl, h.skip hroom c⟩

section
variable (ht : Target size base str rest) (h : Shows size text buf)
include ht h

theorem put_shows (hpos : text.length = base + p) (c : UInt8) :
    ∃ buf', put str rest c (p, buf) = some (p + 1, buf') ∧ Shows size (text ++ [c]) buf' := by
  rcases ht with ⟨hlt, rfl, rfl⟩ | ⟨hle, rfl, rfl⟩
  · by_cases hroom : p + 1 < size - base
    · obtain ⟨buf', hstore, hshows⟩ := h.store (by omega) c
      refine ⟨buf', ?_, hshows⟩
      rw [put, if_pos hroom]
      simp only [Option.bind_eq_bind, Option.bind_some, ← hpos, hstore]
    · refine ⟨buf, ?_, h.skip (by omega) c⟩
      rw [put, if_neg hroom]
  · exact ⟨buf, rfl, h.skip (by omega) c⟩

theorem emit_shows (hpos : text.length = base + p) :
    ∃ buf', emit str rest l (p, buf) = some (p + l.length, buf') ∧ Shows size (text ++ l) buf' := by
  induction l generalizing p text buf with
  | nil => exact ⟨buf, rfl, by rwa [append_nil]⟩
  | cons c l ih =>
    obtain ⟨buf1, hput, h1⟩ := put_shows ht h hpos c
    obtain ⟨buf', hemit, h'⟩ := ih (p := p + 1) h1 (by rw [length_append, length_singleton]; omega)
    refine ⟨buf', ?_, ?_⟩
    · rw [emit, hput]
      simp only [Option.bind_eq_bind, Option.bind_some, hemit, length_cons]
      congr 2
      omega
    · rwa [append_assoc, singleton_append] at h'

theorem outputOne_shows (hpos : text.length = base) :
    ∃ buf', outputOne c str rest buf = some (1, buf') ∧ Shows size (text ++ [c]) buf' := by
  rcases ht with ⟨hlt, rfl, rfl⟩ | ⟨hle, rfl, rfl⟩
  · by_cases hroom : size - base > 1
    · obtain ⟨buf', hstore, hshows⟩ := h.store (by omega) c
      refine ⟨buf', ?_, hshows⟩
      rw [outputOne, if_pos ⟨by simp, hroom⟩]
      simp only [Option.bind_eq_bind, Option.bind_some, ← hpos, hstore]
    · refine ⟨buf, ?_, h.skip (by omega) c⟩
      rw [outputOne, if_neg (fun h => hroom h.2)]
  · exact ⟨buf, rfl, h.skip (by omega) c⟩

end

end Shows

/-! ### Conversions and formats -/

/-- What a conversion renders. -/
def convText (mem : ℕ → CString) (f : Format) (args : List ℕ) : List UInt8 :=
  if f.spec = ch '%' then [ch '%']
  else if f.spec = ch 's' then argString mem (nextArg args)
  else if f.spec = ch 'c' then [UInt8.ofNat (nextArg args)]
  else if f.spec = ch 'd' then numberText f (decimalDigits (argInt f.mod (nextArg args)))
  else if f.spec = ch 'x' then numberText f (hexDigits false (argUnsigned f.mod (nextArg args)))
  else if f.spec = ch 'X' then numberText f (hexDigits true (argUnsigned f.mod (nextArg args)))
  else if f.spec = ch 'p' then numberText f (hexDigits false (argUnsigned .longlong (nextArg args)))
  else []

/-- What the first `k` chunks of a format render: ordinary characters stand for themselves. -/
def renderUpTo (mem : ℕ → CString) : ℕ → List UInt8 → List ℕ → List UInt8
  | 0, _, _ => []
  | _ + 1, [], _ => []
  | k + 1, c :: s, args =>
    if c = ch '%' then
      match parseFormat (c :: s) with
      | none => []
      | some (f, s) => convText mem f args ++ renderUpTo mem k s (argsAfter f args)
    else c :: renderUpTo mem k s args

/-- The full rendering of a format. -/
def render (mem : ℕ → CString) (format : CString) (args : List ℕ) : List UInt8 :=
  renderUpTo mem (format.1.length + 1) format.1 args

section Loop
variable {mem : ℕ → CString} {size base rest : ℕ} {str : Option ℕ} {text buf s : List UInt8} {args : List ℕ}
  {f : Format}

theorem output_shows (ht : Target size base str rest) (h : Shows size text buf) (hpos : text.length = base) :
    ∃ buf', output str rest mem f args buf = some ((convText mem f args).length, buf') ∧
      Shows size (text ++ convText mem f args) buf' := by
  have hone := fun c => outputOne_shows (c := c) ht h hpos
  have hemit := fun l => emit_shows (l := l) ht h (p := 0) hpos
  simp only [zero_add] at hemit
  unfold output convText
  split_ifs
  · exact hone _
  · exact hemit _
  · exact hone _
  · rw [outputDecimal, outputNumber_eq]
    exact hemit _
  · rw [outputHexdecimal, outputNumber_eq]
    exact hemit _
  · rw [outputHexdecimal, outputNumber_eq]
    exact hemit _
  · rw [outputPointer, outputNumber_eq]
    exact hemit _
  · exact ⟨buf, rfl, by rwa [append_nil]⟩

theorem skip_length (c : Char) (s : List UInt8) : (skip c s).2.length ≤ s.length := by
  cases s with
  | nil => exact le_refl _
  | cons x s =>
    rw [skip]
    split
    · exact Nat.le_succ _
    · exact le_refl _

theorem parseNumber_length (n : ℤ) (s : List UInt8) : (parseNumber n s).2.length ≤ s.length := by
  induction s generalizing n with
  | nil => exact le_refl _
  | cons c s ih =>
    rw [parseNumber]
    split
    · exact (ih _).trans (Nat.le_succ _)
    · exact le_refl _

theorem parsePad_length (s : List UInt8) : (parsePad s).2.length ≤ s.length := by
  cases s with
  | nil => exact le_refl _
  | cons c s =>
    rw [parsePad]
    split
    · exact parseNumber_length _ _
    · exact le_refl _

theorem parsePrec_length (s : List UInt8) : (parsePrec s).2.length ≤ s.length := by
  rw [parsePrec]
  split
  · exact (parseNumber_length _ _).trans (skip_length _ _)
  · exact le_refl _

theorem parseMod_length (s : List UInt8) : (parseMod s).2.length ≤ s.length := by
  rw [parseMod]
  split
  · split
    · exact (skip_length _ _).trans (skip_length _ _)
    · exact skip_length _ _
  · exact le_refl _

theorem parseFormat_percent (s : List UInt8) :
    ∃ f s', parseFormat (ch '%' :: s) = some (f, s') ∧ s'.length ≤ s.length := by
  have hskip : skip '%' (ch '%' :: s) = (true, s) := by rw [skip, if_pos rfl]
  rw [parseFormat, hskip, if_pos rfl]
  refine ⟨_, _, rfl, ?_⟩
  simp only [length_tail]
  have h0 := skip_length '0' s
  have h1 := parsePad_length (skip '0' s).2
  have h2 := parsePrec_length (parsePad (skip '0' s).2).2
  have h3 := parseMod_length (parsePrec (parsePad (skip '0' s).2).2).2
  omega

/-- What the loop hands to a conversion is the end of the text so far, or nowhere. -/
theorem outputChunk_shows (hsize : size < 2 ^ 63) (h : Shows size text buf) :
    ∃ buf', outputChunk mem size f args text.length buf = some ((convText mem f args).length, buf') ∧
      Shows size (text ++ convText mem f args) buf' := by
  rw [outputChunk, wrap64_of_range (by omega) (by omega)]
  by_cases hlt : text.length < size
  · rw [if_pos (by omega)]
    exact output_shows (.inl ⟨hlt, rfl, rfl⟩) h rfl
  · rw [if_neg (by omega)]
    exact output_shows (.inr ⟨by omega, rfl, rfl⟩) h rfl


theorem formatLoop_percent {k pos : ℕ} {s' : List UInt8} (hparse : parseFormat (ch '%' :: s) = some (f, s')) :
    formatLoop mem size (k + 1) (ch '%' :: s) args (pos, buf) =
      (outputChunk mem size f args pos buf).bind fun r =>
        formatLoop mem size k s' (argsAfter f args) (pos + r.1, r.2) := by
  rw [formatLoop, if_pos rfl, hparse, Option.bind_eq_bind, Option.bind_some, Option.bind_eq_bind]

theorem formatLoop_other {k pos : ℕ} {c : UInt8} (hc : c ≠ ch '%') :
    formatLoop mem size (k + 1) (c :: s) args (pos, buf) =
      (if pos + 1 < size then Strfmt.store buf pos c else some buf).bind fun buf =>
        formatLoop mem size k s args (pos + 1, buf) := by
  rw [formatLoop, if_neg hc, Option.bind_eq_bind]

theorem renderUpTo_percent {k : ℕ} {s' : List UInt8} (hparse : parseFormat (ch '%' :: s) = some (f, s')) :
    renderUpTo mem (k + 1) (ch '%' :: s) args = convText mem f args ++ renderUpTo mem k s' (argsAfter f args) := by
  rw [renderUpTo, if_pos rfl, hparse]

theorem renderUpTo_other {k : ℕ} {c : UInt8} (hc : c ≠ ch '%') :
    renderUpTo mem (k + 1) (c :: s) args = c :: renderUpTo mem k s args := by
  rw [renderUpTo, if_neg hc]

/-- RUN: the loop ends, and shows the text before it with the rendering behind it. -/
theorem formatLoop_shows (hsize : size < 2 ^ 63) {k : ℕ} (hk : s.length < k) (h : Shows size text buf) :
    ∃ buf', formatLoop mem size k s args (text.length, buf) =
        some ((text ++ renderUpTo mem k s args).length, buf') ∧
      Shows size (text ++ renderUpTo mem k s args) buf' := by
  induction k generalizing s args text buf with
  | zero => omega
  | succ k ih =>
    cases s with
    | nil => exact ⟨buf, by simp [formatLoop, renderUpTo], by rwa [renderUpTo, append_nil]⟩
    | cons c s =>
      rw [length_cons] at hk
      by_cases hc : c = ch '%'
      · subst hc
        obtain ⟨f, s', hparse, hlen⟩ := parseFormat_percent s
        obtain ⟨buf1, hout, h1⟩ :
            ∃ buf1, outputChunk mem size f args text.length buf = some ((convText mem f args).length, buf1) ∧
              Shows size (text ++ convText mem f args) buf1 := outputChunk_shows hsize h
        obtain ⟨buf', hloop, h'⟩ := ih (by omega : s'.length < k) h1
        rw [formatLoop_percent hparse, renderUpTo_percent hparse, ← append_assoc]
        refine ⟨buf', ?_, h'⟩
        rw [hout, Option.bind_some, ← length_append, hloop]
      · obtain ⟨buf1, hbuf, h1⟩ := h.storeIfRoom c
        obtain ⟨buf', hloop, h'⟩ := ih (by omega : s.length < k) h1
        rw [formatLoop_other hc, renderUpTo_other hc, append_cons]
        refine ⟨buf', ?_, h'⟩
        rw [hbuf, Option.bind_some, ← hloop, length_append, length_singleton]

end Loop

/-! ### The buffer -/

/-- The first bytes of the text, as many as fit before the last byte of the buffer, and a NUL. -/
structure Printed (size : ℕ) (text buf : List UInt8) : Prop where
  length : buf.length = size
  bytes : buf.take (min text.length (size - 1)) = text.take (size - 1)
  terminated : buf[min text.length (size - 1)]? = some 0

/-- The end of `kvsnprintf`: a NUL behind the text, and one in the last byte. -/
theorem Shows.terminate {size : ℕ} {text buf : List UInt8} (h : Shows size text buf) (hsize : 1 ≤ size) :
    ∃ buf1 buf', (if text.length + 1 < size then Strfmt.store buf text.length 0 else some buf) = some buf1 ∧
      Strfmt.store buf1 (size - 1) 0 = some buf' ∧ Printed size text buf' := by
  obtain ⟨buf1, hbuf1, h1⟩ := h.storeIfRoom 0
  have hlen := h1.length
  refine ⟨buf1, buf1.set (size - 1) 0, hbuf1, by rw [Strfmt.store, if_pos (by omega)], by simpa using hlen, ?_, ?_⟩
  · apply ext_getElem?
    intro i
    rw [List.getElem?_take, List.getElem?_take]
    by_cases hi : i < min text.length (size - 1)
    · have hc : text[i]? = some text[i] := List.getElem?_eq_getElem (by omega)
      have hc1 : (text ++ [0])[i]? = some text[i] := by rw [List.getElem?_append_left (by omega), hc]
      rw [if_pos hi, if_pos (by omega), List.getElem?_set, if_neg (by omega), hc]
      exact h1.bytes i _ hc1 (by omega)
    · rw [if_neg hi]
      split
      · exact (List.getElem?_eq_none (by omega)).symm
      · rfl
  · rw [List.getElem?_set]
    by_cases hroom : text.length + 1 < size
    · rw [if_neg (by omega), Nat.min_eq_left (by omega)]
      exact h1.bytes _ 0 (by simp) hroom
    · rw [if_pos (by omega), if_pos (by omega)]

/-- FORMAT: the result is the length of the rendering as an `int`, and its first bytes are in the buffer. -/
theorem kvsnprintf_printed (mem : ℕ → CString) (format : CString) (args : List ℕ) {size : ℕ} {tmpstr : List UInt8}
    (hlen : tmpstr.length = size) (hsize : 1 ≤ size) (hmax : size < 2 ^ 63) :
    ∃ out, kvsnprintf mem size format args tmpstr = some (wrap32 (render mem format args).length, out) ∧
      Printed size (render mem format args) out := by
  have h0 : Shows size [] tmpstr := ⟨hlen, fun i c h => by simp at h⟩
  obtain ⟨buf, hloop, h⟩ : ∃ buf, formatLoop mem size (format.1.length + 1) format.1 args (0, tmpstr) =
      some ((render mem format args).length, buf) ∧ Shows size (render mem format args) buf :=
    formatLoop_shows hmax (Nat.lt_succ_self _) h0
  obtain ⟨buf1, out, h1, h2, hprinted⟩ := h.terminate hsize
  refine ⟨out, ?_, hprinted⟩
  rw [kvsnprintf, hloop, Option.bind_eq_bind, Option.bind_some]
  simp only [h1, h2, Option.bind_eq_bind, Option.bind_some]

/-- A piece of memory lies in the lower or in the upper half of the canonical addresses. -/
structure Area where
  start : ℕ
  bytes : List UInt8
  canonical : start + bytes.length ≤ 2 ^ 47 ∨ 2 ^ 64 - 2 ^ 47 ≤ start ∧ start + bytes.length ≤ 2 ^ 64

/-- BOUNDED: for every buffer, whatever is in it; an access outside of it would have no result. -/
theorem kvsnprintf_bounded (mem : ℕ → CString) (format : CString) (args : List ℕ) (tmpstr : Area)
    (hsize : 1 ≤ tmpstr.bytes.length) :
    let size := tmpstr.bytes.length
    let text := render mem format args
    ∃ ret out, kvsnprintf mem size format args tmpstr.bytes = some (ret, out) ∧
      (text.length < 2 ^ 31 → ret = text.length) ∧
      out.length = size ∧
      out.take (min text.length (size - 1)) = text.take (size - 1) ∧
      out[min text.length (size - 1)]? = some 0 := by
  have hmax : tmpstr.bytes.length < 2 ^ 63 := by
    have := tmpstr.canonical
    omega
  obtain ⟨out, hret, hprinted⟩ := kvsnprintf_printed mem format args rfl hsize hmax
  refine ⟨_, out, hret, ?_, hprinted.length, hprinted.bytes, hprinted.terminated⟩
  intro hlt
  exact wrap32_of_range (by omega) (by omega)

theorem kvsnprintf_bounded_eight_bytes :
    let size := 8
    let text := render (fun _ => ⟨[], List.not_mem_nil⟩) ⟨[ch '%', ch 'x'], by decide⟩ [255]
    ∃ ret out, kvsnprintf (fun _ => ⟨[], List.not_mem_nil⟩) size ⟨[ch '%', ch 'x'], by decide⟩ [255]
        (List.replicate 8 0) = some (ret, out) ∧
      (text.length < 2 ^ 31 → ret = text.length) ∧
      out.length = size ∧
      out.take (min text.length (size - 1)) = text.take (size - 1) ∧
      out[min text.length (size - 1)]? = some 0 :=
  kvsnprintf_bounded (fun _ => ⟨[], List.not_mem_nil⟩) ⟨[ch '%', ch 'x'], by decide⟩ [255]
    ⟨4096, List.replicate 8 0, .inl (by simp)⟩ (by simp)

end Advos.Strfmt
