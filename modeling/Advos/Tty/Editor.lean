import Advos.Schemes.Bytes
import Advos.Schemes.Zipper
import Advos.Tty.Console

/-! The line editor: the buffer of `tty.c` against a text with a cursor.

    `Holds` says that a buffer holds a text, with the cursor in the same place; each editing function
    keeps it, and so does the rest of a key's way through `console_proc`. A newline sends the text and
    starts an empty one. -/

namespace Advos.Tty
open Word Bytes Indices Function List

/-- The ideal editor: the line, and all that has been sent. -/
structure Ideal where
  line : Zipper UInt8
  sent : List UInt8

/-- What a key means. -/
def Ideal.key (e : Ideal) (c : UInt8) : Ideal :=
  if c = keyBackspace then { e with line := e.line.backspace }
  else if c = newline then ⟨Zipper.empty, e.sent ++ e.line.text ++ [newline]⟩
  else if c = asciiLeft then { e with line := e.line.left }
  else if c = asciiRight then { e with line := e.line.right }
  else if e.line.text.length ≥ lineBufSize then e
  else { e with line := e.line.insert c }

/-- The console agrees with the ideal editor, and no access to the buffer was outside it. -/
structure Refines (s : Console) (e : Ideal) : Prop where
  cur_nonneg : 0 ≤ s.lnbuf.cur
  cur_le : s.lnbuf.cur ≤ s.lnbuf.len
  len_le : s.lnbuf.len ≤ lineBufSize
  text : s.lnbuf.text = e.line.text
  cursor : s.lnbuf.cur = e.line.cursor
  inside : Within lineBufSize s.lnbuf.log
  sent : s.sent = e.sent.map toInt8

/-- The buffer holds a text with a cursor. -/
structure Holds (b : LineBuffer) (z : Zipper UInt8) : Prop where
  cur : b.cur = z.cursor
  len : b.len = z.text.length
  stored : Stored (fun i : ℕ => b.buf i) 0 z.text
  fits : z.text.length ≤ lineBufSize
  inside : Within lineBufSize b.log

section
variable {b : LineBuffer} {z : Zipper UInt8}

/-! ### The words of a buffer -/

namespace Holds
variable (h : Holds b z)
include h

theorem cur_word : toWord64 b.cur = z.cursor := by
  have hle := z.cursor_le
  have hfits := h.fits
  rw [lineBufSize] at hfits
  rw [h.cur, toWord64_of_nonneg (by omega) (by omega), Int.toNat_natCast]

theorem cur_le : ¬b.len < toWord64 b.cur := by
  have hle := z.cursor_le
  rw [h.cur_word, h.len]
  omega

theorem rest : sub64 b.len (toWord64 b.cur) = z.after.length := by
  have hfits := h.fits
  have hlen : z.text.length = z.cursor + z.after.length := length_append
  rw [lineBufSize] at hfits
  rw [h.cur_word, h.len, sub64_of_le (by omega) (by omega)]
  omega

theorem text_eq : b.text = z.text := by
  rw [LineBuffer.text, h.len]
  exact h.stored.map_range

theorem touch {l : List ℤ} (hl : Within lineBufSize l) :
    Holds { b with log := b.log ++ l } z :=
  ⟨h.cur, h.len, h.stored, h.fits, h.inside.append hl⟩

theorem recur (z' : Zipper UInt8) (htext : z'.text = z.text) :
    Holds { b with cur := z'.cursor } z' :=
  ⟨rfl, by rw [htext]; exact h.len, by rw [htext]; exact h.stored, by rw [htext]; exact h.fits, h.inside⟩

theorem line_inside : Within lineBufSize (span 0 b.len) :=
  within_span (le_refl 0) (by have := h.fits; rw [h.len]; omega)

end Holds

/-! ### Moving the rest of the line -/

/-- `memmove` of the rest of the line, which moves nothing when the cursor is at the end. -/
def LineBuffer.shift (b : LineBuffer) (dst : ℤ) : LineBuffer :=
  if toWord64 b.cur ≠ b.len then b.memmove dst b.cur (sub64 b.len (toWord64 b.cur)) else b

theorem shift_fields (b : LineBuffer) (dst : ℤ) : (b.shift dst).cur = b.cur ∧ (b.shift dst).len = b.len := by
  rw [LineBuffer.shift]
  split_ifs <;> exact ⟨rfl, rfl⟩

theorem Holds.shift_buf (h : Holds b z) (dst i : ℤ) : (b.shift dst).buf i =
    if dst ≤ i ∧ i < dst + z.after.length then b.buf (i - dst + z.cursor) else b.buf i := by
  rw [LineBuffer.shift]
  split_ifs with hmove hin hin
  · simp only [LineBuffer.memmove, h.rest]
    rw [if_pos hin, h.cur]
  · simp only [LineBuffer.memmove, h.rest]
    rw [if_neg hin]
  · -- nothing stands behind the cursor
    have hlen : z.text.length = z.cursor + z.after.length := length_append
    have hend : z.cursor = z.text.length := by
      rw [← h.cur_word, ← h.len]
      exact not_not.mp hmove
    omega
  · rfl

theorem Holds.shift_inside (h : Holds b z) {dst : ℤ} (h0 : 0 ≤ dst) (h1 : dst + z.after.length ≤ lineBufSize) :
    Within lineBufSize (b.shift dst).log := by
  have hlen : z.text.length = z.cursor + z.after.length := length_append
  have hfits := h.fits
  rw [LineBuffer.shift]
  split_ifs
  · rw [LineBuffer.memmove, h.rest, h.cur]
    exact (h.inside.append (within_span (by omega) (by omega))).append (within_span h0 h1)
  · exact h.inside

/-! ### The editing functions -/

/-- STEP: inserting at the cursor. -/
theorem insertChar_holds (h : Holds b z) (c : UInt8) :
    Holds (insertChar b c).2 (if z.text.length ≥ lineBufSize then z else z.insert c) := by
  have hlen : z.text.length = z.cursor + z.after.length := length_append
  have hb : b.len ≥ lineBufSize ↔ z.text.length ≥ lineBufSize := by rw [h.len]
  rw [insertChar]
  by_cases hfull : z.text.length ≥ lineBufSize
  · rw [if_pos (hb.mpr hfull), if_pos hfull]
    exact h
  · rw [if_neg (fun hc => hfull (hb.mp hc)), if_neg h.cur_le, if_neg hfull]
    have hsplit := stored_append.mp h.stored
    change Holds { (b.shift (b.cur + 1)).store (b.shift (b.cur + 1)).cur c with
      cur := (b.shift (b.cur + 1)).cur + 1, len := add64 (b.shift (b.cur + 1)).len 1 } (z.insert c)
    rw [(shift_fields b _).1, (shift_fields b _).2]
    have hbuf := h.shift_buf (b.cur + 1)
    have hcur := h.cur
    have hbefore : z.before.length = z.cursor := rfl
    simp only [LineBuffer.store]
    have hsize : lineBufSize = 4096 := rfl
    refine ⟨?_, ?_, ?_, ?_, ?_⟩
    · simp [Zipper.insert, Zipper.cursor, hcur]
    · rw [Zipper.text_insert_length, ← h.len, add64_of_lt (by omega)]
    · -- before the cursor nothing moved, the new byte is there, the rest is one further
      simp only [Zipper.insert, Zipper.text]
      refine stored_append.mpr ⟨stored_append.mpr ⟨hsplit.1.moved fun i hi => ?_, ?_⟩, hsplit.2.moved fun i hi => ?_⟩
      · rw [update_of_ne (by push_cast; omega), hbuf, if_neg (by push_cast; omega)]
      · refine stored_cons.mpr ⟨?_, stored_nil⟩
        rw [hbefore, Nat.zero_add, hcur, update_self]
      · simp only [length_append, length_singleton]
        rw [update_of_ne (by push_cast; omega), hbuf, if_pos (by push_cast; omega)]
        congr 1
        push_cast
        omega
    · rw [Zipper.text_insert_length]
      omega
    · exact (h.shift_inside (by omega) (by omega)).append (within_singleton (by omega) (by omega))

/-- STEP: taking out the byte before the cursor. -/
theorem backspace_holds (h : Holds b z) : Holds (backspace b).2 z.backspace := by
  have hlen : z.text.length = z.cursor + z.after.length := length_append
  have hcur := h.cur
  have hfits := h.fits
  have hsize : lineBufSize = 4096 := rfl
  rw [backspace, if_neg h.cur_le]
  by_cases h0 : b.cur = 0
  · rw [if_pos h0]
    have hnil : z.before = [] := eq_nil_of_length_eq_zero (by change z.cursor = 0; omega)
    rw [Zipper.backspace_of_nil hnil]
    exact h
  · rw [if_neg h0]
    change Holds { b.shift (b.cur - 1) with
      cur := (b.shift (b.cur - 1)).cur - 1, len := sub64 (b.shift (b.cur - 1)).len 1 } z.backspace
    rw [(shift_fields b _).1, (shift_fields b _).2]
    have hsplit := stored_append.mp h.stored
    have hbuf := h.shift_buf (b.cur - 1)
    have hbefore : z.before.length = z.cursor := rfl
    have hdrop : z.before.dropLast.length = z.cursor - 1 := length_dropLast
    have htext : z.backspace.text.length = z.cursor - 1 + z.after.length := by
      rw [Zipper.text, length_append, ← hdrop]
      rfl
    refine ⟨?_, ?_, ?_, ?_, h.shift_inside (by omega) (by omega)⟩
    · rw [Zipper.cursor_backspace, hcur]
      push_cast
      omega
    · change sub64 b.len 1 = _
      rw [htext, h.len, sub64_of_le (by omega) (by omega)]
      omega
    · simp only [Zipper.backspace, Zipper.text]
      refine stored_append.mpr ⟨(hsplit.1.of_isPrefix ( dropLast_prefix _)).moved fun i hi => ?_,
        hsplit.2.moved fun i hi => ?_⟩
      · rw [hbuf, if_neg (by push_cast; omega)]
      · rw [hbuf, if_pos (by push_cast; omega)]
        congr 1
        push_cast
        omega
    · omega

theorem moveLeft_holds (h : Holds b z) : Holds (moveLeft b).2 z.left := by
  have hcur := h.cur
  rw [moveLeft, if_neg h.cur_le]
  have hleft := h.recur z.left z.left_text
  rw [Zipper.left_cursor] at hleft
  split_ifs with h0
  · have hz : ((z.cursor - 1 : ℕ) : ℤ) = b.cur := by omega
    rw [hz] at hleft
    exact hleft
  · have hz : ((z.cursor - 1 : ℕ) : ℤ) = b.cur - 1 := by omega
    rw [hz] at hleft
    exact hleft

theorem moveRight_holds (h : Holds b z) : Holds (moveRight b).2 z.right := by
  have hcur := h.cur
  have hend : b.len = toWord64 b.cur ↔ z.cursor = z.text.length := by
    rw [h.cur_word, h.len]
    exact eq_comm
  rw [moveRight, if_neg h.cur_le]
  have hright := h.recur z.right z.right_text
  rw [Zipper.right_cursor] at hright
  by_cases h1 : z.cursor = z.text.length
  · rw [if_pos (hend.mpr h1)]
    rw [if_pos h1, ← hcur] at hright
    exact hright
  · rw [if_neg (fun hc => h1 (hend.mp hc))]
    rw [if_neg h1, Nat.cast_succ, ← hcur] at hright
    exact hright

/-- What a key other than a newline makes of the line. -/
def edited (z : Zipper UInt8) (c : UInt8) : Zipper UInt8 :=
  if c = newline then ⟨[], z.text⟩ else (Ideal.key ⟨z, []⟩ c).line

theorem putc_holds (h : Holds b z) (c : UInt8) : Holds (ttyLineBufferPutc b c) (edited z c) := by
  rw [ttyLineBufferPutc, edited, Ideal.key]
  by_cases hnl : c = newline
  · have hne : c ≠ keyBackspace := by rw [hnl]; decide
    rw [if_neg hne, if_pos hnl, if_pos hnl]
    exact h.recur ⟨[], z.text⟩ rfl
  · rw [if_neg hnl, if_neg hnl]
    split_ifs with h1 h2 h3 h4
    · exact backspace_holds h
    · exact moveLeft_holds h
    · exact moveRight_holds h
    · have := insertChar_holds h c
      rwa [if_pos h4] at this
    · have := insertChar_holds h c
      rwa [if_neg h4] at this

end

/-! ### A key's way through `console_proc` -/

section
variable {s : Console} {e : Ideal}

/-- The console holds the line of the ideal editor and has sent what that has. -/
def Agrees (s : Console) (e : Ideal) : Prop := Holds s.lnbuf e.line ∧ s.sent = e.sent.map toInt8

theorem echo_holds {z : Zipper UInt8} (h : Holds s.lnbuf z) :
    Holds (updateLineBuffer s).lnbuf z ∧ (updateLineBuffer s).sent = s.sent := by
  obtain ⟨vram, heq⟩ := updateLineBuffer_eq s
  rw [heq]
  exact ⟨h.touch h.line_inside, rfl⟩

/-- STEP: a key. -/
theorem procKey_agrees (h : Agrees s e) (c : UInt8) : Agrees (procKey s c) (e.key c) := by
  obtain ⟨hline, hsent⟩ := h
  have hput := putc_holds hline c
  -- the line after the key, shown on the screen or not
  obtain ⟨s1, hs1, hholds, hsame⟩ : ∃ s1, (if s.echo then updateLineBuffer { s with lnbuf := ttyLineBufferPutc s.lnbuf c }
      else { s with lnbuf := ttyLineBufferPutc s.lnbuf c }) = s1 ∧ Holds s1.lnbuf (edited e.line c) ∧ s1.sent = s.sent := by
    refine ⟨_, rfl, ?_⟩
    split_ifs
    · exact echo_holds hput
    · exact ⟨hput, rfl⟩
  have hkey : procKey s c = if c = newline then
      { sendLine (putc s1 c) with lnbuf := { (sendLine (putc s1 c)).lnbuf with len := 0 } } else s1 := by
    rw [← hs1]
    rfl
  rw [hkey]
  by_cases hnl : c = newline
  · rw [if_pos hnl]
    obtain ⟨hbuf, hdev, -⟩ := putc_frame s1 c
    rw [edited, if_pos hnl] at hholds
    have hinside := (hholds.touch hholds.line_inside).inside
    have hideal : e.key c = ⟨Zipper.empty, e.sent ++ e.line.text ++ [newline]⟩ := by
      rw [Ideal.key, if_neg (by rw [hnl]; decide), if_pos hnl]
    rw [sendLine_eq, hbuf, hdev, hsame, hsent, hholds.text_eq, hideal]
    refine ⟨⟨?_, rfl, stored_nil, Nat.zero_le _, hinside⟩, ?_⟩
    · exact hholds.cur
    · simp [Zipper.text]
  · rw [if_neg hnl]
    rw [edited, if_neg hnl] at hholds
    have hsplit : (e.key c).line = (Ideal.key ⟨e.line, []⟩ c).line ∧ (e.key c).sent = e.sent := by
      simp only [Ideal.key, if_neg hnl]
      split_ifs <;> exact ⟨rfl, rfl⟩
    exact ⟨by rw [hsplit.1]; exact hholds, by rw [hsame, hsent, hsplit.2]⟩

/-- STEP: a byte from the device changes neither. -/
theorem putc_agrees (h : Agrees s e) (c : UInt8) : Agrees (putc s c) e := by
  obtain ⟨hbuf, hdev, -⟩ := putc_frame s c
  rw [Agrees, hbuf, hdev]
  exact h

/-- RUN: a call of `console_proc`. -/
theorem consoleProc_agrees (h : Agrees s e) (keys outs : List UInt8) :
    Agrees (consoleProc keys outs s) (keys.foldl Ideal.key e) := by
  have hkeys : Agrees (keys.foldl procKey s) (keys.foldl Ideal.key e) := by
    induction keys generalizing s e with
    | nil => exact h
    | cons c keys ih => exact ih (procKey_agrees h c)
  rw [consoleProc]
  generalize keys.foldl procKey s = s1 at hkeys
  induction outs generalizing s1 with
  | nil => exact hkeys
  | cons c outs ih => exact ih _ (putc_agrees hkeys c)

/-- RUN: any number of calls. -/
theorem calls_agree (h : Agrees s e) (calls : List (List UInt8 × List UInt8)) :
    Agrees (calls.foldl (fun s call => consoleProc call.1 call.2 s) s)
      ((calls.flatMap Prod.fst).foldl Ideal.key e) := by
  induction calls generalizing s e with
  | nil => exact h
  | cons call calls ih =>
    rw [foldl_cons, flatMap_cons, foldl_append]
    exact ih (consoleProc_agrees h call.1 call.2)

theorem Agrees.refines (h : Agrees s e) : Refines s e := by
  obtain ⟨hline, hsent⟩ := h
  have hle := e.line.cursor_le
  refine ⟨?_, ?_, ?_, ?_, hline.cur, hline.inside, hsent⟩
  · rw [hline.cur]
    exact Int.natCast_nonneg _
  · rw [hline.cur, hline.len]
    exact_mod_cast hle
  · rw [hline.len]
    exact hline.fits
  · exact hline.text_eq

end

/-- A console whose line buffer is fresh; the records start here. -/
def opened (s : Console) : Console :=
  { s with lnbuf := { ttyLineBufferInit s.lnbuf with log := [] }, sent := [] }

theorem opened_agrees (s : Console) : Agrees (opened s) ⟨Zipper.empty, []⟩ :=
  ⟨⟨rfl, rfl, stored_nil, Nat.zero_le _, within_nil⟩, rfl⟩

/-- After any keys, in any calls of `console_proc`, the console agrees with the ideal editor. A point
    within a call is the end of a call with fewer keys. -/
theorem line_editor_refines (s : Console) (calls : List (List UInt8 × List UInt8)) :
    Refines (calls.foldl (fun s call => consoleProc call.1 call.2 s) (opened s))
      ((calls.flatMap Prod.fst).foldl Ideal.key ⟨Zipper.empty, []⟩) :=
  (calls_agree (opened_agrees s) calls).refines

end Advos.Tty
