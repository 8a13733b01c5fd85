import Advos.Schemes.Span
import Advos.Schemes.Word

/-! The console of the tty driver (`tty.c`, `console.c`).

    Keys edit a line in `lnbuf`, which is shown on the screen from `lmark` on; a newline sends it to the
    device. What comes back from the device is put at `eob`, the end of what has been printed.

        key ──▶ tty_line_buffer_putc ──▶ _update_line_buffer ──▶ vram[lmark ...]
                       │ '\n'
                       ▼
                  driver_putc ──▶ device ──▶ driver_getc ──▶ _putc ──▶ vram[eob]

    Array indices are integers, and the model keeps the indices that have been accessed: those of
    `lnbuf.buf` and those of the video memory. `memmove` moves the bytes it should. The port accesses
    that set the hardware cursor are left out. -/

namespace Advos.Tty
open Word Indices

/-! ### The line buffer -/

/-- `TTY_LINEBUFSIZE`. -/
def lineBufSize : ℕ := 4096

/-- `tty_line_buffer_t`, and the indices of `buf` accessed so far. -/
structure LineBuffer where
  cur : ℤ
  len : ℕ
  buf : ℤ → UInt8
  log : List ℤ

/-- `buf[0..len)`. -/
def LineBuffer.text (b : LineBuffer) : List UInt8 := (List.range b.len).map fun i : ℕ => b.buf i

/-- `tty_line_buffer_init`. -/
def ttyLineBufferInit (b : LineBuffer) : LineBuffer := { b with cur := 0, len := 0 }

/-- `memmove(buf + dst, buf + src, n)`. -/
def LineBuffer.memmove (b : LineBuffer) (dst src : ℤ) (n : ℕ) : LineBuffer :=
  { b with
    buf := fun i => if dst ≤ i ∧ i < dst + n then b.buf (i - dst + src) else b.buf i
    log := b.log ++ span src n ++ span dst n }

/-- `buf[i] = c`. -/
def LineBuffer.store (b : LineBuffer) (i : ℤ) (c : UInt8) : LineBuffer :=
  { b with buf := Function.update b.buf i c, log := b.log ++ [i] }

/-- `_insert_char`. -/
def insertChar (b : LineBuffer) (c : UInt8) : ℤ × LineBuffer :=
  if b.len ≥ lineBufSize then (-1, b)
  else if b.len < toWord64 b.cur then (-1, b)
  else
    let b := if toWord64 b.cur ≠ b.len then b.memmove (b.cur + 1) b.cur (sub64 b.len (toWord64 b.cur)) else b
    (0, { b.store b.cur c with cur := b.cur + 1, len := add64 b.len 1 })

/-- `_backspace`. -/
def backspace (b : LineBuffer) : ℤ × LineBuffer :=
  if b.len < toWord64 b.cur then (-1, b)
  else if b.cur = 0 then (0, b)
  else
    let b := if toWord64 b.cur ≠ b.len then b.memmove (b.cur - 1) b.cur (sub64 b.len (toWord64 b.cur)) else b
    (0, { b with cur := b.cur - 1, len := sub64 b.len 1 })

/-- `_move_left`. -/
def moveLeft (b : LineBuffer) : ℤ × LineBuffer :=
  if b.len < toWord64 b.cur then (-1, b)
  else if b.cur = 0 then (0, b)
  else (0, { b with cur := b.cur - 1 })

/-- `_move_right`. -/
def moveRight (b : LineBuffer) : ℤ × LineBuffer :=
  if b.len < toWord64 b.cur then (-1, b)
  else if b.len = toWord64 b.cur then (0, b)
  else (0, { b with cur := b.cur + 1 })

/-- `ASCII_LEFT` and `ASCII_RIGHT`. -/
def asciiLeft : UInt8 := 0x83

def asciiRight : UInt8 := 0x84

/-- `'\x8'` and `'\n'`. -/
def keyBackspace : UInt8 := 8

def newline : UInt8 := 10

/-- `tty_line_buffer_putc`. -/
def ttyLineBufferPutc (b : LineBuffer) (c : UInt8) : LineBuffer :=
  if c = keyBackspace then (backspace b).2
  else if c = newline then { b with cur := 0 }
  else if c = asciiLeft then (moveLeft b).2
  else if c = asciiRight then (moveRight b).2
  else (insertChar b c).2

/-! ### The screen -/

/-- `screen.width` and `screen.height`. -/
def width : ℕ := 80

def height : ℕ := 25

/-- The console and its tty: the line buffer, the `ECHO` flag, the two marks of the screen, the video
    memory with the indices written or moved so far, and what was sent with `driver_putc`. -/
structure Console where
  lnbuf : LineBuffer
  echo : Bool
  eob : ℤ
  lmark : ℤ
  vram : ℤ → ℕ
  vlog : List ℤ
  sent : List ℤ

/-- `console_init`, once keyboard, video memory and device are there. -/
def consoleInit (s : Console) : Console :=
  { s with
    eob := 0
    lmark := 0
    vram := (span 0 (width * height)).foldl (fun vram i => Function.update vram i 0x0f20) s.vram }

/-- `vram[i] = cell`. -/
def Console.put (s : Console) (i : ℤ) (cell : ℕ) : Console :=
  { s with vram := Function.update s.vram i cell, vlog := s.vlog ++ [i] }

/-- `0x0f00 | c` in 16 bits; a `char` is signed. -/
def echoCell (c : UInt8) : ℕ := if c.toNat < 0x80 then 0x0f00 + c.toNat else 0xff00 + c.toNat

/-- `_update_line_buffer`: blank the old line, write the new one. -/
def updateLineBuffer (s : Console) : Console :=
  let s := (span s.lmark (s.eob - s.lmark).toNat).foldl (fun s i => s.put i 0x0f20) s
  let s := (List.range s.lnbuf.len).foldl (fun s (i : ℕ) =>
    { s.put (s.lmark + i) (echoCell (s.lnbuf.buf i)) with
      lnbuf := { s.lnbuf with log := s.lnbuf.log ++ [(i : ℤ)] } }) s
  { s with eob := s.lmark + s.lnbuf.len }

/-- The scrolling of `_putc`: the rows move up, the last one is cleared. -/
def scroll (s : Console) : Console :=
  { s with
    vram := fun i =>
      if 0 ≤ i ∧ i < width * (height - 1) then s.vram (i + width)
      else if width * (height - 1) ≤ i ∧ i < width * height then 0 else s.vram i
    vlog := s.vlog ++ span width (width * (height - 1)) ++ span 0 (width * (height - 1)) ++
      span (width * (height - 1) : ℕ) width }

/-- `_putc`. -/
def putc (s : Console) (c : UInt8) : Console :=
  if c = newline then
    let line := toWord64 s.eob / width
    let col := toWord64 s.eob % width
    let s := if line + 1 = height then { scroll s with eob := s.eob - col } else { s with eob := s.eob + (width - col : ℕ) }
    { s with lmark := s.eob }
  else if c = keyBackspace then
    let s := if s.eob > 0 then { s.put (s.eob - 1) 0x0f20 with eob := s.eob - 1 } else s
    { s with lmark := s.eob }
  else
    -- a tab is shown as a blank
    let c := if c = 9 then 32 else c
    let s := { s.put s.eob (0x0f ||| c.toNat) with eob := s.eob + 1 }
    { s with lmark := s.eob }

/-- The loop that sends the line, and the newline behind it. -/
def sendLine (s : Console) : Console :=
  let s := (List.range s.lnbuf.len).foldl (fun s (i : ℕ) =>
    { s with
      sent := s.sent ++ [toInt8 (s.lnbuf.buf i)]
      lnbuf := { s.lnbuf with log := s.lnbuf.log ++ [(i : ℤ)] } }) s
  { s with sent := s.sent ++ [toInt8 newline] }

/-- One key of `console_proc`. -/
def procKey (s : Console) (c : UInt8) : Console :=
  let s := { s with lnbuf := ttyLineBufferPutc s.lnbuf c }
  let s := if s.echo then updateLineBuffer s else s
  if c = newline then
    let s := sendLine (putc s c)
    { s with lnbuf := { s.lnbuf with len := 0 } }
  else s

/-- `console_proc`, with the keys and the device bytes that are there for it. -/
def consoleProc (keys outs : List UInt8) (s : Console) : Console := outs.foldl putc (keys.foldl procKey s)

/-! ### What the loops touch -/

/-- A loop that fills cells changes the video memory and its record, nothing else. -/
theorem fill_eq (l : List ℤ) (cell : ℕ) (s : Console) :
    ∃ vram, l.foldl (fun s i => s.put i cell) s = { s with vram := vram, vlog := s.vlog ++ l } := by
  induction l generalizing s with
  | nil => exact ⟨s.vram, by rw [List.append_nil, List.foldl_nil]⟩
  | cons i l ih =>
    obtain ⟨vram, h⟩ := ih (s.put i cell)
    refine ⟨vram, ?_⟩
    rw [List.foldl_cons, h]
    simp only [Console.put, List.append_assoc, List.cons_append, List.nil_append]

theorem updateLineBuffer_eq (s : Console) : ∃ vram, updateLineBuffer s =
    { s with
      eob := s.lmark + s.lnbuf.len
      vram := vram
      vlog := s.vlog ++ span s.lmark (s.eob - s.lmark).toNat ++ span s.lmark s.lnbuf.len
      lnbuf := { s.lnbuf with log := s.lnbuf.log ++ span 0 s.lnbuf.len } } := by
  have hshow : ∀ (n : ℕ) (s : Console), ∃ vram, (List.range n).foldl (fun s (i : ℕ) =>
      { s.put (s.lmark + i) (echoCell (s.lnbuf.buf i)) with
        lnbuf := { s.lnbuf with log := s.lnbuf.log ++ [(i : ℤ)] } }) s =
      { s with
        vram := vram
        vlog := s.vlog ++ span s.lmark n
        lnbuf := { s.lnbuf with log := s.lnbuf.log ++ span 0 n } } := by
    intro n s
    induction n with
    | zero => exact ⟨s.vram, by simp [span]⟩
    | succ n ih =>
      obtain ⟨vram, h⟩ := ih
      refine ⟨Function.update vram (s.lmark + n) (echoCell (s.lnbuf.buf n)), ?_⟩
      rw [List.range_succ, List.foldl_append, h]
      simp [Console.put, span, List.range_succ]
  rw [updateLineBuffer]
  obtain ⟨vram, h⟩ := fill_eq (span s.lmark (s.eob - s.lmark).toNat) 0x0f20 s
  simp only [h]
  obtain ⟨vram', h'⟩ := hshow s.lnbuf.len
    { s with vram := vram, vlog := s.vlog ++ span s.lmark (s.eob - s.lmark).toNat }
  simp only [h']
  exact ⟨vram', rfl⟩

theorem sendLine_eq (s : Console) : sendLine s =
    { s with
      sent := s.sent ++ s.lnbuf.text.map toInt8 ++ [toInt8 newline]
      lnbuf := { s.lnbuf with log := s.lnbuf.log ++ span 0 s.lnbuf.len } } := by
  have hloop : ∀ (n : ℕ) (s : Console), (List.range n).foldl (fun s (i : ℕ) =>
      { s with
        sent := s.sent ++ [toInt8 (s.lnbuf.buf i)]
        lnbuf := { s.lnbuf with log := s.lnbuf.log ++ [(i : ℤ)] } }) s =
      { s with
        sent := s.sent ++ ((List.range n).map fun i : ℕ => s.lnbuf.buf i).map toInt8
        lnbuf := { s.lnbuf with log := s.lnbuf.log ++ span 0 n } } := by
    intro n s
    induction n with
    | zero => simp [span]
    | succ n ih =>
      rw [List.range_succ, List.foldl_append, ih]
      simp [span, List.range_succ]
  rw [sendLine, hloop]
  rfl

theorem putc_frame (s : Console) (c : UInt8) :
    (putc s c).lnbuf = s.lnbuf ∧ (putc s c).sent = s.sent ∧ (putc s c).echo = s.echo := by
  simp only [putc]
  split_ifs <;> exact ⟨rfl, rfl, rfl⟩

end Advos.Tty
