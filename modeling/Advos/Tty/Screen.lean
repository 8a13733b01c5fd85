import Advos.Schemes.Trace
import Advos.Tty.Editor

/-! The screen of the console: its two marks, and the video memory it writes.

        0 ........ lmark ........ eob ........ 2000
                   |  the line being edited |

    A newline on the last row scrolls, and `eob` goes back to its start. Nothing else does: a byte
    printed at `eob = 2000`, or a line shown that ends behind 2000, is written behind the screen. -/

namespace Advos.Tty
open Word Trace Indices List

/-- The cells of the screen. -/
def cells : ℤ := 2000

/-- The marks are on the screen, and so is every cell that was written or moved. -/
structure OnScreen (s : Console) : Prop where
  lmark_nonneg : 0 ≤ s.lmark
  lmark_le : s.lmark ≤ s.eob
  eob_le : s.eob ≤ cells
  inside : Within cells s.vlog

/-- A key, or a byte from the device. -/
inductive Event
  | key (c : UInt8) | output (c : UInt8)

/-- One round of the loops of `console_proc`. -/
def handle (s : Console) : Event → Console
  | .key c => procKey s c
  | .output c => putc s c

/-- The rounds of some calls of `console_proc`, in order. -/
def eventsOf (calls : List (List UInt8 × List UInt8)) : List Event :=
  calls.flatMap fun call => call.1.map .key ++ call.2.map .output

theorem calls_eq (calls : List (List UInt8 × List UInt8)) (s : Console) :
    calls.foldl (fun s call => consoleProc call.1 call.2 s) s = (eventsOf calls).foldl handle s := by
  induction calls generalizing s with
  | nil => rfl
  | cons call calls ih =>
    have hcall : consoleProc call.1 call.2 s = (call.1.map Event.key ++ call.2.map Event.output).foldl handle s := by
      rw [foldl_append, foldl_map, foldl_map]
      rfl
    rw [foldl_cons, ih, hcall, ← foldl_append]
    rfl

/-- The length of the line after a key. -/
def lenAfter (b : LineBuffer) (c : UInt8) : ℕ :=
  if c = keyBackspace then if b.cur = 0 then b.len else b.len - 1
  else if c = newline ∨ c = asciiLeft ∨ c = asciiRight then b.len
  else if b.len ≥ lineBufSize then b.len
  else b.len + 1

/-- What an event must meet. A line that is shown ends on the screen; a newline, and any byte
    printed but a backspace, finds the end of the text before the last cell. -/
def Fits (s : Console) : Event → Prop
  | .output c => c = keyBackspace ∨ s.eob < cells
  | .key c => (s.echo = true → s.lmark + lenAfter s.lnbuf c ≤ cells) ∧
      (c = newline → (if s.echo then s.lmark + s.lnbuf.len else s.eob) < cells)

/-! ### Printing -/

section
variable {s : Console}

theorem putc_newline_last (s : Console) (h : toWord64 s.eob / 80 + 1 = 25) :
    (putc s newline).lmark = (putc s newline).eob ∧ (putc s newline).eob = s.eob - (toWord64 s.eob % 80 : ℕ) ∧
      (putc s newline).vlog = s.vlog ++ span 80 1920 ++ span 0 1920 ++ span 1920 80 := by
  have hline : toWord64 s.eob / width + 1 = height := h
  have hput : putc s newline = { scroll s with
      eob := s.eob - (toWord64 s.eob % width : ℕ), lmark := s.eob - (toWord64 s.eob % width : ℕ) } := by
    simp only [putc, if_pos, if_pos hline]
  rw [hput]
  exact ⟨rfl, rfl, rfl⟩

theorem putc_newline_above (s : Console) (h : toWord64 s.eob / 80 + 1 ≠ 25) :
    (putc s newline).lmark = (putc s newline).eob ∧
      (putc s newline).eob = s.eob + (80 - toWord64 s.eob % 80 : ℕ) ∧ (putc s newline).vlog = s.vlog := by
  have hline : toWord64 s.eob / width + 1 ≠ height := h
  have hput : putc s newline = { s with
      eob := s.eob + (width - toWord64 s.eob % width : ℕ), lmark := s.eob + (width - toWord64 s.eob % width : ℕ) } := by
    simp only [putc, if_pos, if_neg hline]
  rw [hput]
  exact ⟨rfl, rfl, rfl⟩

theorem putc_backspace (s : Console) : (putc s keyBackspace).lmark = (putc s keyBackspace).eob ∧
    (putc s keyBackspace).eob = (if s.eob > 0 then s.eob - 1 else s.eob) ∧
    (putc s keyBackspace).vlog = if s.eob > 0 then s.vlog ++ [s.eob - 1] else s.vlog := by
  have hne : keyBackspace ≠ newline := by decide
  rw [putc, if_neg hne, if_pos rfl]
  split_ifs <;> exact ⟨rfl, rfl, rfl⟩

theorem putc_other (s : Console) {c : UInt8} (hnl : c ≠ newline) (hbs : c ≠ keyBackspace) :
    (putc s c).lmark = (putc s c).eob ∧ (putc s c).eob = s.eob + 1 ∧ (putc s c).vlog = s.vlog ++ [s.eob] := by
  rw [putc, if_neg hnl, if_neg hbs]
  exact ⟨rfl, rfl, rfl⟩

/-- STEP: a byte printed keeps to the screen iff it is a backspace or there is room. -/
theorem putc_onScreen_iff (h : OnScreen s) (c : UInt8) :
    OnScreen (putc s c) ↔ c = keyBackspace ∨ s.eob < cells := by
  obtain ⟨h0, hle, hend, hin⟩ := h
  have hcells : cells = 2000 := rfl
  by_cases hnl : c = newline
  · subst hnl
    have hne : newline ≠ keyBackspace := by decide
    have hword : toWord64 s.eob = s.eob.toNat := toWord64_of_nonneg (by omega) (by omega)
    by_cases hlast : toWord64 s.eob / 80 + 1 = 25
    · -- the last row: `eob` goes back to its start
      obtain ⟨hmark, heob, hlog⟩ := putc_newline_last s hlast
      rw [hword] at hlast heob
      refine ⟨fun _ => .inr (by omega), fun _ => ⟨by omega, by omega, by omega, ?_⟩⟩
      rw [hlog]
      exact ((hin.append (within_span (by omega) (by omega))).append (within_span (by omega) (by omega))).append
        (within_span (by omega) (by omega))
    · obtain ⟨hmark, heob, hlog⟩ := putc_newline_above s hlast
      rw [hword] at hlast heob
      constructor
      · intro hs
        have := hs.eob_le
        exact .inr (by omega)
      · rintro (hbs | hlt)
        · exact absurd hbs hne
        · exact ⟨by omega, by omega, by omega, by rw [hlog]; exact hin⟩
  · by_cases hbs : c = keyBackspace
    · subst hbs
      obtain ⟨hmark, heob, hlog⟩ := putc_backspace s
      refine ⟨fun _ => .inl rfl, fun _ => ?_⟩
      split_ifs at heob hlog with hpos
      · refine ⟨by omega, by omega, by omega, ?_⟩
        rw [hlog]
        exact hin.append (within_singleton (by omega) (by omega))
      · exact ⟨by omega, by omega, by omega, by rw [hlog]; exact hin⟩
    · obtain ⟨hmark, heob, hlog⟩ := putc_other s hnl hbs
      constructor
      · intro hs
        have := hs.eob_le
        exact .inr (by omega)
      · rintro (hb | hlt)
        · exact absurd hb hbs
        · refine ⟨by omega, by omega, by omega, ?_⟩
          rw [hlog]
          exact hin.append (within_singleton (by omega) (by omega))

theorem putc_vlog (s : Console) (c : UInt8) : s.vlog ⊆ (putc s c).vlog := by
  by_cases hnl : c = newline
  · subst hnl
    by_cases hlast : toWord64 s.eob / 80 + 1 = 25
    · rw [(putc_newline_last s hlast).2.2, append_assoc, append_assoc]
      exact subset_append_left _ _
    · rw [(putc_newline_above s hlast).2.2]
      exact List.Subset.refl _
  · by_cases hbs : c = keyBackspace
    · subst hbs
      rw [(putc_backspace s).2.2]
      split_ifs
      · exact subset_append_left _ _
      · exact List.Subset.refl _
    · rw [(putc_other s hnl hbs).2.2]
      exact subset_append_left _ _

/-! ### Showing the line -/

/-- STEP: showing the line keeps to the screen iff it ends there; the record alone shows it. -/
theorem echo_onScreen_iff (h : OnScreen s) :
    (OnScreen (updateLineBuffer s) ↔ s.lmark + s.lnbuf.len ≤ cells) ∧
      (Within cells (updateLineBuffer s).vlog → s.lmark + s.lnbuf.len ≤ cells) := by
  obtain ⟨h0, hle, hend, hin⟩ := h
  obtain ⟨vram, heq⟩ := updateLineBuffer_eq s
  rw [heq]
  have hlog : Within cells (s.vlog ++ span s.lmark (s.eob - s.lmark).toNat ++ span s.lmark s.lnbuf.len) →
      s.lmark + s.lnbuf.len ≤ cells := by
    intro hall
    by_contra hover
    -- the first cell behind the screen is among those written
    have := hall cells (mem_append_right _ (mem_span.mpr ⟨by omega, by omega⟩))
    omega
  refine ⟨⟨fun hs => hlog hs.inside, fun hfit => ⟨h0, Int.le_add_of_nonneg_right (Int.natCast_nonneg _), hfit, ?_⟩⟩, hlog⟩
  exact (hin.append (within_span h0 (by omega))).append (within_span h0 hfit)

/-! ### One event -/

variable {z : Zipper UInt8}

/-- The length of the edited line is the one the condition speaks of. -/
theorem lenAfter_eq {b : LineBuffer} (h : Holds b z) (c : UInt8) :
    (ttyLineBufferPutc b c).len = lenAfter b c := by
  have hcur := h.cur
  have hlen : z.text.length = z.cursor + z.after.length := length_append
  rw [(putc_holds h c).len, lenAfter, edited, Ideal.key, h.len]
  by_cases hbs : c = keyBackspace
  · have hnl : c ≠ newline := by rw [hbs]; decide
    have htext : z.backspace.text.length = z.cursor - 1 + z.after.length := by
      rw [Zipper.text, length_append]
      exact congrArg (· + _) z.cursor_backspace
    rw [if_neg hnl, if_pos hbs, if_pos hbs]
    simp only [htext]
    split_ifs <;> omega
  · rw [if_neg hbs, if_neg hbs]
    by_cases hnl : c = newline
    · rw [if_pos hnl, if_pos (.inl hnl)]
      rfl
    · rw [if_neg hnl, if_neg hnl]
      by_cases hl : c = asciiLeft
      · rw [if_pos hl, if_pos (.inr (.inl hl)), Zipper.left_text]
      · rw [if_neg hl]
        by_cases hr : c = asciiRight
        · rw [if_pos hr, if_pos (.inr (.inr hr)), Zipper.right_text]
        · have hinsert : ¬(c = newline ∨ c = asciiLeft ∨ c = asciiRight) := by tauto
          rw [if_neg hr, if_neg hinsert]
          split_ifs
          · rfl
          · exact Zipper.text_insert_length c z

/-- The console after a key has been put into the line and the line has been shown. -/
def shown (s : Console) (c : UInt8) : Console :=
  if s.echo then updateLineBuffer { s with lnbuf := ttyLineBufferPutc s.lnbuf c }
  else { s with lnbuf := ttyLineBufferPutc s.lnbuf c }

theorem procKey_eq (s : Console) (c : UInt8) : procKey s c = if c = newline then
    { sendLine (putc (shown s c) c) with lnbuf := { (sendLine (putc (shown s c) c)).lnbuf with len := 0 } }
    else shown s c := rfl

/-- The line is shown on the screen iff it ends there; the record alone tells, and the text ends with it. -/
theorem shown_onScreen_iff (h : OnScreen s) (hline : Holds s.lnbuf z) (c : UInt8) :
    (OnScreen (shown s c) ↔ (s.echo = true → s.lmark + lenAfter s.lnbuf c ≤ cells)) ∧
      (Within cells (shown s c).vlog → OnScreen (shown s c)) ∧
      (shown s c).eob = if s.echo then s.lmark + lenAfter s.lnbuf c else s.eob := by
  have h0 : OnScreen { s with lnbuf := ttyLineBufferPutc s.lnbuf c } :=
    ⟨h.lmark_nonneg, h.lmark_le, h.eob_le, h.inside⟩
  have hecho := echo_onScreen_iff h0
  simp only [lenAfter_eq hline c] at hecho
  rw [shown]
  split_ifs with he
  · obtain ⟨vram, heq⟩ := updateLineBuffer_eq { s with lnbuf := ttyLineBufferPutc s.lnbuf c }
    refine ⟨hecho.1.trans ⟨fun hfit _ => hfit, fun hfit => hfit he⟩, fun hin => hecho.1.mpr (hecho.2 hin), ?_⟩
    rw [heq, ← lenAfter_eq hline c]
  · exact ⟨⟨fun _ hc => absurd hc he, fun _ => h0⟩, fun _ => h0, rfl⟩

theorem sent_onScreen_iff (s : Console) :
    OnScreen { sendLine s with lnbuf := { (sendLine s).lnbuf with len := 0 } } ↔ OnScreen s := by
  rw [sendLine_eq]
  exact ⟨fun h => ⟨h.lmark_nonneg, h.lmark_le, h.eob_le, h.inside⟩,
    fun h => ⟨h.lmark_nonneg, h.lmark_le, h.eob_le, h.inside⟩⟩

/-- STEP: a key keeps to the screen iff it meets the condition. -/
theorem procKey_onScreen_iff (h : OnScreen s) (hline : Holds s.lnbuf z) (c : UInt8) :
    OnScreen (procKey s c) ↔ Fits s (.key c) := by
  obtain ⟨hshown, hrecord, heob⟩ := shown_onScreen_iff h hline c
  rw [procKey_eq, Fits]
  by_cases hnl : c = newline
  · have hsame : lenAfter s.lnbuf c = s.lnbuf.len := by
      rw [lenAfter, if_neg (by rw [hnl]; decide), if_pos (.inl hnl)]
    rw [if_pos hnl, sent_onScreen_iff]
    rw [hsame] at hshown heob ⊢
    constructor
    · -- what is printed behind the line is on the screen only if the line is
      intro hput
      have h1 := hrecord fun i hi => hput.inside i (putc_vlog _ c hi)
      refine ⟨hshown.mp h1, fun _ => ?_⟩
      rcases (putc_onScreen_iff h1 c).mp hput with hbs | hlt
      · rw [hnl] at hbs
        exact absurd hbs (by decide)
      · rwa [heob] at hlt
    · rintro ⟨hfit, hroom⟩
      refine (putc_onScreen_iff (hshown.mpr hfit) c).mpr (.inr ?_)
      rw [heob]
      exact hroom hnl
  · rw [if_neg hnl, hshown]
    exact ⟨fun hfit => ⟨hfit, fun hc => absurd hc hnl⟩, fun hfit => hfit.1⟩

/-- KEPT: after any event the buffer holds some line. -/
theorem handle_holds (ev : Event) (h : ∃ e, Agrees s e) : ∃ e, Agrees (handle s ev) e := by
  obtain ⟨e, h⟩ := h
  cases ev with
  | key c => exact ⟨_, procKey_agrees h c⟩
  | output c => exact ⟨_, putc_agrees h c⟩

/-- STEP: an event keeps to the screen iff it meets the condition. -/
theorem handle_onScreen_iff (ev : Event) (h : OnScreen s) (hline : ∃ e, Agrees s e) :
    OnScreen (handle s ev) ↔ Fits s ev := by
  obtain ⟨e, hline⟩ := hline
  cases ev with
  | key c => exact procKey_onScreen_iff h hline.1 c
  | output c => exact putc_onScreen_iff h c

end

/-! ### Runs -/

/-- The console as `console_init` leaves it, with a fresh line buffer; the records start here. -/
def started (s : Console) : Console := { opened (consoleInit s) with vlog := [] }

theorem started_onScreen (s : Console) : OnScreen (started s) :=
  ⟨le_refl 0, le_refl 0, by change (0 : ℤ) ≤ 2000; omega, within_nil⟩

theorem started_agrees (s : Console) : Agrees (started s) ⟨Zipper.empty, []⟩ :=
  ⟨(opened_agrees s).1, rfl⟩

/-- In every run of `console_proc`, which goes through the keys and bytes of its calls, the screen
    stays in the video memory iff every key and every byte printed meets the condition. -/
theorem screen_stays_iff (s : Console) (calls : List (List UInt8 × List UInt8)) :
    calls.foldl (fun s call => consoleProc call.1 call.2 s) (started s) = (eventsOf calls).foldl handle (started s) ∧
      (Throughout handle OnScreen (started s) (eventsOf calls) ↔ AllFit handle Fits (started s) (eventsOf calls)) :=
  ⟨calls_eq calls (started s), throughout_iff (fun _ ev h => handle_holds ev h)
    (fun _ ev h hline => handle_onScreen_iff ev h hline) (started_onScreen s) ⟨_, started_agrees s⟩⟩

/-- Printing `n` times the letter `a` moves the end of the text by `n`. -/
theorem letters_eob (n : ℕ) (s : Console) : (consoleProc [] (List.replicate n 97) s).eob = s.eob + n := by
  induction n generalizing s with
  | zero => exact (add_zero s.eob).symm
  | succ n ih =>
    have hstep : consoleProc [] (List.replicate (n + 1) 97) s = consoleProc [] (List.replicate n 97) (putc s 97) := rfl
    rw [hstep, ih, (putc_other s (by decide) (by decide)).2.1]
    push_cast
    ring

/-- A blank console. -/
def blankConsole : Console := ⟨⟨0, 0, fun _ => 0, []⟩, true, 0, 0, fun _ => 0, [], []⟩

/-- One call that finds 2001 letters from the device ends behind the screen. -/
theorem letters_leave_screen :
    ¬OnScreen (consoleProc [] (List.replicate 2001 97) (started blankConsole)) := by
  intro h
  have hend := h.eob_le
  rw [letters_eob] at hend
  change (0 : ℤ) + (2001 : ℕ) ≤ 2000 at hend
  omega

end Advos.Tty
