import Advos.Schemes.Span
import Advos.Schemes.Trace
import Advos.Schemes.Word

/-! The kernel's console on the video memory (`vconsole.c`), 25 rows of 80 cells of 16 bits.

    `pos` is the cell of the cursor. `column` counts the characters printed since the last CR, which
    subtracts it again; LF goes to the start of a later row, with the help of `column_save`. When the
    position runs over the last row the screen is to move up by one row:

        kmemmove(video, video + 80, 80 * 24)       bytes, so 960 cells: rows 0 to 11 move, 12 to 24 stay
        kmemset(video + 80 * 25, 0, 80)            the 40 cells behind the screen

    The second call is only made by LF. The model keeps the cells accessed, and for each scrolling the
    screen before and after it. `kmemmove` copies upwards here (the source is the higher address). -/

namespace Advos.Vconsole
open Word Trace Indices Function List

/-- The screen before and after it was moved, and the position then. -/
structure Scrolling where
  before : ℤ → ℕ
  after : ℤ → ℕ
  pos : ℤ

/-- `arch_video_console_t` with the video memory, the cells accessed and the scrollings so far. -/
structure Vcon where
  video : ℤ → ℕ
  pos : ℤ
  column : ℤ
  columnSave : ℤ
  log : List ℤ
  scrollings : List Scrolling

/-- `vconsole_init`, on whatever the video memory holds. -/
def vconsoleInit (video : ℤ → ℕ) : Vcon := ⟨video, 0, 0, 0, [], []⟩

/-- The cells after `kmemmove(video, video + 80, 80 * 24)`. -/
def moveRows (video : ℤ → ℕ) : ℤ → ℕ := fun i => if 0 ≤ i ∧ i < 960 then video (i + 80) else video i

/-- That call, from `before` to a screen with the cursor at `pos`. -/
def Vcon.kmemmove (v : Vcon) (pos : ℤ) : Vcon :=
  { v with
    video := moveRows v.video
    pos := pos
    log := v.log ++ span 80 960 ++ span 0 960
    scrollings := v.scrollings ++ [⟨v.video, moveRows v.video, pos⟩] }

/-- `kmemset(video + 80 * 25, 0, 80)`. -/
def Vcon.kmemset (v : Vcon) : Vcon :=
  { v with
    video := fun i => if 2000 ≤ i ∧ i < 2040 then 0 else v.video i
    log := v.log ++ span 2000 40 }

/-- One cell written at the cursor, as for a printable character. -/
def putCell (v : Vcon) (cell : ℕ) : Vcon :=
  let column := wrap32 (v.column + 1)
  let v := { v with
    video := Function.update v.video v.pos cell
    log := v.log ++ [v.pos]
    pos := wrap32 (v.pos + 1), column := column, columnSave := column }
  if v.pos ≥ 80 * 25 then v.kmemmove (v.pos - 80) else v

/-- The tab's loop; the column is a multiple of 4 after at most four cells. -/
def putTab : ℕ → Vcon → Vcon
  | 0, v => v
  | n + 1, v =>
    let v := putCell v 0x0720
    if v.column.tmod 4 ≠ 0 then putTab n v else v

/-- `((pos + column_save + 79) / 80) * 80`. -/
def Vcon.next (v : Vcon) : ℤ := (wrap32 (v.pos + v.columnSave + 79)).tdiv 80 * 80

/-- One byte of `vconsole_write`; a `char` is signed. -/
def putByte (v : Vcon) (b : UInt8) : Vcon :=
  let c := toInt8 b
  if c = 13 then { v with pos := wrap32 (v.pos - v.column), column := 0 }
  else if c = 10 then
    let v := if v.next ≥ 80 * 25 then (v.kmemmove (80 * 24)).kmemset else { v with pos := v.next }
    { v with columnSave := 0 }
  else if 0x20 ≤ c ∧ c ≤ 0x7e then putCell v (0x0700 ||| c.toNat)
  else if c = 9 then putTab 4 v
  else v

/-- `vconsole_write`. -/
def vconsoleWrite (v : Vcon) (buf : List UInt8) : Vcon := buf.foldl putByte v

/-! ### The property -/

/-- A cell that shows nothing. -/
def Blank (cell : ℕ) : Prop := cell % 256 = 0 ∨ cell % 256 = 0x20

/-- Rows move up by one, and the last row is blank from the cursor on. -/
structure Scrolling.Proper (s : Scrolling) : Prop where
  rows : ∀ i, 0 ≤ i → i < 1920 → s.after i = s.before (i + 80)
  last : ∀ i, 1920 ≤ i → i < 2000 → s.pos ≤ i → Blank (s.after i)

/-- The cursor is on the screen, so is every cell that was accessed, and it has scrolled as it should. -/
structure Good (v : Vcon) : Prop where
  pos_nonneg : 0 ≤ v.pos
  pos_lt : v.pos < 2000
  inside : Within 2000 v.log
  scrolled : ∀ s ∈ v.scrollings, s.Proper

/-! ### The condition -/

/-- A cell written into the last place, which makes the screen scroll, finds the rows that do not
    move equal to the ones below them, and the last row blank. -/
structure AllAlike (video : ℤ → ℕ) : Prop where
  rows : ∀ i, 960 ≤ i → i < 1920 → video i = video (i + 80)
  last : ∀ i, 1920 ≤ i → i < 2000 → Blank (video i)

def CellFits (v : Vcon) (cell : ℕ) : Prop := v.pos = 1999 → AllAlike (Function.update v.video 1999 cell)

/-- Every cell of a tab does. -/
def TabFits : ℕ → Vcon → Prop
  | 0, _ => True
  | n + 1, v => CellFits v 0x0720 ∧ ((putCell v 0x0720).column.tmod 4 ≠ 0 → TabFits n (putCell v 0x0720))

/-- What a byte must meet in the state it finds. -/
def Fits (v : Vcon) (b : UInt8) : Prop :=
  let c := toInt8 b
  if c = 13 then 0 ≤ wrap32 (v.pos - v.column) ∧ wrap32 (v.pos - v.column) < 2000
  else if c = 10 then 0 ≤ v.next ∧ v.next < 2000
  else if 0x20 ≤ c ∧ c ≤ 0x7e then CellFits v (0x0700 ||| c.toNat)
  else if c = 9 then TabFits 4 v
  else True

section
variable {v : Vcon} {cell : ℕ}

theorem moveRows_proper_iff (video : ℤ → ℕ) :
    Scrolling.Proper ⟨video, moveRows video, 1920⟩ ↔ AllAlike video := by
  constructor
  · intro h
    refine ⟨fun i h0 h1 => ?_, fun i h0 h1 => ?_⟩
    · have hrow := h.rows i (by omega) h1
      simp only [moveRows] at hrow
      rwa [if_neg (by omega)] at hrow
    · have hlast := h.last i h0 h1 h0
      simp only [moveRows] at hlast
      rwa [if_neg (by omega)] at hlast
  · intro h
    refine ⟨fun i h0 h1 => ?_, fun i h0 h1 _ => ?_⟩
    · simp only [moveRows]
      split_ifs with hmoved
      · rfl
      · exact h.rows i (by omega) h1
    · simp only [moveRows]
      rw [if_neg (by omega)]
      exact h.last i h0 h1

/-! ### One cell -/

theorem putCell_before (h : Good v) (hpos : v.pos ≠ 1999) : putCell v cell =
    { v with
      video := update v.video v.pos cell, log := v.log ++ [v.pos], pos := v.pos + 1
      column := wrap32 (v.column + 1), columnSave := wrap32 (v.column + 1) } := by
  have h0 := h.pos_nonneg
  have h1 := h.pos_lt
  have hwrap : wrap32 (v.pos + 1) = v.pos + 1 := wrap32_of_range (by omega) (by omega)
  simp only [putCell, hwrap]
  rw [if_neg (by omega)]

theorem putCell_last (hpos : v.pos = 1999) : putCell v cell =
    { v with
      video := moveRows (update v.video 1999 cell)
      log := v.log ++ [1999] ++ span 80 960 ++ span 0 960, pos := 1920
      column := wrap32 (v.column + 1), columnSave := wrap32 (v.column + 1)
      scrollings := v.scrollings ++
        [⟨update v.video 1999 cell, moveRows (update v.video 1999 cell), 1920⟩] } := by
  have hwrap : wrap32 (1999 + 1) = 2000 := by decide
  simp only [putCell, hpos, hwrap]
  rw [if_pos (by omega)]
  rfl

/-- Position and accesses are right after any cell; what may be wrong is how it scrolled. -/
theorem putCell_good_of (h : Good v) (hs : ∀ s ∈ (putCell v cell).scrollings, s.Proper) : Good (putCell v cell) := by
  have h0 := h.pos_nonneg
  have h1 := h.pos_lt
  by_cases hpos : v.pos = 1999
  · rw [putCell_last hpos] at hs ⊢
    refine ⟨by dsimp only; omega, by dsimp only; omega, ?_, hs⟩
    exact ((h.inside.append (within_singleton (by omega) (by omega))).append
      (within_span (by omega) (by omega))).append (within_span (by omega) (by omega))
  · rw [putCell_before h hpos] at hs ⊢
    exact ⟨by dsimp only; omega, by dsimp only; omega, h.inside.append (within_singleton h0 h1), hs⟩

theorem putCell_scrollings (v : Vcon) (cell : ℕ) : v.scrollings ⊆ (putCell v cell).scrollings := by
  simp only [putCell]
  split_ifs
  · exact subset_append_left _ _
  · exact List.Subset.refl _

/-- STEP: a cell. -/
theorem putCell_good_iff (h : Good v) : Good (putCell v cell) ↔ CellFits v cell := by
  rw [CellFits]
  by_cases hpos : v.pos = 1999
  · rw [← moveRows_proper_iff]
    constructor
    · intro hgood _
      refine hgood.scrolled _ ?_
      rw [putCell_last hpos]
      exact mem_append_right _ mem_cons_self
    · intro hproper
      refine putCell_good_of h fun s hs => ?_
      rw [putCell_last hpos] at hs
      rcases mem_append.mp hs with hs | hs
      · exact h.scrolled s hs
      · rw [mem_singleton] at hs
        rw [hs]
        exact hproper hpos
  · refine ⟨fun _ hc => absurd hc hpos, fun _ => putCell_good_of h fun s hs => ?_⟩
    rw [putCell_before h hpos] at hs
    exact h.scrolled s hs

/-! ### A tab -/

theorem putTab_scrollings (n : ℕ) (v : Vcon) : v.scrollings ⊆ (putTab n v).scrollings := by
  induction n generalizing v with
  | zero => exact List.Subset.refl _
  | succ n ih =>
    have hcell := putCell_scrollings v 0x0720
    simp only [putTab]
    split_ifs
    · exact List.Subset.trans hcell (ih _)
    · exact hcell

/-- RUN: the cells of a tab. -/
theorem putTab_good_iff (n : ℕ) (h : Good v) : Good (putTab n v) ↔ TabFits n v := by
  induction n generalizing v with
  | zero => exact ⟨fun _ => trivial, fun _ => h⟩
  | succ n ih =>
    have hcell : Good (putCell v 0x0720) ↔ CellFits v 0x0720 := putCell_good_iff h
    simp only [putTab, TabFits]
    split_ifs with hcol
    · constructor
      · intro hgood
        have hfirst : Good (putCell v 0x0720) :=
          putCell_good_of h fun s hs => hgood.scrolled s (putTab_scrollings n _ hs)
        exact ⟨hcell.mp hfirst, fun _ => (ih hfirst).mp hgood⟩
      · rintro ⟨hfit, hrest⟩
        exact (ih (hcell.mpr hfit)).mpr (hrest hcol)
    · exact hcell.trans ⟨fun hfit => ⟨hfit, fun hc => absurd hc hcol⟩, fun hfit => hfit.1⟩

/-! ### One byte, and all of them -/

/-- STEP: a byte. -/
theorem putByte_good_iff (b : UInt8) (h : Good v) : Good (putByte v b) ↔ Fits v b := by
  simp only [putByte, Fits]
  split_ifs with hcr hlf hscroll hprint htab
  · exact ⟨fun hgood => ⟨hgood.pos_nonneg, hgood.pos_lt⟩, fun hfit => ⟨hfit.1, hfit.2, h.inside, h.scrolled⟩⟩
  · -- LF that scrolls writes behind the screen
    constructor
    · intro hgood
      have hout := hgood.inside 2000 (mem_append_right _ (mem_span.mpr ⟨le_refl _, by omega⟩))
      omega
    · intro hfit
      omega
  · exact ⟨fun hgood => ⟨hgood.pos_nonneg, hgood.pos_lt⟩, fun hfit => ⟨hfit.1, hfit.2, h.inside, h.scrolled⟩⟩
  · exact putCell_good_iff h
  · exact putTab_good_iff 4 h
  · exact ⟨fun _ => trivial, fun _ => h⟩

end

theorem init_good (video : ℤ → ℕ) : Good (vconsoleInit video) :=
  ⟨le_refl 0, by change (0 : ℤ) < 2000; omega, within_nil, fun s hs => by cases hs⟩

/-- In every run of `vconsole_write` the console stays on the screen and scrolls as it should iff
    every byte meets the condition. -/
theorem console_stays_iff (video : ℤ → ℕ) (bufs : List (List UInt8)) :
    bufs.foldl vconsoleWrite (vconsoleInit video) = bufs.flatten.foldl putByte (vconsoleInit video) ∧
      (Throughout putByte Good (vconsoleInit video) bufs.flatten ↔
        AllFit putByte Fits (vconsoleInit video) bufs.flatten) := by
  refine ⟨?_, throughout_iff (Q := fun _ => True) (fun _ _ _ => trivial) (fun _ b h _ => putByte_good_iff b h)
    (init_good video) trivial⟩
  rw [List.foldl_flatten]
  rfl

/-- 25 line feeds, each after a letter: the last one scrolls. -/
theorem line_feed_leaves_screen :
    ¬Good (vconsoleWrite (vconsoleInit fun _ => 0) (List.replicate 25 [97, 13, 10]).flatten) := by
  intro h
  have hout : (2000 : ℤ) ∈ (vconsoleWrite (vconsoleInit fun _ => 0) (List.replicate 25 [97, 13, 10]).flatten).log := by
    decide +kernel
  have := h.inside 2000 hout
  omega

end Advos.Vconsole
