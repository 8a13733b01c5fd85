import Advos.Pgt.Runs

/-! 4 KiB calls inside a 2 MiB page.

    On the way to a page table neither `pgt_map` nor `pgt_unmap` tests the `page` bit of the directory's
    entry. For a 2 MiB page they take the first 4 KiB of its frame for the page table:

        PD entry | frame … | page = 1 |  ──▶  frame:  word 0, word 1, …, word 511, data …
                                                        └ "entry" of the address

    The word found there decides. With bit 0 set `pgt_map` is refused and `pgt_unmap` clears data; with
    bit 0 clear `pgt_unmap` is refused and `pgt_map` writes an entry over data. -/

namespace Advos.Pgt

variable {b : Buffer} {t : PageTable} {used : Used} {fr : List ℕ} {a v : ℕ}

/-- The word of the frame of `v` that a 4 KiB call takes for an entry. -/
def frameWord (t : PageTable) (v : ℕ) : ℕ :=
  match walk t v with
  | some x => t.mem (slot (p2v t x.frame) (index v 12))
  | none => 0

/-- A 4 KiB call inside a 2 MiB page meets a word that makes it return -1. -/
def Call.Held (t : PageTable) : Call → Prop
  | .map virtual physical superpage _ _ _ => virtual < 2 ^ 64 ∧ physical < 2 ^ 52 ∧
    (superpage = 0 → InLarge t virtual → present (frameWord t virtual) = true)
  | .unmap virtual superpage => virtual < 2 ^ 64 ∧
    (superpage = 0 → InLarge t virtual → present (frameWord t virtual) = false)
  | .prepare virtual => virtual < 2 ^ 64

def HeldStep (t t' : PageTable) : Prop := ∃ c : Call, c.Held t ∧ t' = (c.run t).2

/-- The page tables that runs of such calls lead to. -/
def HeldReach (b : Buffer) (t : PageTable) : Prop :=
  ∃ mem t0, pgtInit mem b.base b.nr b.p2v = some t0 ∧ Relation.ReflTransGen HeldStep t0 t

/-! ### The word -/

section
variable (T : Tree b t used fr)
include T

theorem Tree.in_large (hl : InLarge t v) :
    ∃ d, used [index v 21, index v 30, index v 39] = none ∧ used [index v 30, index v 39] = some d ∧
      present (word b t d (index v 21)) = true := by
  obtain ⟨x, hx, hsize⟩ := hl
  rw [T.walk_eq] at hx
  cases hpt : used [index v 21, index v 30, index v 39] with
  | some pt =>
    rw [view_pt hpt, leafOf] at hx
    split at hx
    · cases hx
      cases hsize
    · cases hx
  | none =>
  cases hpd : used [index v 30, index v 39] with
  | none =>
    rw [T.view_none hpd] at hx
    cases hx
  | some d =>
    refine ⟨d, rfl, rfl, ?_⟩
    rw [view_pd hpt hpd, leafOf] at hx
    split at hx
    · assumption
    · cases hx

/-- The entry of a 2 MiB page, with the frame that the hardware and the code find in it. -/
theorem Tree.large_entry (K : Kept b ⟨t, used, fr⟩) (hl : InLarge t v) :
    ∃ d pa, used [index v 30, index v 39] = some d ∧ lookup t (b.page d) (index v 21) = some (Pgt.p2v t pa) ∧
      frameWord t v = t.mem (slot (Pgt.p2v t pa) (index v 12)) := by
  obtain ⟨d, hpt, hpd, hpres⟩ := T.in_large hl
  have hleaf := (K.leaf hpd (index_lt v 21) hpt).resolve_left fun h0 => by
    dsimp only at h0
    rw [h0] at hpres
    cases hpres
  obtain ⟨w, hw⟩ : ∃ w, w = word b t d (index v 21) := ⟨_, rfl⟩
  dsimp only at hleaf
  rw [← hw] at hleaf hpres
  have hmem : t.mem (slot (b.page d) (index v 21)) = w := hw.symm
  obtain ⟨n, hn⟩ : ∃ n, n = [index v 30, index v 39].length := ⟨_, rfl⟩
  rw [← hn] at hleaf
  cases hleaf with
  | small => cases hn
  | @large pa ha hpa global rw user =>
    have hlt := leafFlags_lt true global rw user
    refine ⟨d, pa, hpd, ?_, ?_⟩
    · rw [lookup, hmem, if_pos hpres, maskPage_flags (by omega) hlt hpa]
    · rw [frameWord, T.walk_eq, view_pd hpt hpd, ← hw, leafOf, if_pos hpres]
      simp only [leaf, frameOf_flags (by decide : 12 ≤ 21) (by decide) ha hlt hpa]

theorem Tree.directory_eq (ha : used [index v 30, index v 39] = some a) :
    directory t v = (some (b.page a), t) ∧ ∃ c, lookup t (pml4 t) (index v 39) = some (b.page c) ∧
      lookup t (b.page c) (index v 30) = some (b.page a) := by
  obtain ⟨-, c, hc⟩ := T.up ha
  have h4 := (T.lookup_table hc T.root).2
  have h3 := (T.lookup_table ha hc).2
  rw [← T.pml4_eq] at h4
  refine ⟨?_, c, h4, h3⟩
  simp only [directory, nextTable, h4, h3]

theorem pgtMap_in_large (K : Kept b ⟨t, used, fr⟩) (hv : v < 2 ^ 64) (hl : InLarge t v) (physical : ℕ)
    (global rw user : ℤ) :
    pgtMap t v physical 0 global rw user = (-1, t) ↔ present (frameWord t v) = true := by
  obtain ⟨d, pa, hd, h2, hword⟩ := T.large_entry K hl
  obtain ⟨h39, h30, h21⟩ := index_align_page 0 hv
  have h12 : index (align v (pageShift 0)) 12 = index v 12 := index_align hv le_rfl
  rw [← h30, ← h39] at hd
  have hmap : pgtMap t v physical 0 global rw user =
      mapEntry t (slot (p2v t pa) (index v 12)) fun e => mapSmall e (align physical (pageShift 0)) global rw user := by
    simp only [pgtMap, (T.directory_eq hd).1, ne_eq, not_true_eq_false, if_false, nextTable, h21, h2, h12]
  rw [hmap, hword, mapEntry]
  cases present (t.mem (slot (p2v t pa) (index v 12))) <;> simp

theorem pgtUnmap_in_large (K : Kept b ⟨t, used, fr⟩) (hv : v < 2 ^ 64) (hl : InLarge t v) :
    pgtUnmap t v 0 = (-1, t) ↔ present (frameWord t v) = false := by
  obtain ⟨d, pa, hd, h2, hword⟩ := T.large_entry K hl
  obtain ⟨h39, h30, h21⟩ := index_align_page 0 hv
  have h12 : index (align v (pageShift 0)) 12 = index v 12 := index_align hv le_rfl
  rw [← h30, ← h39] at hd
  obtain ⟨-, c, h4, h3⟩ := T.directory_eq hd
  rw [hword]
  simp only [pgtUnmap, h4, h3, h21, h2, ne_eq, not_true_eq_false, if_false, h12]
  cases present (t.mem (slot (p2v t pa) (index v 12))) <;> simp

/-! ### Runs -/

/-- STEP: a call that is held is allowed, or leaves the page table as it is. -/
theorem Call.Held.step (K : Kept b ⟨t, used, fr⟩) {c : Call} (h : c.Held t) :
    c.Allowed t ∨ (c.run t).2 = t := by
  cases c with
  | map virtual physical superpage global rw user =>
    obtain ⟨hv, hphys, hword⟩ := h
    by_cases hl : superpage = 0 ∧ InLarge t virtual
    · obtain ⟨rfl, hl⟩ := hl
      exact .inr (congrArg Prod.snd ((pgtMap_in_large T K hv hl physical global rw user).mpr (hword rfl hl)))
    · exact .inl ⟨hv, hphys, fun hs h => hl ⟨hs, h⟩⟩
  | unmap virtual superpage =>
    obtain ⟨hv, hword⟩ := h
    by_cases hl : superpage = 0 ∧ InLarge t virtual
    · obtain ⟨rfl, hl⟩ := hl
      exact .inr (congrArg Prod.snd ((pgtUnmap_in_large T K hv hl).mpr (hword rfl hl)))
    · exact .inl ⟨hv, fun hs h => hl ⟨hs, h⟩⟩
  | prepare virtual => exact .inl h

end

theorem HeldReach.reach (h : HeldReach b t) : Reach b t := by
  obtain ⟨mem, t0, hinit, hrun⟩ := h
  refine Run.invariant hrun ⟨mem, t0, hinit, .refl⟩ ?_
  rintro t t' hr ⟨c, hheld, rfl⟩
  obtain ⟨used, fr, T, K⟩ := hr.shape
  rcases hheld.step T K with hok | hsame
  · obtain ⟨mem, t0, hinit, hrun⟩ := hr
    exact ⟨mem, t0, hinit, hrun.tail ⟨c, hok, rfl⟩⟩
  · rwa [hsame]

/-- In a run of held calls, a 4 KiB call inside a 2 MiB page returns -1 and changes nothing exactly if it
    is held, too. No word holds both calls. -/
theorem small_calls_in_large (h : HeldReach b t) (hv : v < 2 ^ 64) (hl : InLarge t v) :
    (∀ physical global rw user,
      pgtMap t v physical 0 global rw user = (-1, t) ↔ present (frameWord t v) = true) ∧
    (pgtUnmap t v 0 = (-1, t) ↔ present (frameWord t v) = false) ∧
    ∀ physical global rw user,
      ¬(pgtMap t v physical 0 global rw user = (-1, t) ∧ pgtUnmap t v 0 = (-1, t)) := by
  obtain ⟨used, fr, T, K⟩ := h.reach.shape
  have hmap := pgtMap_in_large T K hv hl
  have hunmap := pgtUnmap_in_large T K hv hl
  refine ⟨hmap, hunmap, fun physical global rw user hboth => ?_⟩
  have h1 := (hmap physical global rw user).mp hboth.1
  rw [hunmap.mp hboth.2] at h1
  cases h1

/-- Four pages in zeroed memory, with 2 MiB at 1 GiB mapped. -/
def oneLarge : PageTable :=
  match pgtInit (fun _ => 0) fourPages.base fourPages.nr fourPages.p2v with
  | some t => (pgtMap t 0x40000000 0x600000 1 0 1 0).2
  | none => ⟨0, 0, 0, fun _ => 0⟩

theorem oneLarge_reach : HeldReach fourPages oneLarge :=
  ⟨fun _ => 0, _, rfl, .single ⟨.map 0x40000000 0x600000 1 0 1 0, ⟨by decide, by decide, nofun⟩, rfl⟩⟩

theorem oneLarge_large : InLarge oneLarge 0x40003000 :=
  ⟨⟨0x600000, 0x200000, true, false⟩, by decide +kernel, rfl⟩

theorem small_calls_in_large_zero : pgtUnmap oneLarge 0x40003000 0 = (-1, oneLarge) :=
  (small_calls_in_large oneLarge_reach (by decide) oneLarge_large).2.1.mpr (by decide +kernel)

/-- `pgt_map` returns 0 and writes into the frame. -/
theorem small_map_overwrites_frame :
    HeldReach fourPages oneLarge ∧ InLarge oneLarge 0x40003000 ∧
      (pgtMap oneLarge 0x40003000 0x5000 0 0 1 0).1 = 0 ∧
      oneLarge.mem 0x600018 = 0 ∧ (pgtMap oneLarge 0x40003000 0x5000 0 0 1 0).2.mem 0x600018 = 0x5003 :=
  ⟨oneLarge_reach, oneLarge_large, by decide +kernel, by decide +kernel, by decide +kernel⟩

end Advos.Pgt
