import Advos.Vmem.Maps
import Advos.Vmem.Restored

/-! The allocation at any address, when a call inside it is refused.

    `_alloc_pages_block` takes four nodes, and for every page a node, a frame and a mapping:

        nodes   e o f0 f1 | p0      p1      p2
        frames            |    r0      r1      r2
        map               |      m0      m1      x

    The page that is refused gives back what it has. The pages before it are unmapped from the first to
    the last, at the addresses that their orders add up to; each frees its frame and its node, and the
    four nodes follow. A page is mapped only where nothing is, so the pages do not overlap and the order
    does not matter. -/

namespace Advos.Space
open Vmem SearchTree Word Arc List

variable {σ α : Type} {E : Env σ} {v : ℕ} {live : σ → Set ℕ} {tr : σ → ℕ → Option α}

/-- The laws of a page table in which `ifs.unmap` undoes `ifs.map`. The address `y` is translated to
    `tr s y`. -/
structure Undoes (E : Env σ) (tr : σ → ℕ → Option α) : Prop where
  inert : Inert E tr
  physAlloc : ∀ s k z d, tr (E.physAlloc s k z d).2 = tr s
  physFree : ∀ s r k z d, tr (E.physFree s r k z d) = tr s
  refused : ∀ s a x p fl, (E.map s a x p fl).1 < 0 → tr (E.map s a x p fl).2 = tr s
  /-- A page is mapped where nothing is, and only there. -/
  mapped : ∀ s a x p fl, 0 ≤ (E.map s a x p fl).1 → ∀ y < 2 ^ 64,
    if arc (x, 4096 * 2 ^ p.order) y then tr s y = none ∧ tr (E.map s a x p fl).2 y ≠ none
    else tr (E.map s a x p fl).2 y = tr s y
  /-- The same page and address: the page is unmapped, and its addresses are as before it was mapped. -/
  undone : ∀ s a x p fl, 0 ≤ (E.map s a x p fl).1 → ∀ s' a',
    (∀ y < 2 ^ 64, arc (x, 4096 * 2 ^ p.order) y = true → tr s' y = tr (E.map s a x p fl).2 y) →
    (E.unmap s' a' x p).1 = 0 ∧ ∀ y < 2 ^ 64,
      tr (E.unmap s' a' x p).2 y = if arc (x, 4096 * 2 ^ p.order) y then tr s y else tr s' y

theorem recorded_undoes {β : Type} (U : Undoes E tr) (N : Recorder β) : Undoes (recorded E N) fun s => tr s.1 where
  inert := ⟨fun s u => U.inert.alloc s.1 u, fun s u p => U.inert.free s.1 u p, fun s a x n => U.inert.prepare s.1 a x n⟩
  physAlloc s k z d := U.physAlloc s.1 k z d
  physFree s r k z d := U.physFree s.1 r k z d
  refused s a x p fl h := by
    simp only [recorded] at h ⊢
    split at h
    · next hno => rw [if_pos hno]
    · next hno =>
      rw [if_neg hno]
      exact U.refused s.1 a x p fl h
  mapped s a x p fl h := by
    simp only [recorded] at h ⊢
    split at h
    · exact absurd h (by simp)
    · next hno =>
      rw [if_neg hno]
      exact U.mapped s.1 a x p fl h
  undone s a x p fl h s' a' hs' := by
    simp only [recorded] at h hs' ⊢
    split at h
    · exact absurd h (by simp)
    · next hno =>
      rw [if_neg hno] at hs'
      exact U.undone s.1 a x p fl h s'.1 a' hs'

/-! ### The pages that were mapped -/

/-- The pages `ps` were mapped in a row from `x` on, where nothing was, and the unwinding takes them away
    from every state in which they are still mapped. -/
structure Stacked (E : Env σ) (v : ℕ) (tr : σ → ℕ → Option α) (x : ℕ) (ps : List Page) (M M' : Machine σ) : Prop where
  page : ∀ y < 2 ^ 64, translated (places x (ps.map Page.order)) y → tr M.env y = none ∧ tr M'.env y ≠ none
  other : ∀ y < 2 ^ 64, ¬translated (places x (ps.map Page.order)) y → tr M'.env y = tr M.env y
  unmap : ∀ freePhys M₁, (∀ y < 2 ^ 64, translated (places x (ps.map Page.order)) y → tr M₁.env y = tr M'.env y) →
    ∃ M₂, unmapPages E v freePhys x ps M₁ = .ok M₂ ∧ ∀ y < 2 ^ 64,
      (translated (places x (ps.map Page.order)) y → tr M₂.env y = none) ∧
      (¬translated (places x (ps.map Page.order)) y → tr M₂.env y = tr M₁.env y)

variable {M M₁ M' : Machine σ} {x : ℕ}

theorem Stacked.nil (h : tr M'.env = tr M.env) : Stacked E v tr x [] M M' where
  page y _ hy := absurd hy (translated_nil y)
  other y _ _ := by rw [h]
  unmap freePhys M₁ _ := ⟨M₁, rfl, fun y _ => ⟨fun hy => absurd hy (translated_nil y), fun _ => rfl⟩⟩

variable {ps : List Page}

/-- STEP: one more page in front. -/
theorem Stacked.cons (U : Undoes E tr) {s : σ} {a fl : ℕ} {p : Page} (hs : tr s = tr M.env)
    (hmap : 0 ≤ (E.map s a x p fl).1) (hM1 : M₁.env = (E.map s a x p fl).2)
    (h : Stacked E v tr (add64 x (4096 * 2 ^ p.order)) ps M₁ M') : Stacked E v tr x (p :: ps) M M' := by
  have hpage := U.mapped s a x p fl hmap
  rw [← hM1, hs] at hpage
  -- the later pages were mapped where nothing was, so not on this one
  have hapart : ∀ y < 2 ^ 64, arc (x, 4096 * 2 ^ p.order) y = true →
      ¬translated (places (add64 x (4096 * 2 ^ p.order)) (ps.map Page.order)) y := by
    intro y hy hin hlater
    have hon := hpage y hy
    rw [if_pos hin] at hon
    exact hon.2 (h.page y hy hlater).1
  have hoff : ∀ y < 2 ^ 64, ¬arc (x, 4096 * 2 ^ p.order) y = true → tr M₁.env y = tr M.env y := by
    intro y hy hout
    have hkeep := hpage y hy
    rwa [if_neg hout] at hkeep
  have hon : ∀ y < 2 ^ 64, arc (x, 4096 * 2 ^ p.order) y = true →
      tr M.env y = none ∧ tr M₁.env y ≠ none ∧ tr M'.env y = tr M₁.env y := by
    intro y hy hin
    have hnew := hpage y hy
    rw [if_pos hin] at hnew
    exact ⟨hnew.1, hnew.2, h.other y hy (hapart y hy hin)⟩
  constructor
  · intro y hy hin
    rw [map_cons, places, translated_cons] at hin
    by_cases harc : arc (x, 4096 * 2 ^ p.order) y = true
    · obtain ⟨hnone, hsome, heq⟩ := hon y hy harc
      exact ⟨hnone, heq ▸ hsome⟩
    · have hlater := h.page y hy (hin.resolve_left harc)
      rwa [hoff y hy harc] at hlater
  · intro y hy hout
    rw [map_cons, places, translated_cons, not_or] at hout
    rw [h.other y hy hout.2, hoff y hy hout.1]
  · intro freePhys N hN
    simp only [map_cons, places, translated_cons] at hN ⊢
    have hback := U.undone s a x p fl hmap N.env (N.mem (v + 48)) fun y hy hin => by
      rw [hN y hy (.inl hin), (hon y hy hin).2.2, hM1]
    obtain ⟨hret, hback⟩ := hback
    rw [hs] at hback
    obtain ⟨s', hs'⟩ : ∃ s', (if freePhys then freeFrame E (E.unmap N.env (N.mem (v + 48)) x p).2 p
        else (E.unmap N.env (N.mem (v + 48)) x p).2) = s' := ⟨_, rfl⟩
    have htr : tr (freeNode E v p.addr { N with env := s' }).env = tr (E.unmap N.env (N.mem (v + 48)) x p).2 := by
      rw [U.inert.freeNode, ← hs']
      split
      · exact U.physFree ..
      · rfl
    obtain ⟨N1, hrun, hrest⟩ := h.unmap freePhys (freeNode E v p.addr { N with env := s' }) fun y hy hlater => by
      have hout : ¬arc (x, 4096 * 2 ^ p.order) y = true := fun hin => hapart y hy hin hlater
      rw [htr, hback y hy, if_neg hout]
      exact hN y hy (.inr hlater)
    refine ⟨N1, ?_, fun y hy => ⟨fun hin => ?_, fun hout => ?_⟩⟩
    · simp only [unmapPages, hret, if_true, hs']
      exact hrun
    · by_cases harc : arc (x, 4096 * 2 ^ p.order) y = true
      · rw [(hrest y hy).2 (hapart y hy harc), htr, hback y hy, if_pos harc]
        exact (hon y hy harc).1
      · exact (hrest y hy).1 (hin.resolve_left harc)
    · rw [not_or] at hout
      rw [(hrest y hy).2 hout.2, htr, hback y hy, if_neg hout.1]

theorem Stacked.undone (h : Stacked E v tr x ps M M') (hM1 : tr M₁.env = tr M'.env) (freePhys : Bool) :
    ∃ M₂, unmapPages E v freePhys x ps M₁ = .ok M₂ ∧ ∀ y < 2 ^ 64, tr M₂.env y = tr M.env y := by
  obtain ⟨M₂, hrun, hback⟩ := h.unmap freePhys M₁ fun y _ _ => by rw [hM1]
  refine ⟨M₂, hrun, fun y hy => ?_⟩
  by_cases hin : translated (places x (ps.map Page.order)) y
  · rw [(hback y hy).1 hin, (h.page y hy hin).1]
  · rw [(hback y hy).2 hin, hM1, h.other y hy hin]

theorem allocPage_refused (U : Undoes E tr) {t : Page} (h : allocPage E v x t M = (none, M')) : tr M'.env = tr M.env := by
  rcases allocPage_cases h with ⟨-, hnode⟩ | ⟨p, M₁, hnode, ⟨s, hs, -, rfl⟩ | ⟨page, s, ret, s', hs, -, hmap, hcases⟩⟩
  · exact U.inert.allocated hnode
  · have hphys := U.physAlloc M₁.env t.order t.zone t.numadomain
    rw [hs] at hphys
    rw [U.inert.freeNode]
    exact hphys.trans (U.inert.allocated hnode)
  · have hphys := U.physAlloc M₁.env t.order t.zone t.numadomain
    rw [hs] at hphys
    rcases hcases with ⟨hneg, -, rfl⟩ | ⟨-, hr, -⟩
    · have hkeep := U.refused s (M₁.mem (v + 48)) x page (M₁.mem (v + 40)) (by rw [hmap]; exact hneg)
      rw [hmap] at hkeep
      dsimp only
      rw [U.physFree, U.inert.freeNode]
      exact hkeep.trans (hphys.trans (U.inert.allocated hnode))
    · cases hr

theorem allocPage_mapped (U : Undoes E tr) {t p : Page} (h : allocPage E v x t M = (some p, M')) :
    p.order = t.order ∧ ∃ s a fl, tr s = tr M.env ∧ 0 ≤ (E.map s a x p fl).1 ∧ M'.env = (E.map s a x p fl).2 := by
  rcases allocPage_cases h with ⟨hr, -⟩ | ⟨q, M₁, hnode, ⟨s, -, hr, -⟩ | ⟨page, s, ret, s', hs, hpage, hmap, hcases⟩⟩
  · cases hr
  · cases hr
  · rcases hcases with ⟨-, hr, -⟩ | ⟨hpos, hr, rfl⟩
    · cases hr
    cases hr
    have hphys := U.physAlloc M₁.env t.order t.zone t.numadomain
    rw [hs] at hphys
    refine ⟨by rw [hpage], s, M₁.mem (v + 48), M₁.mem (v + 40), hphys.trans (U.inert.allocated hnode), ?_, ?_⟩
    · rw [hmap]
      exact hpos
    · rw [hmap]

/-- RUN: what a loop has mapped, whether it was refused a page or not. -/
theorem pageLoop_stacked (U : Undoes E tr) {plan : List (ℕ × Page)} {ks : List ℕ}
    (hplan : plan.map key = places x ks) {ok : Bool} (h : pageLoop (allocPage E v) plan M = (ok, ps, M')) :
    Stacked E v tr x ps M M' := by
  induction plan generalizing x ks M ok ps with
  | nil =>
    obtain ⟨-, rfl, rfl⟩ := pageLoop_nil h
    exact .nil rfl
  | cons t plan ih =>
    cases ks with
    | nil => simp [places] at hplan
    | cons k ks =>
      obtain ⟨hkey, hrest⟩ := List.cons.inj hplan
      cases hkey
      rcases pageLoop_cons h with ⟨-, rfl, hpage⟩ | ⟨p, qs, M₁, hpage, hloop, rfl⟩
      · exact .nil (allocPage_refused U hpage)
      · obtain ⟨hord, s, a, fl, hs, hmap, hM1⟩ := allocPage_mapped U hpage
        refine .cons U hs hmap hM1 ?_
        rw [hord]
        exact ih hrest hloop

/-! ### A call that was refused -/

/-- The environment with a note whether the allocator, `phys_mem_alloc` or `ifs.map` has failed. -/
def heard (E : Env σ) : Env (σ × Bool) where
  alloc s u := ((E.alloc s.1 u).1, (E.alloc s.1 u).2, s.2 || (E.alloc s.1 u).1.isNone)
  free s u p := ((E.free s.1 u p).1, (E.free s.1 u p).2, s.2)
  physAlloc s k z d :=
    ((E.physAlloc s.1 k z d).1, (E.physAlloc s.1 k z d).2, s.2 || (E.physAlloc s.1 k z d).1.isNone)
  physFree s r k z d := (E.physFree s.1 r k z d, s.2)
  map s a x p fl := ((E.map s.1 a x p fl).1, (E.map s.1 a x p fl).2, s.2 || decide ((E.map s.1 a x p fl).1 < 0))
  unmap s a x p := ((E.unmap s.1 a x p).1, (E.unmap s.1 a x p).2, s.2)
  prepare s a x n := ((E.prepare s.1 a x n).1, (E.prepare s.1 a x n).2, s.2)
  copy s a d x n := (E.copy s.1 a d x n, s.2)

theorem heard_lawful (hE : Lawful E v live) : Lawful (heard E) v fun s => live s.1 where
  alloc_none := by
    intro s u s' h
    obtain ⟨hr, rfl⟩ := Prod.mk.inj h
    exact hE.alloc_none (Prod.ext hr rfl)
  alloc_some := by
    intro s u p s' h
    obtain ⟨hr, rfl⟩ := Prod.mk.inj h
    exact hE.alloc_some (Prod.ext hr rfl)
  free s u p := hE.free s.1 u p
  physAlloc s k z d := hE.physAlloc s.1 k z d
  physFree s r k z d := hE.physFree s.1 r k z d
  map s a x p fl := hE.map s.1 a x p fl
  unmap s a x p := hE.unmap s.1 a x p
  prepare s a x n := hE.prepare s.1 a x n
  node h := hE.node h

theorem heard_undoes (U : Undoes E tr) : Undoes (heard E) fun s => tr s.1 where
  inert := ⟨fun s u => U.inert.alloc s.1 u, fun s u p => U.inert.free s.1 u p, fun s a x n => U.inert.prepare s.1 a x n⟩
  physAlloc s k z d := U.physAlloc s.1 k z d
  physFree s r k z d := U.physFree s.1 r k z d
  refused s a x p fl h := U.refused s.1 a x p fl h
  mapped s a x p fl h := U.mapped s.1 a x p fl h
  undone s a x p fl h s' a' hs' := U.undone s.1 a x p fl h s'.1 a' hs'

/-- A note that changes only when something is refused. -/
structure Hears (E : Env σ) (note : σ → Bool) : Prop where
  alloc : ∀ {s u p s'}, E.alloc s u = (some p, s') → note s' = note s
  free : ∀ s u p, note (E.free s u p).2 = note s
  physAlloc : ∀ {s k z d r s'}, E.physAlloc s k z d = (some r, s') → note s' = note s
  physFree : ∀ s r k z d, note (E.physFree s r k z d) = note s
  map : ∀ {s a x p fl ret s'}, E.map s a x p fl = (ret, s') → 0 ≤ ret → note s' = note s
  unmap : ∀ s a x p, note (E.unmap s a x p).2 = note s

theorem heard_hears (E : Env σ) : Hears (heard E) Prod.snd where
  alloc h := by
    obtain ⟨hr, rfl⟩ := Prod.mk.inj h
    simp [hr]
  free _ _ _ := rfl
  physAlloc h := by
    obtain ⟨hr, rfl⟩ := Prod.mk.inj h
    simp [hr]
  physFree _ _ _ _ _ := rfl
  map h hpos := by
    cases h
    simp [Int.not_lt.mpr hpos]
  unmap _ _ _ _ := rfl

theorem noted_hears {note : σ → Bool} (H : Hears E note) : Hears (noted E) fun s => note s.1 where
  alloc h := by
    obtain ⟨hr, rfl⟩ := Prod.mk.inj h
    exact H.alloc (Prod.ext hr rfl)
  free s u p := H.free s.1 u p
  physAlloc h := by
    obtain ⟨hr, rfl⟩ := Prod.mk.inj h
    exact H.physAlloc (Prod.ext hr rfl)
  physFree s r k z d := H.physFree s.1 r k z d
  map h hpos := by
    simp only [recorded, ledger, Bool.false_eq_true, if_false] at h
    cases h
    exact H.map rfl hpos
  unmap s a x p := H.unmap s.1 a x p

section Hears
variable {note : σ → Bool} (H : Hears E note) {b f start size : ℕ} {plan : List (ℕ × Page)} {freePhys keepF1 ok : Bool}
include H

theorem Hears.allocated {p : ℕ} (h : allocNode E v M = (some p, M')) : note M'.env = note M.env := by
  rw [allocNode] at h
  split at h
  · cases (Prod.mk.inj h).1
  · next q s hs =>
    cases h
    exact H.alloc hs

theorem Hears.prepareNodes {n : Nodes} (h : prepareNodes E v M = (some n, M')) : note M'.env = note M.env := by
  rw [Vmem.prepareNodes] at h
  split at h
  · cases (Prod.mk.inj h).1
  next e M₁ h1 =>
  split at h
  · cases (Prod.mk.inj h).1
  next o M₂ h2 =>
  split at h
  · cases (Prod.mk.inj h).1
  next f0 M3 h3 =>
  split at h
  · cases (Prod.mk.inj h).1
  next f1 M4 h4 =>
  cases h
  rw [H.allocated h4, H.allocated h3, H.allocated h2, H.allocated h1]

theorem Hears.allocPage {t p : Page} (h : allocPage E v x t M = (some p, M')) : note M'.env = note M.env := by
  rcases allocPage_cases h with ⟨hr, -⟩ | ⟨q, M₁, hnode, ⟨s, -, hr, -⟩ | ⟨page, s, ret, s', hs, -, hmap, hcases⟩⟩
  · cases hr
  · cases hr
  · rcases hcases with ⟨-, hr, -⟩ | ⟨hpos, -, rfl⟩
    · cases hr
    exact (H.map hmap hpos).trans ((H.physAlloc hs).trans (H.allocated hnode))

theorem Hears.pageLoop {ps : List Page} (h : pageLoop (Vmem.allocPage E v) plan M = (true, ps, M')) :
    note M'.env = note M.env := by
  induction plan generalizing M ps with
  | nil =>
    obtain ⟨-, -, rfl⟩ := pageLoop_nil h
    rfl
  | cons t plan ih =>
    rcases pageLoop_cons h with ⟨hok, -⟩ | ⟨p, qs, M₁, hpage, hloop, -⟩
    · cases hok
    · exact (ih hloop).trans (H.allocPage hpage)

theorem Hears.unmapPages {ps : List Page} (h : unmapPages E v freePhys x ps M = .ok M') : note M'.env = note M.env := by
  induction ps generalizing x M with
  | nil =>
    cases h
    rfl
  | cons p ps ih =>
    obtain ⟨s, hs, h⟩ := unmapPages_cons h
    have hunmap := H.unmap M.env (M.mem (v + 48)) x p
    rw [hs] at hunmap
    rw [ih h, freeNode_env H.free]
    dsimp only
    split
    · exact (H.physFree ..).trans hunmap
    · exact hunmap

/-- A range that has heard a refusal has no nodes, or not all its pages. -/
theorem Hears.refused (h : allocRange E v b f start size (Vmem.allocPage E v) plan freePhys keepF1 M = .ok (ok, M'))
    (hM : note M.env = false) (hM' : note M'.env = true) : ok = false ∧ (Vmem.prepareNodes E v M = (none, M') ∨
      ∃ n M₁ ps M₂, Vmem.prepareNodes E v M = (some n, M₁) ∧
        Vmem.pageLoop (Vmem.allocPage E v) plan (withEntry M₁ n start size) = (false, ps, M₂) ∧
        Undone E v n ps start freePhys (setObj M₂ n.o ⟨ps, size, 1⟩) M') := by
  rcases allocRange_cases h with ⟨rfl, hprep⟩ | ⟨n, M₁, mapped, ps, M₂, hprep, hloop, hcases⟩
  · exact ⟨rfl, .inl hprep⟩
  rcases hcases with ⟨rfl, rfl, hu⟩ | ⟨rfl, ret, m, -, hcases⟩
  · exact ⟨rfl, .inr ⟨n, M₁, ps, M₂, hprep, hloop, hu⟩⟩
  -- all calls were granted, so nothing was heard
  exfalso
  have hM2 : note M₂.env = false := (H.pageLoop hloop).trans ((H.prepareNodes hprep).trans hM)
  have hundone : ∀ {M3 : Machine σ}, Undone E v n ps start freePhys M3 M' → note M3.env = false → False := by
    rintro M3 ⟨M4, hunmap, rfl⟩ h3
    rw [releaseNodes_env H.free, H.unmapPages hunmap, h3] at hM'
    cases hM'
  rcases hcases with ⟨-, -, hu⟩ | ⟨-, done, M3, hsplit, hcases⟩
  · exact hundone hu hM2
  · have hM3 : note M3.env = false := (splitFree_env H.free hsplit).trans hM2
    rcases hcases with ⟨-, -, rfl⟩ | ⟨-, -, hu⟩
    · rw [hM3] at hM'
      cases hM'
    · exact hundone hu hM3

end Hears

/-! ### `_alloc_pages_block` -/

/-- The block has its entries and free intervals, and the nodes in use and what is in them, the frames that
    are out and the translations are as they were. -/
structure AsBefore (live : σ → Set ℕ) (tr : σ → ℕ → Option α) (b : ℕ) (t : Forest)
    (M M' : Machine ((σ × Bool) × Ledger)) : Prop where
  trees : Trees b M'.mem t.a t.s t.e
  frees : Kept 16 t.a.inorder M.mem M'.mem
  entries : Kept 40 t.e.inorder M.mem M'.mem
  nodes : live M'.env.1.1 = live M.env.1.1
  contents : ∀ p ∈ live M.env.1.1, (∀ i < 64, M'.mem (p + i) = M.mem (p + i)) ∧ M'.obj p = M.obj p
  frames : M'.env.2 = M.env.2
  translation : ∀ y < 2 ^ 64, tr M'.env.1.1 y = tr M.env.1.1 y

section Block
variable {M M' : Machine ((σ × Bool) × Ledger)} {b : ℕ} {t : Forest}

theorem AsBefore.of_taken (B : Block (fun s => live s.1.1) M b t) (h : Taken v (fun s => live s.1.1) M [] M')
    (hframes : M'.env.2 = M.env.2) (htr : ∀ y < 2 ^ 64, tr M'.env.1.1 y = tr M.env.1.1 y) :
    AsBefore live tr b t M M' where
  trees := (B.same h.takes.within).trees
  frees := (B.same h.takes.within).keptA
  entries := (B.same h.takes.within).keptE
  nodes := by simpa using h.inUse
  contents p hp := ⟨h.takes.within.mem p hp id, h.takes.within.obj p hp id⟩
  frames := hframes
  translation := htr

theorem range_undone {f start size : ℕ} {plan : List (ℕ × Page)} {ks : List ℕ} {keepF1 ok : Bool}
    (hE : Lawful E v live) (U : Undoes E tr) (B : Block (fun s => live s.1.1) M b t)
    (hplan : plan.map key = places start ks) (hM : M.env.1.2 = false) (hM' : M'.env.1.2 = true)
    (h : allocRange (noted (heard E)) v b f start size (allocPage (noted (heard E)) v) plan true keepF1 M = .ok (ok, M')) :
    AsBefore live tr b t M M' := by
  have hL : Lawful (noted (heard E)) v fun s => live s.1.1 := recorded_lawful (heard_lawful hE) ledger
  have HU : Undoes (noted (heard E)) fun s => tr s.1.1 := recorded_undoes (heard_undoes U) ledger
  have HN : Inert (noted (heard E)) Prod.snd := recorded_inert (heard E) ledger
  obtain ⟨-, hprep | ⟨n, M₁, ps, M₂, hprep, hloop, M3, hunmap, rfl⟩⟩ :=
    (noted_hears (heard_hears E)).refused h hM hM'
  · exact .of_taken B (prepareNodes_taken hL hprep) (HN.prepareNodes hprep) fun y _ => by
      rw [HU.inert.prepareNodes hprep]
  have hnodes : M₁.env.2 = M.env.2 := HN.prepareNodes hprep
  refine .of_taken B (Taken.released ?_ hL v) ?_ fun y hy => ?_
  · have hpages := (((prepareNodes_taken hL hprep).entry hL start size).trans (pageLoop_taken hL hloop)).write
      ((within_setObj n.o ⟨ps, size, 1⟩).mono fun _ _ heq => ?_) rfl
    · exact unmapPages_taken hL hpages hunmap
    · exact mem_append_right _ (heq ▸ by simp [Nodes.list])
  · have htaken : M₂.env.2 = ⟨framesOf ps + M₁.env.2.out, M₁.env.2.bad⟩ := (pageLoop_notes (allocPage_notes v) hloop).1
    rw [HN.releaseNodes, ← hnodes]
    exact unmapPages_notes htaken hunmap
  · have henv : tr (setObj M₂ n.o ⟨ps, size, 1⟩).env.1.1 = tr M₂.env.1.1 := rfl
    obtain ⟨M4, hunmap', htr⟩ := (pageLoop_stacked HU hplan hloop).undone henv true
    obtain rfl := Except.ok.inj (hunmap.symm.trans hunmap')
    have hrelease := HU.inert.releaseNodes v n M3
    have hentry := HU.inert.prepareNodes hprep
    exact (congrFun hrelease y).trans ((htr y hy).trans (congrFun hentry y))

/-- ATOMIC: `_alloc_pages_block` returns NULL after a failure of the allocator, `phys_mem_alloc` or
    `ifs.map`, at whatever point, and all is as before. -/
theorem alloc_pages_block_atomic (hE : Lawful E v live) (U : Undoes E tr) (B : Block (fun s => live s.1.1) M b t)
    (hwords : ∀ f ∈ t.a.inorder, M.mem f < 2 ^ 64) {nr zone domain : ℕ} (hM : M.env.1.2 = false)
    (h : allocPagesBlock (noted (heard E)) v b nr zone domain M = .ok (0, M')) (hfailed : M'.env.1.2 = true) :
    AsBefore live tr b t M M' := by
  rcases allocPagesBlock_cases h with ⟨-, rfl⟩ | ⟨f, ok, hfind, hrange, -⟩
  · exact absurd hfailed (by simp [hM])
  have hf : M.mem f < 2 ^ 64 := by
    rw [B.trees.searchFitSize_eq] at hfind
    rcases BTree.search_fit_sound (Except.ok.inj hfind) with hf | ⟨hf, -⟩
    · cases hf
    · exact hwords f (B.trees.mem_stree.mp hf)
  exact range_undone hE U B (pages_keys (alignStart_lt nr hf) nr zone domain) hM hfailed hrange

end Block

/-! ### A page table by page number -/

/-- The page with the number `j` is one of the `2 ^ k` pages from `x` on. -/
def inPages (x k j : ℕ) : Bool := decide ((j + (2 ^ 52 - x / 4096)) % 2 ^ 52 < 2 ^ k)

theorem inPages_eq {x k y : ℕ} (hx : x < 2 ^ 64) (halign : x % 4096 = 0) :
    inPages x k (y / 4096) = arc (x, 4096 * 2 ^ k) y := by
  rw [inPages, arc, sub64]
  refine decide_eq_decide.mpr ?_
  omega

/-- A table with the page that each page number is mapped to. What is not aligned, or mapped already, is
    refused. -/
def flatTable : Recorder (ℕ → Option Page) where
  physAlloc l _ _ _ _ := l
  physFree l _ _ _ _ := l
  refuse l x p := decide (2 ^ 64 ≤ x ∨ x % 4096 ≠ 0) ||
    (List.range (2 ^ p.order)).any fun i => (l ((x / 4096 + i) % 2 ^ 52)).isSome
  map l ret x p j := if ret < 0 then l j else if inPages x p.order j then some p else l j
  unmap l _ x p j := if inPages x p.order j then none else l j

abbrev flat : Env (Supply × (ℕ → Option Page)) := recorded supply flatTable

theorem flat_map {s : Supply × (ℕ → Option Page)} {a x fl : ℕ} {p : Page} (h : 0 ≤ (flat.map s a x p fl).1) :
    (x < 2 ^ 64 ∧ x % 4096 = 0) ∧ (∀ y < 2 ^ 64, inPages x p.order (y / 4096) = true → s.2 (y / 4096) = none) ∧
      ∀ j, (flat.map s a x p fl).2.2 j = if inPages x p.order j then some p else s.2 j := by
  have hno : ¬flatTable.refuse s.2 x p = true := by
    intro hyes
    simp only [recorded, hyes, if_true] at h
    exact absurd h (by decide)
  refine ⟨?_, fun y hy hin => ?_, fun j => ?_⟩
  · simp only [flatTable, Bool.or_eq_true, decide_eq_true_eq, not_or] at hno
    omega
  · simp only [flatTable, Bool.or_eq_true, any_eq_true, mem_range, not_or, not_exists, not_and] at hno
    have hpage := hno.2 ((y / 4096 + (2 ^ 52 - x / 4096)) % 2 ^ 52) (of_decide_eq_true hin)
    have hnum : (x / 4096 + (y / 4096 + (2 ^ 52 - x / 4096)) % 2 ^ 52) % 2 ^ 52 = y / 4096 := by
      have hlt := hno.1
      simp only [decide_eq_true_eq, not_or] at hlt
      omega
    rw [hnum] at hpage
    exact Option.not_isSome_iff_eq_none.mp hpage
  · simp only [recorded, hno, Bool.false_eq_true, if_false]
    rfl

theorem flat_undoes : Undoes flat fun s y => s.2 (y / 4096) where
  inert := ⟨fun _ _ => rfl, fun _ _ _ => rfl, fun _ _ _ _ => rfl⟩
  physAlloc _ _ _ _ := rfl
  physFree _ _ _ _ _ := rfl
  refused s a x p fl h := by
    simp only [recorded] at h ⊢
    split at h
    · next hno => rw [if_pos hno]
    · exact absurd h (by decide : ¬(0 : ℤ) < 0)
  mapped s a x p fl h y hy := by
    obtain ⟨⟨hx, halign⟩, hnone, hnew⟩ := flat_map h
    rw [hnew, ← inPages_eq hx halign]
    split
    · next hin => exact ⟨hnone y hy hin, by simp⟩
    · rfl
  undone s a x p fl h s' a' _ := by
    obtain ⟨⟨hx, halign⟩, hnone, -⟩ := flat_map h
    refine ⟨rfl, fun y hy => ?_⟩
    rw [← inPages_eq hx halign]
    change (if inPages x p.order (y / 4096) then none else s'.2 (y / 4096)) = _
    split
    · next hin => rw [hnone y hy hin]
    · rfl

/-- The machine before the first call; the page at `0x10001000` is mapped. -/
def blankFlat : Machine (((Supply × (ℕ → Option Page)) × Bool) × Ledger) :=
  ⟨fun _ => 0, fun _ => ⟨[], 0, 0⟩,
    ((⟨[], 0, 0⟩, fun j => if j = 0x10001 then some ⟨0, 0, 0x5000, 3, 0, 0, 0⟩ else none), false), ⟨0, false⟩⟩

/-- The space with one block, from 256 MiB on. -/
def oneFlat : St (((Supply × (ℕ → Option Page)) × Bool) × Ledger) :=
  after (noted (heard flat)) ⟨blankFlat, [], []⟩ (.blockAdd 0x10000000 0x1fffffff)

/-- Two pages, of which the second cannot be mapped: the first is unmapped, and its frame and the nodes are
    returned. -/
theorem alloc_pages_block_atomic_second_page : ∃ t M',
    allocPagesBlock (noted (heard flat)) 0x1000 0x10000 2 1 0 oneFlat.mach = .ok (0, M') ∧
    AsBefore (fun s => Supply.inUse s.1) (fun s y => s.2 (y / 4096)) 0x10000 t oneFlat.mach M' := by
  have hlawful : Lawful flat 0x1000 fun s => Supply.inUse s.1 := recorded_lawful supply_lawful flatTable
  have hrun : Relation.ReflTransGen (Step (noted (heard flat)) 0x1000 fun st op => op.Fits 0x1000 st)
      ⟨blankFlat, [], []⟩ oneFlat :=
    .single (step_after ⟨by decide, by decide⟩ trivial (by decide +kernel))
  obtain ⟨T, S⟩ := sound_run (M := blankFlat) (recorded_lawful (heard_lawful hlawful) ledger) rfl hrun
  have hmade : (⟨0x10000, 0x10000000, 0x1fffffff⟩ : Made) ∈ oneFlat.made := by decide +kernel
  have hwords : ∀ f ∈ (T 0x10000).a.inorder, oneFlat.mach.mem f < 2 ^ 64 := fun f hf =>
    (S.tidy.whole _ hmade f (List.mem_append_left _ hf)).1.1
  have hret : (allocPagesBlock (noted (heard flat)) 0x1000 0x10000 2 1 0 oneFlat.mach).toOption.map
      (fun r => (r.1, r.2.env.1.2)) = some (0, true) := by decide +kernel
  match hcall : allocPagesBlock (noted (heard flat)) 0x1000 0x10000 2 1 0 oneFlat.mach, hret with
  | .ok (r, M'), hret =>
    obtain ⟨hr, hheard⟩ := Prod.mk.inj (Option.some.inj hret)
    obtain rfl : r = 0 := hr
    exact ⟨T 0x10000, M', rfl, alloc_pages_block_atomic hlawful flat_undoes (S.tidy.intact.block hmade) hwords
      (by decide +kernel) hcall hheard⟩

end Advos.Space
