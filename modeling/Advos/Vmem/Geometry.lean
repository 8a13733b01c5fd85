import Advos.Vmem.Maps
import Advos.Vmem.PageLists

/-! Where the allocation at any address puts its range.

    A range with superpages starts at the first multiple of 2 MiB in the free interval, and the search
    asks for 2 MiB more than the range needs, so that it fits wherever the interval starts:

        free     |------------------------- f -------------------------|
        range      δ  |---- 2 MiB ----|---- 2 MiB ----|-|-|-|-|
        index          0               512             1024 ...

    Superpages are made while they fit, and single pages after them, with one index that goes on from
    the first loop to the second. -/

namespace Advos.Space
open Vmem SearchTree Word Arc Tiling List

variable {σ : Type} {E : Env σ} {v : ℕ} {live : σ → Set ℕ} {nr start : ℕ}

/-! ### The range -/

/-- The start is less than 2 MiB behind the start of the interval, and is that of the interval if there
    are no superpages. -/
theorem alignStart_offset (nr : ℕ) (hs : start < 2 ^ 64) :
    ∃ δ < 2 ^ 21, alignStart nr start = add64 start δ ∧ (mul64 nr 4096 < 2 ^ 21 → δ = 0) := by
  rw [alignStart]
  split
  · next h =>
    refine ⟨2 ^ 21 - start % 2 ^ 21, by omega, ?_, fun hlt => by omega⟩
    rw [and_not_mask (add64_lt ..), add64, add64]
    omega
  · have hzero : add64 start 0 = start := add64_of_lt hs
    exact ⟨0, by decide, hzero.symm, fun _ => rfl⟩

/-- An interval of the size that is searched for has room for the range behind every start. -/
theorem searchSize_room (hnr : 4096 * nr + 2 ^ 21 < 2 ^ 64) {δ : ℕ} (hδ : δ < 2 ^ 21)
    (hsmall : mul64 nr 4096 < 2 ^ 21 → δ = 0) : δ + 4096 * nr ≤ searchSize nr := by
  have hsize : mul64 nr 4096 = 4096 * nr := by rw [mul64_of_lt (by omega), Nat.mul_comm]
  rw [hsize] at hsmall
  rw [searchSize, hsize]
  split
  · rw [add64_of_lt (by omega)]
    omega
  · omega

theorem arc_inside {s n δ k y : ℕ} (hs : s < 2 ^ 64) (h : δ + k ≤ n) (hy : arc (add64 s δ, k) y = true) :
    arc (s, n) y = true := by
  rw [arc_iff, add64] at hy
  rw [arc_iff]
  omega

/-- INSIDE: the range lies in the interval that was found. -/
theorem range_inside {s n : ℕ} (hs : s < 2 ^ 64) (hnr : 4096 * nr + 2 ^ 21 < 2 ^ 64) (hn : searchSize nr ≤ n) :
    (∀ y, arc (alignStart nr s, 4096 * nr) y = true → arc (s, n) y = true) ∧
      (s + n ≤ 2 ^ 64 → s ≤ alignStart nr s ∧ alignStart nr s + 4096 * nr ≤ s + n) := by
  obtain ⟨δ, hδ, heq, hsmall⟩ := alignStart_offset nr hs
  have hroom := searchSize_room hnr hδ hsmall
  rw [heq]
  refine ⟨fun y => arc_inside hs (hroom.trans hn), fun hend => ?_⟩
  have hlt : s + δ < 2 ^ 64 := by
    rcases Nat.lt_or_ge (mul64 nr 4096) (2 ^ 21) with hlt | hge
    · rw [hsmall hlt]
      exact hs
    · rw [mul64_of_lt (by omega)] at hge
      omega
  rw [add64_of_lt hlt]
  omega

/-! ### The pages -/

/-- Index and order of the pages of a range: superpages while they fit, then single pages. -/
def layout (nr : ℕ) : List (ℕ × ℕ) :=
  ((List.range (nr / 512)).map fun k => (512 * k, 9)) ++ (List.range (nr % 512)).map fun j => (512 * (nr / 512) + j, 0)

/-- The page has the index `i`, or one of the pages of a superpage has. -/
def hasIndex (r : ℕ × ℕ) (i : ℕ) : Bool := decide (r.1 ≤ i ∧ i < r.1 + 2 ^ r.2)

theorem cover_row (s k n i : ℕ) : cover hasIndex ((List.range n).map fun j => (s + 2 ^ k * j, k)) i =
    if s ≤ i ∧ i < s + 2 ^ k * n then 1 else 0 := by
  induction n with
  | zero => simp
  | succ n ih =>
    rw [range_succ, map_append, cover_append, ih, map_singleton, cover_cons, cover_nil, Nat.mul_succ]
    simp only [hasIndex, decide_eq_true_eq]
    have hpos := Nat.two_pow_pos k
    split_ifs <;> omega

/-- TILES: every index below `nr` is in one page, and no other is in any. -/
theorem layout_tiles (nr : ℕ) : Tiles hasIndex (layout nr) fun i => i < nr := by
  have hcover : ∀ i, cover hasIndex (layout nr) i = if i < nr then 1 else 0 := by
    intro i
    have hsuper := cover_row 0 9 (nr / 512) i
    have hsingle := cover_row (512 * (nr / 512)) 0 (nr % 512) i
    simp only [Nat.zero_add, Nat.pow_zero, Nat.one_mul] at hsuper hsingle
    rw [layout, cover_append, hsingle]
    refine (congrArg (· + _) hsuper).trans ?_
    split_ifs <;> omega
  intro i
  rw [hcover]
  exact ⟨fun h => if_pos h, fun h => if_neg h⟩

theorem pages_layout (start nr zone domain : ℕ) :
    (Job.pages start nr zone domain).plan.map (fun t => (t.2.index, t.2.order)) = layout nr := by
  simp only [Job.plan, blockPlan, layout, map_append, map_map]
  rfl

theorem pages_address {zone domain : ℕ} {t : ℕ × Page} (ht : t ∈ (Job.pages start nr zone domain).plan) :
    t.1 = add64 start (4096 * t.2.index) := by
  have hmul : ∀ i, add64 start (mul64 i 4096) = add64 start (4096 * i) := fun i => by
    rw [mul64, add64_mod, Nat.mul_comm]
  obtain ⟨x, hx, rfl⟩ := mem_map.mp ht
  rcases mem_append.mp hx with hx | hx
  all_goals
    obtain ⟨k, -, rfl⟩ := mem_map.mp hx
    exact hmul _

/-! ### The mappings -/

/-- The pages that are mapped, each with its address, the last one first. -/
def mapLog : Recorder (List (ℕ × Page)) where
  physAlloc l _ _ _ _ := l
  physFree l _ _ _ _ := l
  refuse _ _ _ := false
  map l ret x p := if ret < 0 then l else (x, p) :: l
  unmap l ret x p := if ret = 0 then l.erase (x, p) else l

/-- The environment with the mappings. -/
abbrev logged (E : Env σ) : Env (σ × List (ℕ × Page)) := recorded E mapLog

section Log
variable {M M' : Machine (σ × List (ℕ × Page))}

theorem allocPage_logged {x : ℕ} {t p : Page} (h : allocPage (logged E) v x t M = (some p, M')) :
    (p.index, p.order) = (t.index, t.order) ∧ M'.env.2 = (x, p) :: M.env.2 := by
  have H : Inert (logged E) Prod.snd := recorded_inert E mapLog
  rcases allocPage_cases h with ⟨hr, -⟩ | ⟨q, M₁, hnode, ⟨s, -, hr, -⟩ | ⟨page, s, ret, s', hs, hpage, hmap, hcases⟩⟩
  · cases hr
  · cases hr
  rcases hcases with ⟨-, hr, -⟩ | ⟨hpos, hr, rfl⟩
  · cases hr
  cases hr
  refine ⟨by rw [hpage], ?_⟩
  have hphys : s.2 = M₁.env.2 := by
    obtain ⟨-, rfl⟩ := Prod.mk.inj hs
    rfl
  simp only [recorded, mapLog, Bool.false_eq_true, if_false] at hmap
  cases hmap
  rw [if_neg (Int.not_lt.mpr hpos), hphys, H.allocated hnode]

/-- RUN: a loop that comes to its end has mapped every page at the address of its index. -/
theorem pageLoop_logged {plan : List (ℕ × Page)} (hplan : ∀ t ∈ plan, t.1 = add64 start (4096 * t.2.index))
    {ps : List Page} (h : pageLoop (allocPage (logged E) v) plan M = (true, ps, M')) :
    M'.env.2 = (ps.map fun p => (add64 start (4096 * p.index), p)).reverse ++ M.env.2 := by
  induction plan generalizing M ps with
  | nil =>
    obtain ⟨-, rfl, rfl⟩ := pageLoop_nil h
    rfl
  | cons t plan ih =>
    rcases pageLoop_cons h with ⟨hok, -⟩ | ⟨p, qs, M₁, hpage, hloop, rfl⟩
    · cases hok
    obtain ⟨hkind, hlog⟩ := allocPage_logged hpage
    have hx : t.1 = add64 start (4096 * p.index) := by
      rw [(Prod.mk.inj hkind).1]
      exact hplan t mem_cons_self
    rw [ih (fun t' ht' => hplan t' (mem_cons_of_mem _ ht')) hloop, hlog, hx]
    simp

/-- GEOMETRY: the range is in the interval that was found, aligned if it has superpages, and its pages tile
    it, each mapped at the address of its index. -/
theorem alloc_pages_block_geometry {b p zone domain : ℕ} {t : Forest} (hE : Lawful E v live)
    (B : Block (fun s => live s.1) M b t) (hwords : ∀ f ∈ t.a.inorder, M.mem f < 2 ^ 64)
    (hnr : 4096 * nr + 2 ^ 21 < 2 ^ 64) (h : allocPagesBlock (logged E) v b nr zone domain M = .ok (p, M'))
    (hp : p ≠ 0) :
    ∃ f ∈ t.a.inorder, searchFitSize b (searchSize nr) M.mem = .ok (some f) ∧
      (∀ y, arc (p, 4096 * nr) y = true → arc (span M.mem f) y = true) ∧
      (M.mem f + M.mem (f + 8) ≤ 2 ^ 64 → M.mem f ≤ p ∧ p + 4096 * nr ≤ M.mem f + M.mem (f + 8)) ∧
      (512 ≤ nr → 2 ^ 21 ∣ p) ∧
      ∃ (t' : Forest) (e o : ℕ), Trees b M'.mem t'.a t'.s t'.e ∧ t'.e.inorder.Perm (e :: t.e.inorder) ∧
        entryAt M'.mem e = ⟨p, 4096 * nr, o, 0, 2⟩ ∧
        (M'.obj o).pages.map (fun q => (q.index, q.order)) = layout nr ∧
        Tiles hasIndex ((M'.obj o).pages.map fun q => (q.index, q.order)) (fun i => i < nr) ∧
        M'.env.2 = ((M'.obj o).pages.map fun q => (add64 p (4096 * q.index), q)).reverse ++ M.env.2 := by
  have hL : Lawful (logged E) v fun s => live s.1 := recorded_lawful hE mapLog
  have H : Inert (logged E) Prod.snd := recorded_inert E mapLog
  have hsize : mul64 nr 4096 = 4096 * nr := by rw [mul64_of_lt (by omega), Nat.mul_comm]
  rcases allocPagesBlock_cases h with ⟨hnull, -⟩ | ⟨f, ok, hfind, hrange, hret⟩
  · exact absurd hnull hp
  cases ok with
  | false => exact absurd hret hp
  | true =>
    obtain rfl : p = alignStart nr (M.mem f) := hret
    have hfit := hfind
    rw [B.trees.searchFitSize_eq] at hfit
    rcases BTree.search_fit_sound (Except.ok.inj hfit) with hfit | ⟨hf, hle⟩
    · cases hfit
    have hf : f ∈ t.a.inorder := B.trees.mem_stree.mp hf
    obtain ⟨harc, hends⟩ := range_inside (hwords f hf) hnr hle
    obtain ⟨n, ps, hmade⟩ := allocRange_made hrange
    obtain ⟨t', hcarved, hobj, -, -⟩ := hmade.carved hL (allocPage_spec hL v) B hf
    obtain ⟨M₁, M₂, hM₁, hloop, hM'⟩ := H.rangeMade hmade
    have hlayout : ps.map (fun q => (q.index, q.order)) = layout nr :=
      (pageLoop_made (fun hpage => (allocPage_logged hpage).1) hloop).trans (pages_layout ..)
    refine ⟨f, hf, hfind, harc, hends, fun hge => alignStart_super (by omega), t', n.e, n.o, hcarved.trees,
      hcarved.entries, hsize ▸ hcarved.entry, ?_, ?_, ?_⟩
    · rw [hobj]
      exact hlayout
    · rw [hobj]
      dsimp only
      rw [hlayout]
      exact layout_tiles nr
    · rw [hobj, hM', ← hM₁]
      exact pageLoop_logged (fun _ => pages_address) hloop

end Log

/-- The machine before the first call, with nothing mapped. -/
def blankLogged : Machine (Supply × List (ℕ × Page)) := ⟨fun _ => 0, fun _ => ⟨[], 0, 0⟩, ⟨[], 0, 0⟩, []⟩

/-- The space with a block that starts one page behind 256 MiB. -/
def oneLogged : St (Supply × List (ℕ × Page)) :=
  after (logged supply) ⟨blankLogged, [], []⟩ (.blockAdd 0x10001000 0x1fffffff)

/-- A superpage and a page, which go to the next multiple of 2 MiB. -/
theorem alloc_pages_block_geometry_two : ∃ M' o,
    allocPagesBlock (logged supply) 0x1000 0x10000 513 1 0 oneLogged.mach = .ok (0x10200000, M') ∧
    (M'.obj o).pages.map (fun q => (q.index, q.order)) = [(0, 9), (512, 0)] ∧
    M'.env.2.map Prod.fst = [0x10400000, 0x10200000] := by
  have hrun : Relation.ReflTransGen (Step (logged supply) 0x1000 fun st op => op.Fits 0x1000 st)
      ⟨blankLogged, [], []⟩ oneLogged :=
    .single (step_after ⟨by decide, by decide⟩ trivial (by decide +kernel))
  obtain ⟨T, S⟩ := sound_run (M := blankLogged) (recorded_lawful supply_lawful mapLog) rfl hrun
  have hmade : (⟨0x10000, 0x10001000, 0x1fffffff⟩ : Made) ∈ oneLogged.made := by decide +kernel
  have hwords : ∀ f ∈ (T 0x10000).a.inorder, oneLogged.mach.mem f < 2 ^ 64 := fun f hf =>
    (S.tidy.whole _ hmade f (List.mem_append_left _ hf)).1.1
  have hret : (allocPagesBlock (logged supply) 0x1000 0x10000 513 1 0 oneLogged.mach).toOption.map Prod.fst =
      some 0x10200000 := by decide +kernel
  match hcall : allocPagesBlock (logged supply) 0x1000 0x10000 513 1 0 oneLogged.mach, hret with
  | .ok (r, M'), hret =>
    obtain rfl : r = 0x10200000 := Option.some.inj hret
    obtain ⟨f, -, -, -, -, -, t', e, o, -, -, -, hlayout, -, hlog⟩ :=
      alloc_pages_block_geometry supply_lawful (S.tidy.intact.block hmade) hwords (by decide) hcall (by decide)
    have hpages : (M'.obj o).pages.map (fun q => (q.index, q.order)) = [(0, 9), (512, 0)] := hlayout.trans (by decide)
    have hindex : (M'.obj o).pages.map Page.index = [0, 512] := by
      simpa [Function.comp_def] using congrArg (List.map Prod.fst) hpages
    have hnone : oneLogged.mach.env.2 = [] := by decide +kernel
    refine ⟨M', o, rfl, hpages, ?_⟩
    rw [hlog, hnone, List.append_nil, List.map_reverse, List.map_map]
    change ((M'.obj o).pages.map ((fun i => add64 0x10200000 (4096 * i)) ∘ Page.index)).reverse = _
    rw [← List.map_map, hindex]
    decide

end Advos.Space
