import Advos.Pgt.Arch
import Advos.Pgt.Pages
import Advos.Pgt.Shared

/-! Blocks that are prepared, and blocks that are shared (`arch_memory_prepare`, `arch_memory_refer`).

    A process shares a block of the kernel region by region. The loop that prepares the block counts the
    regions, but prepares the first one in every round:

        region     |   0   |   1   |   2   |   3   |
        prepare    |  ×4   |       |       |       |
        refer      |  ×1   |  ×1   |  ×1   |  ×1   |

    The rounds of both loops are an `int`, and the regions repeat after 256 TiB. -/

namespace Advos.Pgt
open Word Linked List

variable {b : Buffer} {t : PageTable} {used usedK usedP : Used} {fr frK frP l : List ℕ} {u : PageTable} {g : ℕ → Option ℕ}
  {B : Pair} {s : Tables} {v start size : ℕ}

/-! ### The functions -/

/-- The start of region `i` of a block. -/
def slice (start i : ℕ) : ℕ := add64 start (2 ^ 30 * i)

/-- `(int)(size >> 30)`, the rounds of the loops. -/
def rounds (size : ℕ) : ℕ := (toInt32 (size >>> 30)).toNat

/-- The loop of `arch_memory_refer` from region `i` on. -/
def referLoop (virtual : ℕ) : ℕ → ℕ → Tables → ℤ × Tables
  | 0, _, s => (0, s)
  | n + 1, i, s =>
    if (pgtRefer s.process s.kernel (slice virtual i)).1 < 0 then (-1, s.refer (slice virtual i))
    else referLoop virtual n (i + 1) (s.refer (slice virtual i))

/-- `arch_memory_refer`, of the process to the kernel. -/
def archMemoryRefer (s : Tables) (virtual size : ℕ) : ℤ × Tables :=
  if size % 2 ^ 30 ≠ 0 then (-1, s) else referLoop virtual (rounds size) 0 s

/-- The address has a present entry in its PDPT. -/
def hasDirectory (t : PageTable) (v : ℕ) : Bool :=
  match lookup t (pml4 t) (index v 39) with
  | none => false
  | some pdpt => present (t.mem (slot pdpt (index v 30)))

/-- The entries of the PML4 for which a process needs a PDPT. -/
def needed (t : PageTable) (start nr : ℕ) : Finset ℕ :=
  ((Finset.range nr).image fun i => index (slice start i) 39).filter fun i => lookup t (pml4 t) i = none

/-! ### Regions -/

theorem region_eq_iff {x y : ℕ} : region x = region y ↔ x / 2 ^ 30 % 2 ^ 18 = y / 2 ^ 30 % 2 ^ 18 := by
  simp only [region, Prod.mk.injEq, index_eq]
  omega

theorem region_slice {i j : ℕ} : region (slice start i) = region (slice start j) ↔ i % 2 ^ 18 = j % 2 ^ 18 := by
  rw [region_eq_iff, slice, slice, add64, add64]
  omega

theorem rounds_le (size : ℕ) : rounds size ≤ size / 2 ^ 30 := by
  have h := toInt32_le (size >>> 30)
  rw [Nat.shiftRight_eq_div_pow] at h
  rw [rounds, Nat.shiftRight_eq_div_pow]
  omega

theorem archMemoryPrepare_eq (h : 2 ^ 30 ∣ size) : archMemoryPrepare t v size = prepareLoop v (rounds size) t := by
  rw [archMemoryPrepare, if_neg (not_not.mpr (Nat.mod_eq_zero_of_dvd h)), rounds]

theorem archMemoryRefer_eq (h : 2 ^ 30 ∣ size) : archMemoryRefer s v size = referLoop v (rounds size) 0 s := by
  rw [archMemoryRefer, if_neg (not_not.mpr (Nat.mod_eq_zero_of_dvd h))]

/-! ### Directories -/

theorem Tree.hasDirectory_iff (T : Tree b t used fr) (v : ℕ) :
    hasDirectory t v = true ↔ used [index v 30, index v 39] ≠ none := by
  rw [hasDirectory, T.pml4_eq]
  cases h4 : used [index v 39] with
  | none =>
    rw [lookup_zero (T.no_leaf T.root (index_lt v 39) (by decide) h4), T.used_none h4]
    simp
  | some c =>
    rw [(T.lookup_table h4 T.root).2]
    dsimp only
    cases h3 : used [index v 30, index v 39] with
    | none =>
      have hzero : t.mem (slot (b.page c) (index v 30)) = 0 := T.no_leaf h4 (index_lt v 30) (by simp) h3
      rw [hzero]
      simp [present]
    | some d =>
      have hentry : t.mem (slot (b.page c) (index v 30)) = b.tableEntry d := (T.lookup_table h3 h4).1
      rw [hentry, Buffer.tableEntry_present]
      simp

namespace Shares
variable (S : Shares B s usedK frK u usedP frP g)
include S

theorem hasDirectory_iff (v : ℕ) :
    hasDirectory s.process v = true ↔ usedP [index v 30, index v 39] ≠ none ∨ region v ∈ s.refs := by
  have hpml4 : pml4 (overlay g u) = B.process.page 0 := S.own.pml4_eq
  rw [hasDirectory, S.process, hpml4, overlay_lookup (S.foreign.level S.own S.own.root (by simp) (index_lt v 39))]
  by_cases hr : region v ∈ s.refs
  · obtain ⟨a, d, ha, -, hg⟩ := S.refs _ hr
    have ha : usedP [index v 39] = some a := ha
    rw [(S.own.lookup_table ha S.own.root).2]
    have hmem : (overlay g u).mem (slot (B.process.page a) (index v 30)) = B.kernel.tableEntry d :=
      congrArg (fun o : Option ℕ => o.getD _) hg
    dsimp only
    rw [hmem, Buffer.tableEntry_present]
    simp [hr]
  · simp only [hr, or_false]
    rw [← S.own.hasDirectory_iff, hasDirectory, S.own.pml4_eq]
    cases h4 : usedP [index v 39] with
    | none => rw [lookup_zero (S.own.no_leaf S.own.root (index_lt v 39) (by decide) h4)]
    | some a =>
      rw [(S.own.lookup_table h4 S.own.root).2]
      dsimp only
      rw [overlay_mem (S.foreign.other S.own h4 (index_lt v 30) hr)]

theorem lookup_none_iff {i : ℕ} (hi : i < 512) :
    lookup s.process (pml4 s.process) i = none ↔ usedP [i] = none := by
  have hpml4 : pml4 (overlay g u) = B.process.page 0 := S.own.pml4_eq
  rw [S.process, hpml4, overlay_lookup (S.foreign.level S.own S.own.root (by simp) hi)]
  cases h4 : usedP [i] with
  | none => simp [lookup_zero (S.own.no_leaf S.own.root hi (by decide) h4)]
  | some a => simp [(S.own.lookup_table h4 S.own.root).2]

theorem free_length (h : IsFree B.process s.process l) :
    l.length = frP.length := by
  have hown : IsFree B.process s.process frP := by
    have hfree : s.process.free = u.free := by rw [S.process, overlay]
    rw [IsFree, hfree]
    refine S.own.chain.congr fun x hx => ?_
    obtain ⟨c, hc, rfl⟩ := mem_map.mp hx
    have hmem : s.process.mem (B.process.page c) = u.mem (B.process.page c) := by
      rw [S.process]
      exact overlay_mem (S.foreign.free S.own hc le_rfl (by omega))
    rw [hmem]
  have hlen := congrArg List.length (h.unique hown)
  rwa [length_map, length_map] at hlen

end Shares

/-! ### Preparing -/

theorem pgtPrepare_along (T : Tree b t used fr) (hv : v < 2 ^ 64) : ∃ used' fr',
    Moves b ⟨t, used, fr⟩ ⟨(pgtPrepare t v).2, used', fr'⟩ ∧ Along (OnWay v) used used' ∧
      ((pgtPrepare t v).1 = 0 → used' [index v 30, index v 39] ≠ none) := by
  have h39 : index (align v 30) 39 = index v 39 := index_align hv (by decide)
  have h30 : index (align v 30) 30 = index v 30 := index_align hv le_rfl
  obtain ⟨t1, used1, fr1, E1, A1, h1⟩ := directory_spec T (align v 30)
  rw [h39, h30] at h1
  replace A1 : Along (OnWay v) used used1 := by
    refine A1.mono fun p hp => ?_
    rwa [OnWay, h39, h30] at hp
  rcases h1 with h1 | ⟨d, h1, hd⟩
  · simp only [pgtPrepare, h1]
    exact ⟨used1, fr1, E1.moves, A1, fun h => by cases h⟩
  · simp only [pgtPrepare, h1]
    exact ⟨used1, fr1, E1.moves, A1, fun _ => by simp [hd]⟩

theorem pgtPrepare_ret (t : PageTable) (v : ℕ) : (pgtPrepare t v).1 = 0 ∨ (pgtPrepare t v).1 = -1 := by
  rw [pgtPrepare]
  split <;> simp

theorem prepareLoop_along (T : Tree b t used fr) (hv : v < 2 ^ 64) (n : ℕ) : ∃ used' fr',
    Moves b ⟨t, used, fr⟩ ⟨(prepareLoop v n t).2, used', fr'⟩ ∧ Along (OnWay v) used used' ∧
      ((prepareLoop v n t).1 = 0 → n ≠ 0 → used' [index v 30, index v 39] ≠ none) := by
  induction n generalizing t used fr with
  | zero => exact ⟨used, fr, .refl, .refl, fun _ h => absurd rfl h⟩
  | succ n ih =>
    obtain ⟨used1, fr1, hmoves1, A1, hdir1⟩ := pgtPrepare_along T hv
    rw [prepareLoop]
    dsimp only
    split
    · exact ⟨used1, fr1, hmoves1, A1, fun h => by cases h⟩
    · next hret =>
      obtain ⟨used2, fr2, hmoves2, A2, -⟩ := ih (hmoves1.tree T)
      refine ⟨used2, fr2, hmoves1.trans hmoves2, A1.trans A2, fun _ _ => ?_⟩
      obtain ⟨d, hd⟩ := Option.ne_none_iff_exists'.mp (hdir1 ((pgtPrepare_ret t v).resolve_right fun h => hret (by rw [h]; decide)))
      have hkept := hmoves2.dirs (by simp) hd
      exact Option.ne_none_iff_exists'.mpr ⟨d, hkept⟩

/-! ### Referring -/

theorem slice_lt (start i : ℕ) : slice start i < 2 ^ 64 := add64_lt ..

section
variable (S : Shares B s usedK frK u usedP frP g)
include S

/-- STEP: a round that does not fail links the region in. -/
theorem Shares.refer_step (hv : v < 2 ^ 64) (hno : ¬(pgtRefer s.process s.kernel v).1 < 0) :
    ∃ u1 used1 fr1 g1, Shares B (s.refer v) usedK frK u1 used1 fr1 g1 ∧
      (s.refer v).refs = region v :: s.refs ∧ region v ∉ s.refs ∧
      used1 [index v 39] ≠ none ∧ Along (· = [index v 39]) usedP used1 ∧ (∀ i, used1 [i] = none → usedP [i] = none) ∧
      frP.length ≤ fr1.length + (if usedP [index v 39] = none then 1 else 0) := by
  obtain ⟨t1, used1, fr1, hmoves, halong, hlen, ⟨-, h⟩ | ⟨a, d, ha, hd, hr, h⟩⟩ := S.pgtRefer_cases hv
  · rw [h] at hno
    exact absurd neg_one_lt_zero hno
  have hrefer : s.refer v = s.setProcess (overlay (Function.update g (slot (B.process.page a) (index v 30))
      (some (B.kernel.tableEntry d))) t1) (region v :: s.refs) := by
    simp only [Tables.refer, h, if_true]
  rw [hrefer]
  refine ⟨t1, used1, fr1, _, S.link_step hmoves ha hd, rfl, hr, by simp [ha], halong, fun i hi => ?_, hlen⟩
  cases hu : usedP [i] with
  | none => rfl
  | some c =>
    have hkept := hmoves.dirs (by simp) hu
    dsimp only at hkept
    rw [hi] at hkept
    cases hkept

/-- RUN: all regions have a directory of the kernel, a free entry and a PDPT or a page for it. -/
theorem referLoop_done {n i : ℕ} {I : Finset ℕ} (hn : n ≤ 2 ^ 18)
    (hdirs : ∀ j < n, usedK [index (slice start (i + j)) 30, index (slice start (i + j)) 39] ≠ none)
    (hfree : ∀ j < n, region (slice start (i + j)) ∉ s.refs ∧ usedP [index (slice start (i + j)) 30, index (slice start (i + j)) 39] = none)
    (hI : ∀ j < n, usedP [index (slice start (i + j)) 39] = none → index (slice start (i + j)) 39 ∈ I)
    (hcard : I.card ≤ frP.length) : (referLoop start n i s).1 = 0 := by
  induction n generalizing i s usedP frP u g I with
  | zero => rfl
  | succ n ih =>
    have hpos := Nat.succ_pos n
    obtain ⟨hr0, hu0⟩ := hfree 0 hpos
    have hI0 : usedP [index (slice start i) 39] = none → index (slice start i) 39 ∈ I := hI 0 hpos
    have hno : ¬(pgtRefer s.process s.kernel (slice start i)).1 < 0 := by
      obtain ⟨t1, used1, fr1, -, -, -, ⟨hns, -⟩ | ⟨a, d, -, -, -, h⟩⟩ := S.pgtRefer_cases (slice_lt start i)
      · rcases hns with hk | ⟨hp, rfl⟩ | hr | hu
        · exact absurd hk (hdirs 0 hpos)
        · have hmem := Finset.card_pos.mpr ⟨_, hI0 hp⟩
          rw [length_nil] at hcard
          omega
        · exact absurd hr hr0
        · exact absurd hu0 hu
      · rw [h]
        exact lt_irrefl 0
    obtain ⟨u1, used1, fr1, g1, S1, hrefs, -, hnew, halong, hmono, hlen⟩ := S.refer_step (slice_lt start i) hno
    rw [referLoop, if_neg hno]
    have hshift : ∀ j, i + 1 + j = i + (j + 1) := fun j => by omega
    refine ih (I := I.erase (index (slice start i) 39)) S1 (by omega) (fun j hj => ?_) (fun j hj => ?_) (fun j hj hnone => ?_) ?_
    · rw [hshift]
      exact hdirs (j + 1) (by omega)
    · rw [hshift, hrefs]
      obtain ⟨hr, hu⟩ := hfree (j + 1) (by omega)
      refine ⟨fun hmem => ?_, ?_⟩
      · have heq := region_slice.mp ((mem_cons.mp hmem).resolve_right hr)
        omega
      · cases hd : used1 [index (slice start (i + (j + 1))) 30, index (slice start (i + (j + 1))) 39] with
        | none => rfl
        | some d =>
          rcases halong _ _ hd with hd | heq
          · rw [hu] at hd
            cases hd
          · exact absurd (congrArg List.length heq) (by simp)
    · rw [hshift] at hnone ⊢
      refine Finset.mem_erase.mpr ⟨fun heq => ?_, hI (j + 1) (by omega) (hmono _ hnone)⟩
      rw [heq] at hnone
      exact hnew hnone
    · by_cases hp : usedP [index (slice start i) 39] = none
      · rw [if_pos hp] at hlen
        rw [Finset.card_erase_of_mem (hI0 hp)]
        omega
      · rw [if_neg hp] at hlen
        exact (Finset.card_erase_le).trans (by omega)

theorem referLoop_fresh {n i : ℕ} (h : (referLoop start n i s).1 = 0) :
    ∀ j < n, region (slice start (i + j)) ∉ s.refs := by
  induction n generalizing i s usedP frP u g with
  | zero => exact fun j hj => absurd hj (Nat.not_lt_zero j)
  | succ n ih =>
    rw [referLoop] at h
    split at h
    · cases h
    next hno =>
    obtain ⟨u1, used1, fr1, g1, S1, hrefs, hr, -⟩ := S.refer_step (slice_lt start i) hno
    rintro (_ | j) hj
    · exact hr
    · have hnot := ih S1 h j (by omega)
      rw [hrefs] at hnot
      have hshift : i + 1 + j = i + (j + 1) := by omega
      rw [hshift] at hnot
      exact fun hmem => hnot (mem_cons_of_mem _ hmem)

theorem referLoop_le {n : ℕ} (h : (referLoop start n 0 s).1 = 0) : n ≤ 2 ^ 18 := by
  by_contra hlt
  obtain ⟨m, rfl⟩ : ∃ m, n = m + 1 := ⟨n - 1, by omega⟩
  rw [referLoop] at h
  split at h
  · cases h
  next hno =>
  obtain ⟨u1, used1, fr1, g1, S1, hrefs, -⟩ := S.refer_step (slice_lt start 0) hno
  have hnot := referLoop_fresh S1 h (2 ^ 18 - 1) (by omega)
  rw [hrefs] at hnot
  refine hnot (mem_cons.mpr (.inl (region_slice.mpr ?_)))
  decide

end

/-! ### Prepared blocks -/

variable {n nr : ℕ}

/-- After `n` rounds the first region has a directory, and the others have one if they had it. -/
theorem prepareLoop_directories (T : Tree b t used fr) (hstart : start < 2 ^ 64) (hret : (prepareLoop start n t).1 = 0) :
    hasDirectory (prepareLoop start n t).2 v = true ↔
      hasDirectory t v = true ∨ 0 < n ∧ region v = region start := by
  by_cases hpos : n = 0
  · rw [hpos, prepareLoop]
    simp
  obtain ⟨used', fr', hmoves, halong, hfirst⟩ := prepareLoop_along T hstart n
  have T' : Tree b (prepareLoop start n t).2 used' fr' := hmoves.tree T
  rw [T'.hasDirectory_iff, T.hasDirectory_iff]
  constructor
  · intro hdir
    obtain ⟨d, hd⟩ := Option.ne_none_iff_exists'.mp hdir
    rcases halong _ _ hd with hd | heq | heq
    · exact .inl (by simp [hd])
    · exact absurd (congrArg List.length heq) (by simp)
    · obtain ⟨h30, hrest⟩ := List.cons.inj heq
      exact .inr ⟨Nat.pos_of_ne_zero hpos, Prod.ext h30 (List.cons.inj hrest).1⟩
  · rintro (hdir | ⟨-, hregion⟩)
    · obtain ⟨d, hd⟩ := Option.ne_none_iff_exists'.mp hdir
      have hkept := hmoves.dirs (by simp) hd
      exact Option.ne_none_iff_exists'.mpr ⟨d, hkept⟩
    · obtain ⟨h30, h39⟩ := Prod.mk.inj hregion
      rw [h30, h39]
      exact hfirst hret hpos

theorem prepared_rounds (S : Shares B s usedK frK u usedP frP g) (hstart : start < 2 ^ 64) (hn : n ≤ nr)
    (hclear : ∀ i < nr, hasDirectory s.process (slice start i) = false) (hfree : IsFree B.process s.process l)
    (henough : (needed s.process start nr).card ≤ l.length) (hret : (prepareLoop start n s.kernel).1 = 0) :
    ((∀ i < nr, hasDirectory (prepareLoop start n s.kernel).2 (slice start i) = true) ∧
      (referLoop start n 0 (s.setKernel (prepareLoop start n s.kernel).2)).1 = 0) ↔
    (∀ i < nr, hasDirectory s.kernel (slice start i) = true ∨ 0 < n ∧ region (slice start i) = region start) ∧
      n ≤ 2 ^ 18 := by
  have hslice := fun i => prepareLoop_directories (v := slice start i) S.kernel hstart hret
  obtain ⟨usedK', frK', hmoves, -⟩ := prepareLoop_along S.kernel hstart n
  obtain ⟨u', S', -⟩ := S.kernel_moves hmoves
  constructor
  · rintro ⟨hall, hrefer⟩
    exact ⟨fun i hi => (hslice i).mp (hall i hi), referLoop_le S' hrefer⟩
  · rintro ⟨hall, hle⟩
    have hlt : ∀ j < n, j < nr := fun j hj => hj.trans_le hn
    refine ⟨fun i hi => (hslice i).mpr (hall i hi), referLoop_done (I := needed s.process start nr) S' hle
      (fun j hj => ?_) (fun j hj => ?_) (fun j hj hnone => ?_) ?_⟩
    · rw [Nat.zero_add]
      exact (S'.kernel.hasDirectory_iff _).mp ((hslice j).mpr (hall j (hlt j hj)))
    · rw [Nat.zero_add]
      have hno := mt (S.hasDirectory_iff (slice start j)).mpr (Bool.eq_false_iff.mp (hclear j (hlt j hj)))
      push Not at hno
      exact ⟨hno.2, hno.1⟩
    · rw [Nat.zero_add] at hnone ⊢
      refine Finset.mem_filter.mpr ⟨Finset.mem_image.mpr ⟨j, Finset.mem_range.mpr (hlt j hj), rfl⟩, ?_⟩
      exact (S.lookup_none_iff (index_lt ..)).mpr hnone
    · rwa [← S.free_length hfree]

variable (start size) in
/-- The regions of a block have directories, so that a process with the entries free and enough pages can
    share it: exactly if those after the first one had them before the call, and the rounds are neither cut
    off nor go around. -/
theorem prepared_block_shared (h : Tables.Reach B s) (hstart : start < 2 ^ 64) (hsize : 2 ^ 30 ∣ size)
    (hclear : ∀ i < size / 2 ^ 30, hasDirectory s.process (slice start i) = false)
    (hfree : IsFree B.process s.process l) (henough : (needed s.process start (size / 2 ^ 30)).card ≤ l.length)
    (hret : (archMemoryPrepare s.kernel start size).1 = 0) :
    ((∀ i < size / 2 ^ 30, hasDirectory (archMemoryPrepare s.kernel start size).2 (slice start i) = true) ∧
      (archMemoryRefer (s.setKernel (archMemoryPrepare s.kernel start size).2) start size).1 = 0) ↔
    (∀ i < size / 2 ^ 30, hasDirectory s.kernel (slice start i) = true ∨
      0 < rounds size ∧ region (slice start i) = region start) ∧ rounds size ≤ 2 ^ 18 := by
  obtain ⟨usedK, frK, u, usedP, frP, g, S⟩ := h.sharing
  rw [archMemoryPrepare_eq hsize] at hret ⊢
  rw [archMemoryRefer_eq hsize]
  exact prepared_rounds S hstart (rounds_le size) hclear hfree henough hret

/-- A kernel and a process with new page tables. -/
def newTables : Option Tables := do
  let t ← pgtInit (fun _ => 0) fourPages.base fourPages.nr fourPages.p2v
  let p ← pgtInit t.mem twoBuffers.process.base twoBuffers.process.nr twoBuffers.process.p2v
  return ⟨{ t with mem := p.mem }, p, t.with_mem p, []⟩

/-- One region is prepared and shared. -/
theorem prepared_block_shared_one_region : ∃ s, newTables = some s ∧
    (archMemoryRefer (s.setKernel (archMemoryPrepare s.kernel 0x80000000 0x40000000).2) 0x80000000 0x40000000).1 = 0 := by
  obtain ⟨t, ht⟩ : ∃ t, pgtInit (fun _ => 0) fourPages.base fourPages.nr fourPages.p2v = some t := ⟨_, rfl⟩
  obtain ⟨p, hp⟩ : ∃ p, pgtInit t.mem twoBuffers.process.base twoBuffers.process.nr twoBuffers.process.p2v = some p :=
    ⟨_, rfl⟩
  have hreach : Tables.Reach twoBuffers ⟨{ t with mem := p.mem }, p, rfl, []⟩ :=
    ⟨_, ⟨t, p, ⟨_, t, ht, .refl⟩, hp, rfl⟩, .refl⟩
  have hclear : ∀ i < 0x40000000 / 2 ^ 30, hasDirectory p (slice 0x80000000 i) = false := by
    cases ht
    cases hp
    decide +kernel
  have hret : (archMemoryPrepare { t with mem := p.mem } 0x80000000 0x40000000).1 = 0 := by
    cases ht
    cases hp
    decide +kernel
  have hcard : (needed p 0x80000000 (0x40000000 / 2 ^ 30)).card ≤ 3 := by
    refine (Finset.card_filter_le ..).trans (Finset.card_image_le.trans ?_)
    decide
  refine ⟨⟨{ t with mem := p.mem }, p, rfl, []⟩, ?_, ?_⟩
  · rw [newTables, ht]
    dsimp only [bind, Option.bind]
    rw [hp]
    rfl
  · have hiff := prepared_block_shared 0x80000000 0x40000000 hreach (by decide) (by decide) hclear (pgtInit_tree hp).chain
      hcard hret
    exact (hiff.mpr ⟨fun i hi => .inr ⟨by decide, by
      obtain rfl : i = 0 := by omega
      decide⟩, by decide⟩).2

/-- Of two regions the second one is not prepared, and cannot be shared. -/
theorem second_region_not_prepared : ∃ s, newTables = some s ∧ Tables.Reach twoBuffers s ∧
    (archMemoryPrepare s.kernel 0x80000000 0x80000000).1 = 0 ∧
    hasDirectory (archMemoryPrepare s.kernel 0x80000000 0x80000000).2 0xc0000000 = false ∧
    (archMemoryRefer (s.setKernel (archMemoryPrepare s.kernel 0x80000000 0x80000000).2) 0x80000000 0x80000000).1 = -1 := by
  obtain ⟨s, hs⟩ : ∃ s, newTables = some s := ⟨_, rfl⟩
  refine ⟨s, hs, ?_, ?_, ?_, ?_⟩
  · cases hs
    exact ⟨_, ⟨_, _, ⟨_, _, rfl, .refl⟩, rfl, rfl⟩, .refl⟩
  all_goals
    cases hs
    decide +kernel

end Advos.Pgt
