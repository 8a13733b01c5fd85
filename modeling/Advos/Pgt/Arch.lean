import Advos.Pgt.Large
import Advos.Schemes.Layers

/-! Mapping a page of any order (`arch_memory_map`, `arch_memory_unmap`, `arch_memory_prepare`).

    A page of `2 ^ order` frames is mapped by 2 MiB pages from order 9 on and by 4 KiB pages below. The
    page tables get one leaf after the other; if one of them is refused those before it are unmapped,
    the last one first:

        virtual   |leaf 0|leaf 1|leaf 2| ... |leaf n - 1|
                                   x refused
                      <------- unmapped                                            -/

namespace Advos.Pgt
open Word Layers List

variable {b : Buffer} {t t' : PageTable} {used : Used} {fr : List ℕ} {a : ℕ}

/-! ### The functions -/

/-- From `MEMORY_SUPERPAGESIZE_SHIFT - MEMORY_PAGESIZE_SHIFT` on a page is mapped by superpages. -/
def superpageOf (order : ℕ) : ℤ := if order ≥ 9 then 1 else 0

/-- `pagesize`. -/
def pagesizeOf (order : ℕ) : ℕ := if order ≥ 9 then 2 ^ 21 else 4096

/-- `1LL << nr`. -/
def countOf (order : ℕ) : ℕ := 2 ^ (if order ≥ 9 then order - 9 else order)

/-- An `int` that is 0 or 1. -/
def flagOf (b : Bool) : ℤ := if b then 1 else 0

/-- `rw`: `MEMORY_PGF_RW` of the page, unless the space has `MEMORY_VMF_COW`. -/
def rwOf (pgf flags : ℕ) : Bool := pgf.testBit 1 && !flags.testBit 7

/-- The loop of `arch_memory_map` from `i` on: whether it ends, and the index it ends with. -/
def mapLoop (call : ℕ → PageTable → ℤ × PageTable) : ℕ → ℕ → PageTable → Bool × ℕ × PageTable
  | 0, i, t => (true, i, t)
  | n + 1, i, t =>
    match call i t with
    | (ret, t) => if ret < 0 then (false, i, t) else mapLoop call n (i + 1) t

/-- The pages with the indices `js` are unmapped. -/
def unmapAll (virtual order : ℕ) (js : List ℕ) (t : PageTable) : PageTable :=
  js.foldl (fun t j => (pgtUnmap t (add64 virtual (pagesizeOf order * j)) (superpageOf order)).2) t

/-- `arch_memory_map` for a page with a frame, an order and flags; `flags` are those of the space,
    `MEMORY_VMF_GLOBAL` and `MEMORY_MAP_USER` among them. -/
def archMemoryMap (t : PageTable) (virtual physical order pgf flags : ℕ) : ℤ × PageTable :=
  let call i t := pgtMap t (add64 virtual (pagesizeOf order * i)) (add64 physical (pagesizeOf order * i))
    (superpageOf order) (flagOf (flags.testBit 6)) (flagOf (rwOf pgf flags)) (flagOf (flags.testBit 3))
  match mapLoop call (countOf order) 0 t with
  | (true, _, t) => (0, t)
  | (false, i, t) => (-1, unmapAll virtual order (List.range i).reverse t)

/-- `arch_memory_unmap`; what `pgt_unmap` returns is not looked at. -/
def archMemoryUnmap (t : PageTable) (virtual order : ℕ) : ℤ × PageTable :=
  (0, unmapAll virtual order (List.range (countOf order)) t)

/-- The loop of `arch_memory_prepare`; every round prepares the same address. -/
def prepareLoop (virtual : ℕ) : ℕ → PageTable → ℤ × PageTable
  | 0, t => (0, t)
  | n + 1, t =>
    match pgtPrepare t virtual with
    | (ret, t) => if ret < 0 then (-1, t) else prepareLoop virtual n t

/-- `arch_memory_prepare`. -/
def archMemoryPrepare (t : PageTable) (virtual size : ℕ) : ℤ × PageTable :=
  if size % 2 ^ 30 ≠ 0 then (-1, t) else prepareLoop virtual (toInt32 (size >>> 30)).toNat t

/-! ### Page tables as partial functions -/

/-- The page table is a tree of tables in the pages of `b`. -/
def Formed (b : Buffer) (t : PageTable) : Prop := ∃ used fr, Tree b t used fr

theorem Reach.formed (h : Reach b t) : Formed b t := by
  obtain ⟨used, fr, T, -⟩ := h.shape
  exact ⟨used, fr, T⟩

/-- What a call does to the walk: it is done, or refused without an effect. -/
def Answer (b : Buffer) (t : PageTable) (r : ℤ × PageTable) (W' : ℕ → Option Xlat) (fresh : ℕ → Prop) : Prop :=
  Formed b r.2 ∧ (r.1 = 0 ∧ (∀ v, walk r.2 v = W' v) ∧ (∀ v, fresh v → walk t v = none) ∨
    r.1 = -1 ∧ ∀ v, walk r.2 v = walk t v)

theorem Traced.answer {way : List ℕ → Prop} {fits : Prop} {r : ℤ × PageTable} {W' : ℕ → Option Xlat} {fresh : ℕ → Prop}
    (T : Tree b t used fr) (h : Traced way fits b t used fr r W' fresh) : Answer b t r W' fresh := by
  obtain ⟨used', fr', T', -, -, h⟩ := h
  refine ⟨⟨used', fr', T'⟩, ?_⟩
  simp only [T.walk_eq, T'.walk_eq]
  exact h

/-! ### One leaf -/

variable {virtual physical : ℕ}

/-- MAP: a leaf is laid over the walk, for frames of any address; 4 KiB calls keep clear of 2 MiB pages. -/
theorem Formed.map (h : Formed b t) {superpage global rw user : ℤ} (hv : virtual < 2 ^ 64)
    (hlarge : superpage = 0 → ¬InLarge t virtual) :
    Answer b t (pgtMap t virtual physical superpage global rw user)
      (laid virtual physical superpage rw user (walk t)) (Covers superpage virtual) := by
  obtain ⟨used, fr, T⟩ := h
  have hwalk : walk t = view b t used := funext T.walk_eq
  rw [hwalk]
  simp only [InLarge, hwalk] at hlarge
  exact (pgtMap_spec T hv hlarge).answer T

/-- UNMAP: a page that is mapped is taken away. -/
theorem Formed.unmap (h : Formed b t) {virtual : ℕ} {superpage : ℤ} (hv : virtual < 2 ^ 64) {x : Xlat}
    (hx : walk t virtual = some x) (hsize : x.size = 2 ^ pageShift superpage) :
    Formed b (pgtUnmap t virtual superpage).2 ∧
      ∀ v, walk (pgtUnmap t virtual superpage).2 v = if Covers superpage virtual v then none else walk t v := by
  obtain ⟨used, fr, T⟩ := h
  rw [T.walk_eq] at hx
  have hlarge : superpage = 0 → ¬∃ x, view b t used virtual = some x ∧ x.size = 2 ^ 21 := by
    rintro rfl ⟨x', hx', hsize'⟩
    rw [hx] at hx'
    cases hx'
    rw [hsize'] at hsize
    exact absurd hsize (by decide)
  have htraced : Traced _ True b t used fr (pgtUnmap t virtual superpage) _ _ := pgtUnmap_spec T hv hlarge
  obtain ⟨hformed, hcases⟩ := htraced.answer T
  refine ⟨hformed, ?_⟩
  rcases hcases with ⟨-, hW, -⟩ | ⟨h1, -⟩
  · intro v
    rw [hW v, T.walk_eq]
    rfl
  · rcases pgtUnmap_cases T hv hlarge with ⟨-, hno⟩ | ⟨a, -, ⟨-, c, -, h⟩ | ⟨-, -, h⟩⟩
    · exact absurd hsize (hno x hx)
    · rw [h] at h1
      cases h1
    · rw [h] at h1
      cases h1

/-! ### The leaves of a page -/

/-- A leaf: the page it is for, and the translation of the addresses on it. -/
structure Leaf where
  superpage : ℤ
  virtual : ℕ
  xlat : Xlat
  size_eq : xlat.size = 2 ^ pageShift superpage

def Leaf.Has (r : Leaf) (v : ℕ) : Prop := Covers r.superpage r.virtual v

/-- The page of a leaf. -/
def Leaf.spot (r : Leaf) : ℤ × ℕ := (r.superpage, r.virtual)

/-- The pages that a page of any order is mapped by. -/
def spots (virtual order : ℕ) : List (ℤ × ℕ) :=
  (List.range (countOf order)).map fun i => (superpageOf order, add64 virtual (pagesizeOf order * i))

/-- Leaf `i` of a page. -/
def leafAt (virtual physical order pgf flags i : ℕ) : Leaf where
  superpage := superpageOf order
  virtual := add64 virtual (pagesizeOf order * i)
  xlat := ⟨align (add64 physical (pagesizeOf order * i)) (pageShift (superpageOf order)) % 2 ^ 52,
    2 ^ pageShift (superpageOf order), rwOf pgf flags, flags.testBit 3⟩
  size_eq := rfl

def leaves (virtual physical order pgf flags : ℕ) : List Leaf :=
  (List.range (countOf order)).map (leafAt virtual physical order pgf flags)

/-- The leaves are laid over the translation. -/
abbrev Lays (l : List Leaf) (W W' : ℕ → Option Xlat) : Prop := Laid Leaf.Has Leaf.xlat l W W'

/-- The 4 KiB pages are clear of 2 MiB pages, those that are there and those that come before them. -/
structure Clear (l : List (ℤ × ℕ)) (W : ℕ → Option Xlat) : Prop where
  old : ∀ r ∈ l, r.1 = 0 → ∀ x, W r.2 = some x → x.size ≠ 2 ^ 21
  new : l.Pairwise fun r r' => r'.1 = 0 → Covers r.1 r.2 r'.2 → r.1 = 0

section Clear
variable {l l' : List (ℤ × ℕ)} {W W' : ℕ → Option Xlat}

theorem Clear.left (h : Clear (l ++ l') W) : Clear l W :=
  ⟨fun r hr => h.old r (mem_append_left _ hr), (pairwise_append.mp h.new).1⟩

theorem Clear.right {s : List Leaf} (h : Clear (s.map Leaf.spot ++ l') W) (hl : Lays s W W') : Clear l' W' := by
  obtain ⟨-, hnew, hcross⟩ := pairwise_append.mp h.new
  refine ⟨fun r hr hs x hx => ?_, hnew⟩
  rcases hl.cases hx with hx | ⟨r', hr', hhas, rfl⟩
  · exact h.old r (mem_append_right _ hr) hs x hx
  · have hsmall : r'.superpage = 0 := hcross r'.spot (mem_map_of_mem hr') r hr hs hhas
    rw [r'.size_eq, hsmall]
    decide

theorem Clear.congr (h : Clear l W) (hW : ∀ v, W' v = W v) : Clear l W' :=
  ⟨fun r hr hs x hx => h.old r hr hs x ((hW _).symm.trans hx), h.new⟩

end Clear

@[simp] theorem bitOf_flagOf (c : Bool) : bitOf (flagOf c) = c := by cases c <;> rfl

section Loops
variable {virtual physical order pgf flags : ℕ}

theorem mapLoop_lays {n i j : ℕ} {ok : Bool} (h : Formed b t)
    (hclear : Clear ((List.range' i n).map fun i => (leafAt virtual physical order pgf flags i).spot) (walk t))
    (hloop : mapLoop (fun i t => pgtMap t (add64 virtual (pagesizeOf order * i)) (add64 physical (pagesizeOf order * i))
      (superpageOf order) (flagOf (flags.testBit 6)) (flagOf (rwOf pgf flags)) (flagOf (flags.testBit 3))) n i t =
      (ok, j, t')) :
    Formed b t' ∧ (∃ k ≤ n, j = i + k ∧
      Lays ((List.range' i k).map (leafAt virtual physical order pgf flags)) (walk t) (walk t')) ∧
      (ok = true → j = i + n) := by
  induction n generalizing i t with
  | zero =>
    obtain ⟨-, hrest⟩ := Prod.mk.inj hloop
    cases hrest
    exact ⟨h, ⟨0, le_rfl, rfl, .nil fun _ => rfl⟩, fun _ => rfl⟩
  | succ n ih =>
    rw [List.range'_succ, map_cons] at hclear
    have hlarge : superpageOf order = 0 → ¬InLarge t (add64 virtual (pagesizeOf order * i)) := by
      rintro hs ⟨x, hx, hsize⟩
      exact hclear.old _ mem_cons_self hs x hx hsize
    have hcall : Answer b t (pgtMap t (add64 virtual (pagesizeOf order * i)) (add64 physical (pagesizeOf order * i))
        (superpageOf order) (flagOf (flags.testBit 6)) (flagOf (rwOf pgf flags)) (flagOf (flags.testBit 3))) _ _ :=
      h.map (add64_lt ..) hlarge
    rw [mapLoop] at hloop
    dsimp only at hloop
    generalize pgtMap t (add64 virtual (pagesizeOf order * i)) (add64 physical (pagesizeOf order * i))
      (superpageOf order) (flagOf (flags.testBit 6)) (flagOf (rwOf pgf flags)) (flagOf (flags.testBit 3)) = r at hcall hloop
    obtain ⟨hformed, hanswer⟩ := hcall
    rcases hanswer with ⟨h0, hwalk, hfresh⟩ | ⟨h1, hwalk⟩
    · rw [h0, if_neg (by decide)] at hloop
      simp only [laid, bitOf_flagOf] at hwalk
      have hone : Lays [leafAt virtual physical order pgf flags i] (walk t) (walk r.2) :=
        .single hfresh (fun y hy => (hwalk y).trans (if_pos hy)) fun y hy => (hwalk y).trans (if_neg hy)
      obtain ⟨hformed', ⟨k, hk, rfl, hlays⟩, hend⟩ := ih hformed (Clear.right (s := [_]) hclear hone) hloop
      refine ⟨hformed', ⟨k + 1, by omega, by omega, ?_⟩, fun hok => ?_⟩
      · rw [List.range'_succ, map_cons]
        exact hone.append hlays
      · have := hend hok
        omega
    · rw [h1, if_pos (by decide)] at hloop
      obtain ⟨rfl, hrest⟩ := Prod.mk.inj hloop
      cases hrest
      exact ⟨hformed, ⟨0, by omega, rfl, .nil hwalk⟩, fun hf => Bool.noConfusion hf⟩

theorem unmapAll_lays {js : List ℕ} {l : List Leaf} {W : ℕ → Option Xlat} (h : Formed b t)
    (hlays : Lays (js.map (leafAt virtual physical order pgf flags) ++ l) W (walk t)) :
    Formed b (unmapAll virtual order js t) ∧ Lays l W (walk (unmapAll virtual order js t)) := by
  induction js generalizing t with
  | nil => exact ⟨h, hlays⟩
  | cons j js ih =>
    rw [map_cons, cons_append] at hlays
    have hx := hlays.value _ mem_cons_self (add64 virtual (pagesizeOf order * j)) rfl
    obtain ⟨hformed, hwalk⟩ := h.unmap (add64_lt ..) hx (leafAt virtual physical order pgf flags j).size_eq
    exact ih hformed (hlays.remove (fun y hy => (hwalk y).trans (if_pos hy)) fun y hy => (hwalk y).trans (if_neg hy))

variable (physical pgf flags) in
/-- `arch_memory_map` lays the leaves of the page, or changes nothing. -/
theorem Formed.archMap (h : Formed b t) (hclear : Clear (spots virtual order) (walk t)) :
    Formed b (archMemoryMap t virtual physical order pgf flags).2 ∧
      ((archMemoryMap t virtual physical order pgf flags).1 = 0 ∧
          Lays (leaves virtual physical order pgf flags) (walk t) (walk (archMemoryMap t virtual physical order pgf flags).2) ∨
        (archMemoryMap t virtual physical order pgf flags).1 = -1 ∧
          ∀ y, walk (archMemoryMap t virtual physical order pgf flags).2 y = walk t y) := by
  rw [spots, List.range_eq_range'] at hclear
  obtain ⟨⟨ok, j, t'⟩, hloop⟩ : ∃ r, mapLoop (fun i t => pgtMap t (add64 virtual (pagesizeOf order * i))
    (add64 physical (pagesizeOf order * i)) (superpageOf order) (flagOf (flags.testBit 6)) (flagOf (rwOf pgf flags))
    (flagOf (flags.testBit 3))) (countOf order) 0 t = r := ⟨_, rfl⟩
  obtain ⟨hformed, ⟨k, -, hk, hlays⟩, hend⟩ := mapLoop_lays h hclear hloop
  obtain rfl : j = k := by omega
  simp only [archMemoryMap, hloop]
  cases ok with
  | true =>
    obtain rfl : j = countOf order := by simpa using hend rfl
    refine ⟨hformed, .inl ⟨rfl, ?_⟩⟩
    rw [leaves, List.range_eq_range']
    exact hlays
  | false =>
    -- the last leaf goes first
    have hback : Lays ((List.range j).reverse.map (leafAt virtual physical order pgf flags) ++ []) (walk t) (walk t') := by
      rw [List.append_nil]
      refine hlays.perm (List.Perm.map _ ?_)
      rw [List.range_eq_range']
      exact (List.reverse_perm _).symm
    obtain ⟨hformed', hnil⟩ := unmapAll_lays hformed hback
    exact ⟨hformed', .inr ⟨rfl, hnil.of_nil⟩⟩

namespace Formed
variable (h : Formed b t)
include h

/-- A call that is refused leaves the translations, also inside a 2 MiB page. -/
theorem map_refused {virtual physical : ℕ} {superpage global rw user : ℤ} (hv : virtual < 2 ^ 64)
    (hneg : (pgtMap t virtual physical superpage global rw user).1 < 0) (y : ℕ) :
    walk (pgtMap t virtual physical superpage global rw user).2 y = walk t y := by
  by_cases hl : superpage = 0 ∧ InLarge t virtual
  · obtain ⟨rfl, hl⟩ := hl
    obtain ⟨used, fr, T⟩ := h
    obtain ⟨d, -, hd, hpres⟩ := T.in_large hl
    obtain ⟨h39, h30, h21⟩ := index_align_page 0 hv
    have hpres : present (t.mem (slot (b.page d) (index virtual 21))) = true := hpres
    rw [← h30, ← h39] at hd
    simp only [pgtMap, (T.directory_eq hd).1, ne_eq, not_true_eq_false, if_false, nextTable, lookup, h21, if_pos hpres,
      mapEntry] at hneg ⊢
    split at hneg
    · next hword => rw [if_pos hword]
    · exact absurd hneg (lt_irrefl 0)
  · have hanswer : Answer b t (pgtMap t virtual physical superpage global rw user) _ _ :=
      h.map hv fun hs hin => hl ⟨hs, hin⟩
    rcases hanswer.2 with ⟨h0, -⟩ | ⟨-, hwalk⟩
    · rw [h0] at hneg
      exact absurd hneg (by decide)
    · exact hwalk y

theorem archMap_refused (hneg : (archMemoryMap t virtual physical 0 pgf flags).1 < 0) (y : ℕ) :
    walk (archMemoryMap t virtual physical 0 pgf flags).2 y = walk t y := by
  have hcount : countOf 0 = 1 := rfl
  by_cases hret : (pgtMap t (add64 virtual (pagesizeOf 0 * 0)) (add64 physical (pagesizeOf 0 * 0)) (superpageOf 0)
      (flagOf (flags.testBit 6)) (flagOf (rwOf pgf flags)) (flagOf (flags.testBit 3))).1 < 0
  · simp only [archMemoryMap, hcount, mapLoop, if_pos hret]
    exact h.map_refused (add64_lt ..) hret y
  · simp only [archMemoryMap, hcount, mapLoop, if_neg hret] at hneg
    exact absurd hneg (lt_irrefl 0)

theorem prepareLoop (n : ℕ) :
    Formed b (prepareLoop virtual n t).2 ∧ ∀ y, walk (Pgt.prepareLoop virtual n t).2 y = walk t y := by
  induction n generalizing t with
  | zero => exact ⟨h, fun _ => rfl⟩
  | succ n ih =>
    obtain ⟨used, fr, T⟩ := h
    have htraced : Traced _ True b t used fr (pgtPrepare t virtual) _ _ := pgtPrepare_spec T virtual
    obtain ⟨hformed, hanswer⟩ := htraced.answer T
    have hwalk : ∀ y, walk (pgtPrepare t virtual).2 y = walk t y := by
      rcases hanswer with ⟨-, hW, -⟩ | ⟨-, hW⟩
      · exact fun y => (hW y).trans (T.walk_eq y).symm
      · exact hW
    rw [Pgt.prepareLoop]
    dsimp only
    split
    · exact ⟨hformed, hwalk⟩
    · obtain ⟨hformed', hwalk'⟩ := ih hformed
      exact ⟨hformed', fun y => (hwalk' y).trans (hwalk y)⟩

theorem archPrepare (size : ℕ) :
    Formed b (archMemoryPrepare t virtual size).2 ∧ ∀ y, walk (archMemoryPrepare t virtual size).2 y = walk t y := by
  rw [archMemoryPrepare]
  split
  · exact ⟨h, fun _ => rfl⟩
  · exact h.prepareLoop _

end Formed

end Loops

end Advos.Pgt
