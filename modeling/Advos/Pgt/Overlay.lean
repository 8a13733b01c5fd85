import Advos.Pgt.Runs

/-! Foreign entries.

    A page table that refers to regions of another one has entries in its PDPTs that point to tables which
    are not its own:

        own tables   PML4 ──▶ PDPT ──▶ PD ──▶ PT
                               └─────▶ a PD of the other page table

    `overlay g u` is the page table `u` of own tables with the foreign entries `g` on top. The calls at
    addresses of other regions do not meet them: they work on `overlay g u` as on `u`. -/

namespace Advos.Pgt
open Linked

/-- The words of `g` over the memory of `u`. -/
def overlay (g : ℕ → Option ℕ) (u : PageTable) : PageTable :=
  { u with mem := fun x => (g x).getD (u.mem x) }

/-- The 1 GiB region of an address, as the indices to its entry. -/
def region (v : ℕ) : ℕ × ℕ := (index v 30, index v 39)

/-- The words of `g` are entries of PDPTs, for regions of `R`. -/
def Foreign (b : Buffer) (used : Used) (g : ℕ → Option ℕ) (R : List (ℕ × ℕ)) : Prop :=
  ∀ x w, g x = some w → ∃ r ∈ R, ∃ a, used [r.2] = some a ∧ r.1 < 512 ∧ x = slot (b.page a) r.1

variable {b : Buffer} {u t : PageTable} {used used' : Used} {fr fr' : List ℕ} {p : List ℕ} {a c i w x v : ℕ}
  {g : ℕ → Option ℕ} {R : List (ℕ × ℕ)}

/-! ### Primitives -/

theorem overlay_mem (hx : g x = none) : (overlay g u).mem x = u.mem x := by
  simp only [overlay, hx, Option.getD_none]

theorem overlay_store (hx : g x = none) : store (overlay g u) x w = overlay g (store u x w) := by
  simp only [overlay, store, PageTable.mk.injEq, true_and]
  funext y
  by_cases hy : y = x
  · subst hy
    simp [hx]
  · simp only [Function.update_of_ne hy]

theorem overlay_zeroPage (h : ∀ y, x ≤ y → y < x + 4096 → g y = none) :
    zeroPage (overlay g u) x = overlay g (zeroPage u x) := by
  simp only [overlay, zeroPage, PageTable.mk.injEq, true_and]
  funext y
  by_cases hy : x ≤ y ∧ y < x + 4096
  · simp only [if_pos hy, h y hy.1 hy.2, Option.getD_none]
  · simp only [if_neg hy]

theorem overlay_lookup {base : ℕ} (h : g (slot base i) = none) : lookup (overlay g u) base i = lookup u base i := by
  rw [lookup, overlay_mem h]
  rfl

theorem overlay_mapEntry (h : g x = none) (entry : ℕ → ℕ) :
    mapEntry (overlay g u) x entry = ((mapEntry u x entry).1, overlay g (mapEntry u x entry).2) := by
  rw [mapEntry, mapEntry, overlay_mem h, overlay_store h]
  cases present (u.mem x) <;> rfl

theorem overlay_addTable (hx : g x = none) (hfree : u.free ≠ 0 → ∀ y, u.free ≤ y → y < u.free + 4096 → g y = none) :
    addTable (overlay g u) x = ((addTable u x).1, overlay g (addTable u x).2) := by
  by_cases h0 : u.free = 0
  · have hpop : pgtPop (overlay g u) = (0, overlay g u) := if_pos h0
    have hpop' : pgtPop u = (0, u) := if_pos h0
    simp only [addTable, hpop, hpop', if_true]
  · have hlink : (overlay g u).mem u.free = u.mem u.free := overlay_mem (hfree h0 _ le_rfl (by omega))
    have hpop : pgtPop (overlay g u) = (u.free, overlay g { u with free := u.mem u.free }) := by
      rw [pgtPop, if_neg (show (overlay g u).free ≠ 0 from h0)]
      exact congrArg (fun n => (u.free, overlay g { u with free := n })) hlink
    have hpop' : pgtPop u = (u.free, { u with free := u.mem u.free }) := if_neg h0
    simp only [addTable, hpop, hpop', if_neg h0, overlay_zeroPage (hfree h0), overlay_mem hx, overlay_store hx]
    rfl

theorem overlay_nextTable {base : ℕ} (h : g (slot base i) = none)
    (hfree : u.free ≠ 0 → ∀ y, u.free ≤ y → y < u.free + 4096 → g y = none) :
    nextTable (overlay g u) base i = ((nextTable u base i).1, overlay g (nextTable u base i).2) := by
  rw [nextTable, nextTable, overlay_lookup h]
  cases lookup u base i with
  | some tbl => rfl
  | none => exact overlay_addTable h hfree

/-! ### Where the entries are -/

theorem Foreign.mono (F : Foreign b used g R) (h : ∀ {i a}, used [i] = some a → used' [i] = some a) :
    Foreign b used' g R := by
  intro x w hx
  obtain ⟨r, hr, a, ha, hlt, heq⟩ := F x w hx
  exact ⟨r, hr, a, h ha, hlt, heq⟩

theorem Foreign.moves (F : Foreign b used g R) (h : Moves b ⟨u, used, fr⟩ ⟨t, used', fr'⟩) : Foreign b used' g R :=
  F.mono fun ha => h.dirs (by simp) ha

section Tree
variable (T : Tree b u used fr) (F : Foreign b used g R)
include T F

theorem Foreign.level (ha : used p = some a) (hp : p.length ≠ 1) (hi : i < 512) : g (slot (b.page a) i) = none := by
  cases hg : g (slot (b.page a) i) with
  | none => rfl
  | some w =>
    obtain ⟨r, -, d, hd, hlt, heq⟩ := F _ w hg
    obtain ⟨rfl, -⟩ := Buffer.slot_inj hi hlt heq
    have := T.inj ha hd
    rw [this] at hp
    exact absurd rfl hp

theorem Foreign.other {k : ℕ} (ha : used [k] = some a) (hi : i < 512) (hr : (i, k) ∉ R) :
    g (slot (b.page a) i) = none := by
  cases hg : g (slot (b.page a) i) with
  | none => rfl
  | some w =>
    obtain ⟨⟨j, l⟩, hmem, d, hd, hlt, heq⟩ := F _ w hg
    obtain ⟨rfl, rfl⟩ := Buffer.slot_inj hi hlt heq
    cases T.inj ha hd
    exact absurd hmem hr

theorem Foreign.free (hc : c ∈ fr) (h : b.page c ≤ x) (h' : x < b.page c + 4096) : g x = none := by
  cases hg : g x with
  | none => rfl
  | some w =>
    obtain ⟨r, -, d, hd, hlt, heq⟩ := F _ w hg
    refine absurd ?_ (T.ne_free hd hc)
    simp only [slot, Buffer.page] at *
    omega

theorem Foreign.free_page (h0 : u.free ≠ 0) (y : ℕ) (h : u.free ≤ y) (h' : y < u.free + 4096) : g y = none := by
  have hchain := T.chain
  cases fr with
  | nil =>
    rw [List.map_nil, chain_nil, ptr, if_neg h0] at hchain
    cases hchain
  | cons c fr =>
    have hc := hchain.1
    rw [ptr, if_neg h0, Option.some.injEq] at hc
    rw [hc] at h h'
    exact F.free T List.mem_cons_self h h'

/-! ### The calls -/

theorem overlay_directory (hr : region v ∉ R) :
    directory (overlay g u) v = ((directory u v).1, overlay g (directory u v).2) := by
  have hpml4 : pml4 (overlay g u) = b.page 0 := T.pml4_eq
  have h1 := overlay_nextTable (F.level T T.root (by simp) (index_lt v 39)) (F.free_page T)
  obtain ⟨t1, used1, fr1, E1, -, h⟩ :=
    nextTable_spec T T.root (index_lt v 39) (by decide) (T.no_leaf T.root (index_lt v 39) (by decide))
  rw [directory, directory, hpml4, T.pml4_eq, h1]
  rcases h with h | ⟨d, h, hd⟩
  · rw [h]
  · have F1 := F.moves E1.moves
    rw [h]
    exact overlay_nextTable (F1.other E1.tree hd (index_lt v 30) hr) (F1.free_page E1.tree)

theorem overlay_walk (hr : region v ∉ R) : walk (overlay g u) v = walk u v := by
  have hread : ∀ {p a i}, used p = some a → p.length ≠ 1 → i < 512 →
      readEntry (overlay g u) (b.physPage a) i = readEntry u (b.physPage a) i := by
    intro p a i ha hp hi
    have h := F.level T ha hp hi
    rw [← T.p2v_physPage (T.lt ha)] at h
    exact overlay_mem h
  have hcr3 : frameOf (overlay g u).cr3 12 = b.physPage 0 := T.frameOf_cr3
  simp only [walk]
  rw [hcr3, T.frameOf_cr3, hread T.root (by simp) (index_lt v 39), T.readEntry_eq b.nr_pos]
  cases T.slots T.root (index_lt v 39) with
  | empty hw hu => rw [hw]; rfl
  | leaf _ _ hp => rcases hp with hp | ⟨hp, -⟩ <;> cases hp
  | table c4 hw hu4 _ =>
    have hc4 := T.lt hu4
    have h3 : readEntry (overlay g u) (b.physPage c4) (index v 30) = readEntry u (b.physPage c4) (index v 30) := by
      have h := F.other T hu4 (index_lt v 30) hr
      rw [← T.p2v_physPage hc4] at h
      exact overlay_mem h
    rw [hw, Buffer.frameOf_tableEntry hc4, h3, T.readEntry_eq hc4]
    cases T.slots hu4 (index_lt v 30) with
    | empty hw hu => rw [hw]; rfl
    | leaf _ _ hp => rcases hp with hp | ⟨hp, -⟩ <;> cases hp
    | table c3 hw hu3 _ =>
      have hc3 := T.lt hu3
      rw [hw, Buffer.frameOf_tableEntry hc3, hread hu3 (by simp) (index_lt v 21), T.readEntry_eq hc3]
      cases T.slots hu3 (index_lt v 21) with
      | empty hw hu => rw [hw]; rfl
      | leaf hw hu hp =>
        rcases hp with hp | ⟨-, hpage⟩
        · cases hp
        · simp only [hw, hpage, if_true]
      | table c2 hw hu2 _ =>
        have hc2 := T.lt hu2
        rw [hw, Buffer.frameOf_tableEntry hc2, hread hu2 (by simp) (index_lt v 12)]

theorem overlay_pgtMap {virtual physical : ℕ} {superpage global rw user : ℤ} (hv : virtual < 2 ^ 64)
    (hlarge : superpage = 0 → ¬InLarge u virtual) (hr : region virtual ∉ R) :
    pgtMap (overlay g u) virtual physical superpage global rw user =
      ((pgtMap u virtual physical superpage global rw user).1,
        overlay g (pgtMap u virtual physical superpage global rw user).2) := by
  obtain ⟨h39, h30, h21⟩ := index_align_page superpage hv
  have hr' : region (align virtual (pageShift superpage)) ∉ R := by rwa [region, h39, h30]
  obtain ⟨t1, used1, fr1, E1, -, h1⟩ := directory_spec T (align virtual (pageShift superpage))
  have hdir := overlay_directory T F hr'
  rw [h39, h30] at h1
  rcases h1 with h1 | ⟨d, h1, hd⟩
  · simp only [pgtMap, hdir, h1]
  have F1 := F.moves E1.moves
  have hslot := F1.level E1.tree hd (by simp) (index_lt virtual 21)
  simp only [pgtMap, hdir, h1, h21]
  by_cases hs : superpage = 0
  · simp only [hs, ne_eq, not_true_eq_false, if_false]
    rw [overlay_nextTable hslot (F1.free_page E1.tree)]
    have hno : used1 [index virtual 21, index virtual 30, index virtual 39] = none →
        word b t1 d (index virtual 21) = 0 := by
      refine E1.tree.no_large ?_ hd
      rw [E1.view, ← T.walk_eq]
      exact hlarge hs
    rcases nextTable_cases E1.tree hd (index_lt virtual 21) hno with
      ⟨c, hc, h2⟩ | ⟨-, -, h2⟩ | ⟨c, fr2, rfl, hu, hw, h2⟩
    · rw [h2]
      exact overlay_mapEntry (F1.level E1.tree hc (by simp) (index_lt ..)) _
    · rw [h2]
    · rw [h2]
      have hc := F1.free E1.tree List.mem_cons_self (x := slot (b.page c) (index (align virtual (pageShift 0)) 12))
        (Nat.le_add_right ..) (by have := index_lt (align virtual (pageShift 0)) 12; simp only [slot]; omega)
      exact overlay_mapEntry hc _
  · simp only [ne_eq, hs, not_false_eq_true, if_true]
    exact overlay_mapEntry hslot _

theorem overlay_unmapEntry {q : List ℕ} {j : ℕ} (ha : used p = some a) (hp : p.length ≠ 1) (hi : i < 512)
    (hc : used q = some c) (hq : q.length ≠ 1) (hj : j < 512) :
    unmapEntry (overlay g u) (b.page a) i (b.page c) j = overlay g (unmapEntry u (b.page a) i (b.page c) j) := by
  have hslot := F.level T ha hp hi
  have hentry := F.level T hc hq hj
  have hempty : isEmpty (overlay g (store u (slot (b.page c) j) 0)) (b.page c) =
      isEmpty (store u (slot (b.page c) j) 0) (b.page c) := by
    rw [Bool.eq_iff_iff, isEmpty_iff, isEmpty_iff]
    refine forall₂_congr fun k hk => ?_
    rw [word, overlay_mem (F.level T hc hq hk), word]
  have hlink : g (b.page c) = none := F.level T hc hq (i := 0) (by decide)
  have hpush : pgtPush (overlay g (store u (slot (b.page c) j) 0)) (b.page c) =
      overlay g (pgtPush (store u (slot (b.page c) j) 0) (b.page c)) :=
    congrArg (fun t : PageTable => { t with free := b.page c }) (overlay_store hlink)
  simp only [unmapEntry, overlay_store hentry, hempty]
  split
  · rw [hpush, overlay_store hslot]
  · rfl

theorem overlay_pgtUnmap {virtual : ℕ} {superpage : ℤ} (hv : virtual < 2 ^ 64)
    (hlarge : superpage = 0 → ¬InLarge u virtual) (hr : region virtual ∉ R) :
    pgtUnmap (overlay g u) virtual superpage =
      ((pgtUnmap u virtual superpage).1, overlay g (pgtUnmap u virtual superpage).2) := by
  obtain ⟨h39, h30, h21⟩ := index_align_page superpage hv
  have hpml4 : pml4 (overlay g u) = b.page 0 := T.pml4_eq
  simp only [pgtUnmap, h39, h30, h21, T.pml4_eq, hpml4]
  rw [overlay_lookup (F.level T T.root (by simp) (index_lt virtual 39))]
  cases h4 : used [index virtual 39] with
  | none => rw [lookup_zero (T.no_leaf T.root (index_lt virtual 39) (by decide) h4)]
  | some c4 =>
  rw [(T.lookup_table h4 T.root).2]
  simp only [overlay_lookup (F.other T h4 (index_lt virtual 30) hr)]
  cases h3 : used [index virtual 30, index virtual 39] with
  | none => simp only [lookup_zero (T.no_leaf h4 (index_lt virtual 30) (by simp) h3)]
  | some c3 =>
  have hslot := F.level T h3 (by simp) (index_lt virtual 21)
  simp only [(T.lookup_table h3 h4).2, overlay_lookup hslot, overlay_mem hslot, overlay_store hslot]
  cases T.slots h3 (index_lt virtual 21) with
  | empty hw hu => rw [lookup_zero hw]
  | table c hw hu _ =>
    have hentry := F.level T hu (by simp) (index_lt (align virtual (pageShift superpage)) 12)
    simp only [(T.lookup_table hu h3).2, overlay_mem hentry,
      overlay_unmapEntry T F h3 (by simp) (index_lt virtual 21) hu (by simp) (index_lt ..)]
    by_cases hs : superpage ≠ 0
    · simp only [if_pos hs]
      split <;> rfl
    · simp only [if_neg hs]
      cases present (u.mem (slot (b.page c) (index (align virtual (pageShift superpage)) 12))) <;> simp
  | leaf hw hu hp =>
    have hs : superpage ≠ 0 := by
      intro hs
      refine hlarge hs ⟨leaf (word b u c3 (index virtual 21)) 21 true true, ?_, rfl⟩
      rw [T.walk_eq, view_pd hu h3, leafOf, if_pos hw]
    have hpres : present (u.mem (slot (b.page c3) (index virtual 21))) = true := hw
    simp only [lookup, hpres, if_true, if_pos hs]
    split <;> rfl

end Tree

/-- The address of a call. -/
def Call.virtual : Call → ℕ
  | .map virtual .. => virtual
  | .unmap virtual _ => virtual
  | .prepare virtual => virtual

theorem Call.run_overlay (T : Tree b u used fr) (F : Foreign b used g R) {c : Call} (hok : c.Allowed (overlay g u))
    (hr : region c.virtual ∉ R) :
    c.Allowed u ∧ c.run (overlay g u) = ((c.run u).1, overlay g (c.run u).2) := by
  have hlarge : InLarge (overlay g u) c.virtual ↔ InLarge u c.virtual := by
    rw [InLarge, InLarge, overlay_walk T F hr]
  cases c with
  | map virtual physical superpage global rw user =>
    obtain ⟨hv, hphys, hno⟩ := hok
    have hno : superpage = 0 → ¬InLarge u virtual := fun hs h => hno hs (hlarge.mpr h)
    exact ⟨⟨hv, hphys, hno⟩, overlay_pgtMap T F hv hno hr⟩
  | unmap virtual superpage =>
    obtain ⟨hv, hno⟩ := hok
    have hno : superpage = 0 → ¬InLarge u virtual := fun hs h => hno hs (hlarge.mpr h)
    exact ⟨⟨hv, hno⟩, overlay_pgtUnmap T F hv hno hr⟩
  | prepare virtual =>
    have hv : virtual < 2 ^ 64 := hok
    have hr' : region (align virtual 30) ∉ R := by
      rwa [region, index_align hv le_rfl, index_align hv (by decide)]
    refine ⟨hok, ?_⟩
    simp only [Call.run, pgtPrepare, overlay_directory T F hr']
    rcases directory u (align virtual 30) with ⟨_ | d, t⟩ <;> rfl

end Advos.Pgt
