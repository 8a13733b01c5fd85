import Advos.Pgt.Entry
import Advos.Schemes.Linked

/-! The tree of tables.

    `used` says which page is the table at the end of a path of indices, last index first:

        used []            the PML4            used [i3, i4]        a PD
        used [i4]          a PDPT              used [i2, i3, i4]    a PT

    `Tree` ties it to the memory: distinct paths have distinct pages, every entry of a table is zero,
    points to the table one index further, or is a leaf, and the remaining pages are the free list. A
    walk of the hardware is then a lookup of the path, and each write of `pgt_map` and `pgt_unmap` has
    its effect on the lookups at one path only. -/

namespace Advos.Pgt
open Word Linked Function List

abbrev Used := List ℕ → Option ℕ

/-- A pointer; 0 is NULL. -/
def ptr (x : ℕ) : Option ℕ := if x = 0 then none else some x

/-- Entry `i` of the table on page `a`. -/
def word (b : Buffer) (t : PageTable) (a i : ℕ) : ℕ := t.mem (slot (b.page a) i)

/-- What entry `i` of the table at the path `p` may hold. -/
inductive SlotOk (b : Buffer) (used : Used) (p : List ℕ) (i w : ℕ) : Prop
  | empty (hw : w = 0) (hu : used (i :: p) = none)
  | table (c : ℕ) (hw : w = b.tableEntry c) (hu : used (i :: p) = some c) (hp : p.length < 3)
  | leaf (hw : present w = true) (hu : used (i :: p) = none)
      (hp : p.length = 3 ∨ p.length = 2 ∧ pageBit w = true)

structure Tree (b : Buffer) (t : PageTable) (used : Used) (fr : List ℕ) : Prop where
  cr3 : t.cr3 = b.physPage 0
  p2v : t.p2v = b.p2v
  root : used [] = some 0
  lt : ∀ {p a}, used p = some a → a < b.nr
  inj : ∀ {p q a}, used p = some a → used q = some a → p = q
  up : ∀ {p i c}, used (i :: p) = some c → i < 512 ∧ ∃ a, used p = some a
  slots : ∀ {p a i}, used p = some a → i < 512 → SlotOk b used p i (word b t a i)
  chain : Chain (fun x => ptr (t.mem x)) (ptr t.free) (fr.map b.page)
  free_ok : ∀ {a}, a ∈ fr → 1 ≤ a ∧ a < b.nr ∧ ∀ p, used p ≠ some a
  all : ∀ {a}, a < b.nr → a ∈ fr ∨ ∃ p, used p = some a

variable {b : Buffer} {t : PageTable} {used : Used} {fr : List ℕ} {p : List ℕ} {a c i j w v : ℕ}

/-! ### Reading and writing entries -/

theorem word_store (hi : i < 512) (hj : j < 512) :
    word b (store t (slot (b.page a) i) w) c j = if c = a ∧ j = i then w else word b t c j := by
  simp only [word, store]
  by_cases h : c = a ∧ j = i
  · obtain ⟨rfl, rfl⟩ := h
    simp
  · rw [if_neg h, update_of_ne]
    intro heq
    exact h (Buffer.slot_inj hj hi heq)

theorem word_zeroPage (hj : j < 512) :
    word b (zeroPage t (b.page c)) a j = if a = c then 0 else word b t a j := by
  simp only [word, zeroPage]
  by_cases h : a = c
  · subst h
    rw [if_pos rfl, if_pos]
    simp only [slot]
    omega
  · rw [if_neg h, if_neg]
    simp only [slot, Buffer.page]
    omega

theorem word_link : word b t a 0 = t.mem (b.page a) := rfl

theorem chain_push {l : List ℕ} {x : ℕ} (h : Chain (fun y => ptr (t.mem y)) (ptr t.free) l)
    (hx : x ∉ l) (h0 : x ≠ 0) :
    Chain (fun y => ptr ((pgtPush t x).mem y)) (ptr (pgtPush t x).free) (x :: l) := by
  refine ⟨if_neg h0, ?_⟩
  have hmem : (pgtPush t x).mem x = t.free := update_self ..
  simp only [hmem]
  refine h.congr fun y hy => ?_
  have hyx : y ≠ x := by
    rintro rfl
    exact hx hy
  have hmem : (pgtPush t x).mem y = t.mem y := update_of_ne hyx ..
  simp only [hmem]

namespace Tree

variable (T : Tree b t used fr)
include T

theorem used_none (h : used p = none) : used (i :: p) = none := by
  cases hu : used (i :: p) with
  | none => rfl
  | some c =>
    obtain ⟨-, a, ha⟩ := T.up hu
    rw [h] at ha
    cases ha

theorem length_le : ∀ {p : List ℕ} {a : ℕ}, used p = some a → p.length ≤ 3
  | [], _, _ => Nat.zero_le _
  | i :: p, c, hc => by
      obtain ⟨hi, a, ha⟩ := T.up hc
      cases T.slots ha hi with
      | empty _ hu => rw [hc] at hu; cases hu
      | table _ _ _ hp => exact hp
      | leaf _ hu _ => rw [hc] at hu; cases hu

theorem v2p_page (ha : a < b.nr) : v2p t (b.page a) = b.physPage a := by
  rw [v2p, T.p2v, Buffer.sub64_page ha]

theorem p2v_physPage (ha : a < b.nr) : Pgt.p2v t (b.physPage a) = b.page a := by
  rw [Pgt.p2v, T.p2v, Buffer.add64_physPage ha]

theorem readEntry_eq (ha : a < b.nr) : readEntry t (b.physPage a) i = word b t a i := by
  rw [readEntry, T.p2v_physPage ha, word]

theorem pml4_eq : pml4 t = b.page 0 := by
  have h := maskPage_flags (f := 0) (Buffer.physPage_aligned) (by decide)
    (Buffer.physPage_lt b.nr_pos)
  rw [Nat.add_zero] at h
  rw [pml4, T.cr3, h, T.p2v_physPage b.nr_pos]

theorem frameOf_cr3 : frameOf t.cr3 12 = b.physPage 0 := by
  have h := frameOf_flags (f := 0) (k := 12) (by decide) (by decide)
    (Buffer.physPage_aligned) (by decide) (Buffer.physPage_lt b.nr_pos)
  rw [Nat.add_zero] at h
  rw [T.cr3, h]

theorem lookup_table (hc : used (i :: p) = some c) (ha : used p = some a) :
    word b t a i = b.tableEntry c ∧ lookup t (b.page a) i = some (b.page c) := by
  obtain ⟨hi, -⟩ := T.up hc
  have hw : word b t a i = b.tableEntry c := by
    cases T.slots ha hi with
    | empty _ hu => rw [hc] at hu; cases hu
    | table d hw hu _ => rw [hc] at hu; cases hu; exact hw
    | leaf _ hu _ => rw [hc] at hu; cases hu
  refine ⟨hw, ?_⟩
  have hmem : t.mem (slot (b.page a) i) = b.tableEntry c := hw
  rw [lookup, hmem, if_pos Buffer.tableEntry_present, Buffer.maskPage_tableEntry (T.lt hc),
    T.p2v_physPage (T.lt hc)]

theorem free_lt (hc : c ∈ fr) : c < b.nr := (T.free_ok hc).2.1

theorem ne_free (ha : used p = some a) (hc : c ∈ fr) : a ≠ c := by
  rintro rfl
  exact (T.free_ok hc).2.2 p ha

theorem chain_congr {t' : PageTable} (hfree : t'.free = t.free)
    (hw : ∀ d ∈ fr, word b t' d 0 = word b t d 0) :
    Chain (fun x => ptr (t'.mem x)) (ptr t'.free) (fr.map b.page) := by
  rw [hfree]
  refine T.chain.congr fun x hx => ?_
  obtain ⟨d, hd, rfl⟩ := mem_map.mp hx
  have := hw d hd
  rw [word_link, word_link] at this
  simp only [this]

end Tree

/-! ### The walk as a lookup -/

/-- The translation by an entry at the last level. -/
def leafOf (k e : ℕ) : Option Xlat := if present e then some (leaf e k true true) else none

/-- The translation of `v`, read off the tree. -/
def view (b : Buffer) (t : PageTable) (used : Used) (v : ℕ) : Option Xlat :=
  match used [index v 21, index v 30, index v 39] with
  | some pt => leafOf 12 (word b t pt (index v 12))
  | none =>
    match used [index v 30, index v 39] with
    | some pd => leafOf 21 (word b t pd (index v 21))
    | none => none

theorem view_pt (h : used [index v 21, index v 30, index v 39] = some a) :
    view b t used v = leafOf 12 (word b t a (index v 12)) := by
  rw [view, h]

theorem view_pd (h : used [index v 21, index v 30, index v 39] = none)
    (h' : used [index v 30, index v 39] = some a) :
    view b t used v = leafOf 21 (word b t a (index v 21)) := by
  rw [view, h, h']

namespace Tree

variable (T : Tree b t used fr)
include T

theorem view_none (h : used [index v 30, index v 39] = none) : view b t used v = none := by
  rw [view, T.used_none h, h]

theorem walk_eq (v : ℕ) : walk t v = view b t used v := by
  simp only [walk]
  rw [T.frameOf_cr3, T.readEntry_eq b.nr_pos]
  -- one case split for each level: an empty entry ends the walk, a pointer goes on
  cases T.slots T.root (index_lt v 39) with
  | empty hw hu =>
    rw [hw, T.view_none (T.used_none hu)]
    rfl
  | leaf _ _ hp => rcases hp with hp | ⟨hp, -⟩ <;> cases hp
  | table c4 hw hu4 _ =>
    have hc4 := T.lt hu4
    rw [hw, Buffer.frameOf_tableEntry hc4, T.readEntry_eq hc4, Buffer.tableEntry_present,
      Buffer.tableEntry_rw, Buffer.tableEntry_us]
    cases T.slots hu4 (index_lt v 30) with
    | empty hw hu =>
      rw [hw, T.view_none hu]
      rfl
    | leaf _ _ hp => rcases hp with hp | ⟨hp, -⟩ <;> cases hp
    | table c3 hw hu3 _ =>
      have hc3 := T.lt hu3
      rw [hw, Buffer.frameOf_tableEntry hc3, T.readEntry_eq hc3, Buffer.tableEntry_present,
        Buffer.tableEntry_rw, Buffer.tableEntry_us, Buffer.tableEntry_page]
      cases T.slots hu3 (index_lt v 21) with
      | empty hw hu =>
        rw [view_pd hu hu3, hw]
        rfl
      | leaf hw hu hp =>
        rcases hp with hp | ⟨-, hpage⟩
        · cases hp
        · rw [view_pd hu hu3, hw, hpage, leafOf, hw]
          rfl
      | table c2 hw hu2 _ =>
        have hc2 := T.lt hu2
        rw [hw, Buffer.frameOf_tableEntry hc2, T.readEntry_eq hc2, Buffer.tableEntry_present,
          Buffer.tableEntry_rw, Buffer.tableEntry_us, Buffer.tableEntry_page, view_pt hu2, leafOf]
        cases present (word b t c2 (index v 12)) <;> rfl

end Tree

/-! ### Changing an entry -/

theorem word_store_ne (hi : i < 512) (hj : j < 512) (h : c ≠ a) :
    word b (store t (slot (b.page a) i) w) c j = word b t c j := by
  rw [word_store hi hj, if_neg fun h' => h h'.1]

theorem Tree.rewrite (T : Tree b t used fr) (ha : used p = some a) (hi : i < 512)
    (hw : SlotOk b used p i w) : Tree b (store t (slot (b.page a) i) w) used fr where
  cr3 := T.cr3
  p2v := T.p2v
  root := T.root
  lt := T.lt
  inj := T.inj
  up := T.up
  slots {q c j} hc hj := by
    rw [word_store hi hj]
    split
    · next h =>
      obtain ⟨rfl, rfl⟩ := h
      obtain rfl := T.inj ha hc
      exact hw
    · exact T.slots hc hj
  chain := T.chain_congr rfl fun d hd => word_store_ne hi (by decide) (T.ne_free ha hd).symm
  free_ok := T.free_ok
  all := T.all

theorem Tree.view_rewrite_pt (T : Tree b t used fr) {u : ℕ}
    (ha : used [index u 21, index u 30, index u 39] = some a) (v : ℕ) :
    view b (store t (slot (b.page a) (index u 12)) w) used v =
      if Covers 0 u v then leafOf 12 w else view b t used v := by
  simp only [view]
  cases hpt : used [index v 21, index v 30, index v 39] with
  | some pt =>
    simp only [word_store (index_lt u 12) (index_lt v 12)]
    by_cases hcov : Covers 0 u v
    · obtain ⟨h39, h30, h21, h12⟩ := covers_small.mp hcov
      rw [h39, h30, h21, ha] at hpt
      rw [if_pos hcov, if_pos ⟨(Option.some.inj hpt).symm, h12⟩]
    · rw [if_neg hcov, if_neg]
      rintro ⟨rfl, h12⟩
      have hp := T.inj hpt ha
      simp only [List.cons.injEq, and_true] at hp
      exact hcov (covers_small.mpr ⟨hp.2.2, hp.2.1, hp.1, h12⟩)
  | none =>
    have hcov : ¬Covers 0 u v := by
      intro hcov
      obtain ⟨h39, h30, h21, -⟩ := covers_small.mp hcov
      rw [h39, h30, h21, ha] at hpt
      cases hpt
    rw [if_neg hcov]
    cases hpd : used [index v 30, index v 39] with
    | none => rfl
    | some pd =>
      have hne : pd ≠ a := by
        rintro rfl
        have hp := congrArg List.length (T.inj hpd ha)
        cases hp
      simp only [word_store_ne (index_lt u 12) (index_lt v 21) hne]

/-- An entry of a PD without a table behind it is what its 2 MiB are translated by. -/
theorem Tree.view_rewrite_pd (T : Tree b t used fr) {u : ℕ} {superpage : ℤ} (hs : superpage ≠ 0)
    (ha : used [index u 30, index u 39] = some a)
    (hnone : used [index u 21, index u 30, index u 39] = none) (v : ℕ) :
    view b (store t (slot (b.page a) (index u 21)) w) used v =
      if Covers superpage u v then leafOf 21 w else view b t used v := by
  simp only [view]
  cases hpt : used [index v 21, index v 30, index v 39] with
  | some pt =>
    have hcov : ¬Covers superpage u v := by
      intro hcov
      obtain ⟨h39, h30, h21⟩ := (covers_large hs).mp hcov
      rw [h39, h30, h21, hnone] at hpt
      cases hpt
    have hne : pt ≠ a := by
      rintro rfl
      have hp := congrArg List.length (T.inj hpt ha)
      cases hp
    simp only [if_neg hcov, word_store_ne (index_lt u 21) (index_lt v 12) hne]
  | none =>
    cases hpd : used [index v 30, index v 39] with
    | none =>
      have hcov : ¬Covers superpage u v := by
        intro hcov
        obtain ⟨h39, h30, -⟩ := (covers_large hs).mp hcov
        rw [h39, h30, ha] at hpd
        cases hpd
      rw [if_neg hcov]
    | some pd =>
      simp only [word_store (index_lt u 21) (index_lt v 21)]
      by_cases hcov : Covers superpage u v
      · obtain ⟨h39, h30, h21⟩ := (covers_large hs).mp hcov
        rw [h39, h30, ha] at hpd
        rw [if_pos hcov, if_pos ⟨(Option.some.inj hpd).symm, h21⟩]
      · rw [if_neg hcov, if_neg]
        rintro ⟨rfl, h21⟩
        have hp := T.inj hpd ha
        simp only [List.cons.injEq, and_true] at hp
        exact hcov ((covers_large hs).mpr ⟨hp.2, hp.1, h21⟩)

/-! ### Changing the tables -/

/-- The entries of the other tables do not see a change behind `r`. -/
theorem SlotOk.update {r : List ℕ} {x : Option ℕ} (h : SlotOk b used p i w) (hne : i :: p ≠ r) :
    SlotOk b (update used r x) p i w := by
  have heq : Function.update used r x (i :: p) = used (i :: p) := update_of_ne hne ..
  cases h with
  | empty hw hu => exact .empty hw (heq.trans hu)
  | table c hw hu hp => exact .table c hw (heq.trans hu) hp
  | leaf hw hu hp => exact .leaf hw (heq.trans hu) hp

theorem used_of_update {q r : List ℕ} {x y : Option ℕ} (h : update used r x q = y) (hq : q ≠ r) :
    used q = y := by
  rwa [update_of_ne hq] at h

/-- A change behind one entry leaves the translations that do not pass it. -/
theorem view_update {t' : PageTable} {x : Option ℕ} (hp : p.length < 3)
    (hw : ∀ {q d k}, used q = some d → q ≠ i :: p → k < 512 → k :: q ≠ i :: p → word b t' d k = word b t d k)
    (hpt : [index v 21, index v 30, index v 39] ≠ i :: p) (hpd : [index v 30, index v 39] ≠ i :: p) :
    view b t' (update used (i :: p) x) v = view b t used v := by
  simp only [view, update_of_ne hpt, update_of_ne hpd]
  cases h3 : used [index v 21, index v 30, index v 39] with
  | some pt =>
    have hne : [index v 12, index v 21, index v 30, index v 39] ≠ i :: p := by
      rintro heq
      cases heq
      exact absurd hp (by simp)
    simp only [hw h3 hpt (index_lt v 12) hne]
  | none =>
    cases h2 : used [index v 30, index v 39] with
    | none => rfl
    | some pd => simp only [hw h2 hpd (index_lt v 21) hpt]

/-! ### Adding a table -/

/-- The memory with page `c` taken off the free list, cleared, and linked behind an entry. -/
def linkTable (b : Buffer) (t : PageTable) (a i c : ℕ) : PageTable :=
  store (zeroPage { t with free := t.mem (b.page c) } (b.page c)) (slot (b.page a) i) (b.tableEntry c)

theorem word_linkTable {d : ℕ} (hi : i < 512) (hj : j < 512) : word b (linkTable b t a i c) d j =
    if d = a ∧ j = i then b.tableEntry c else if d = c then 0 else word b t d j := by
  rw [linkTable, word_store hi hj, word_zeroPage hj]
  rfl

theorem word_linkTable_new (hi : i < 512) (hj : j < 512) (hac : a ≠ c) : word b (linkTable b t a i c) c j = 0 := by
  rw [word_linkTable hi hj, if_neg fun h => hac h.1.symm, if_pos rfl]

theorem addTable_nil (T : Tree b t used []) (x : ℕ) : addTable t x = (none, t) := by
  have hfree : t.free = 0 := by
    have h := T.chain
    rw [map_nil, chain_nil, ptr] at h
    split at h
    · next h0 => exact h0
    · cases h
  simp only [addTable, pgtPop, if_pos hfree, if_true]

section
variable (T : Tree b t used (c :: fr)) (ha : used p = some a) (hi : i < 512)
include T ha hi

theorem addTable_cons (hw : word b t a i = 0) :
    addTable t (slot (b.page a) i) = (some (b.page c), linkTable b t a i c) := by
  obtain ⟨hc1, hc, -⟩ := T.free_ok mem_cons_self
  have hfree : t.free = b.page c := by
    have h := T.chain.1
    rw [ptr] at h
    split at h
    · cases h
    · exact Option.some.inj h
  have h0 := Buffer.page_ne_zero (b := b) hc1
  have hne : a ≠ c := T.ne_free ha mem_cons_self
  have hz := word_zeroPage (b := b) (t := { t with free := t.mem (b.page c) }) (c := c) (a := a) hi
  rw [if_neg hne] at hz
  have hzero : (zeroPage { t with free := t.mem (b.page c) } (b.page c)).mem (slot (b.page a) i) = 0 :=
    hz.trans hw
  have hpop : pgtPop t = (b.page c, { t with free := t.mem (b.page c) }) := by
    rw [pgtPop, hfree, if_neg h0]
  have hv2p : v2p (zeroPage { t with free := t.mem (b.page c) } (b.page c)) (b.page c) = b.physPage c :=
    T.v2p_page hc
  simp only [addTable, hpop, if_neg h0, hzero, hv2p, pointTo_zero Buffer.physPage_aligned]
  rfl

/-- A new table at `i :: p` keeps the words of the others, that of the entry to it apart. -/
theorem Tree.word_linkTable_old {q : List ℕ} {d k : ℕ} (hd : used q = some d) (hk : k < 512) (hne : k :: q ≠ i :: p) :
    word b (Pgt.linkTable b t a i c) d k = word b t d k := by
  rw [word_linkTable hi hk, if_neg, if_neg]
  · exact T.ne_free hd mem_cons_self
  · rintro ⟨rfl, rfl⟩
    exact hne (by rw [T.inj hd ha])

theorem Tree.linkTable (hp : p.length < 3) (hu : used (i :: p) = none) :
    Tree b (linkTable b t a i c) (update used (i :: p) (some c)) fr := by
  have hcmem : c ∈ c :: fr := mem_cons_self
  have hcu : ∀ q, used q ≠ some c := (T.free_ok hcmem).2.2
  have hcfr : c ∉ fr := by
    intro h
    have := (nodup_cons.mp T.chain.nodup).1
    exact this (mem_map_of_mem h)
  -- the tables are the old ones and the new one
  have htables : ∀ {q d}, update used (i :: p) (some c) q = some d → q = i :: p ∧ d = c ∨ used q = some d := by
    intro q d h
    by_cases hq : q = i :: p
    · subst hq
      rw [update_self] at h
      cases h
      exact .inl ⟨rfl, rfl⟩
    · exact .inr (used_of_update h hq)
  have keep : ∀ {q d}, used q = some d → update used (i :: p) (some c) q = some d := by
    intro q d h
    rw [update_of_ne, h]
    rintro rfl
    rw [hu] at h
    cases h
  refine ⟨T.cr3, T.p2v, keep T.root, ?_, ?_, ?_, ?_, ?_, ?_, ?_⟩
  · intro q d h
    rcases htables h with ⟨-, rfl⟩ | h
    · exact T.free_lt hcmem
    · exact T.lt h
  · intro q r d hq hr
    rcases htables hq with ⟨rfl, rfl⟩ | hq <;> rcases htables hr with ⟨rfl, h⟩ | hr
    · rfl
    · exact absurd hr (hcu r)
    · exact absurd (h ▸ hq) (hcu q)
    · exact T.inj hq hr
  · intro q k d h
    rcases htables h with ⟨hq, -⟩ | h
    · cases hq
      exact ⟨hi, a, keep ha⟩
    · obtain ⟨hk, e, he⟩ := T.up h
      exact ⟨hk, e, keep he⟩
  · intro q d k h hk
    rcases htables h with ⟨rfl, rfl⟩ | hd
    · -- the new table is empty
      refine .empty (word_linkTable_new hi hk (T.ne_free ha hcmem)) ?_
      rw [update_of_ne (by simp), T.used_none hu]
    · by_cases hslot : k :: q = i :: p
      · cases hslot
        cases ha.symm.trans hd
        rw [word_linkTable hi hi, if_pos ⟨rfl, rfl⟩]
        exact .table c rfl (update_self ..) hp
      · rw [T.word_linkTable_old ha hi hd hk hslot]
        exact (T.slots hd hk).update hslot
  · refine T.chain.2.congr fun x hx => ?_
    obtain ⟨d, hd, rfl⟩ := mem_map.mp hx
    have hword := word_linkTable (b := b) (t := t) (a := a) (c := c) (d := d) hi (show 0 < 512 by decide)
    have hda : d ≠ a := (T.ne_free ha (mem_cons_of_mem _ hd)).symm
    have hdc : d ≠ c := by
      rintro rfl
      exact hcfr hd
    rw [if_neg fun h => hda h.1, if_neg hdc, word_link, word_link] at hword
    simp only [hword]
  · intro d hd
    obtain ⟨h1, h2, h3⟩ := T.free_ok (mem_cons_of_mem _ hd)
    refine ⟨h1, h2, fun q hq => ?_⟩
    rcases htables hq with ⟨-, rfl⟩ | hq
    · exact hcfr hd
    · exact h3 q hq
  · intro d hd
    rcases T.all hd with hmem | ⟨q, hq⟩
    · rcases mem_cons.mp hmem with rfl | hmem
      · exact .inr ⟨i :: p, update_self ..⟩
      · exact .inl hmem
    · exact .inr ⟨q, keep hq⟩

/-- An empty table translates nothing, as the empty entry did before. -/
theorem Tree.view_linkTable (hp : p.length < 3) (hu : used (i :: p) = none) (hw : word b t a i = 0) (v : ℕ) :
    view b (Pgt.linkTable b t a i c) (update used (i :: p) (some c)) v = view b t used v := by
  have hac : a ≠ c := T.ne_free ha mem_cons_self
  by_cases hpt : [index v 21, index v 30, index v 39] = i :: p
  · -- a new PT
    obtain ⟨h21, rfl⟩ := List.cons.inj hpt
    rw [view_pt (a := c) (by rw [hpt, update_self]), word_linkTable_new hi (index_lt v 12) hac,
      view_pd (by rw [hpt, hu]) ha, h21, hw]
    rfl
  by_cases hpd : [index v 30, index v 39] = i :: p
  · -- a new PD
    rw [T.view_none (by rw [hpd, hu]), view_pd (a := c), word_linkTable_new hi (index_lt v 21) hac]
    · rfl
    · rw [update_of_ne hpt, hpd]
      exact T.used_none hu
    · rw [hpd, update_self]
  exact view_update hp (fun hd _ => T.word_linkTable_old ha hi hd) hpt hpd

end

/-! ### Releasing a table -/

/-- The memory with the PT on page `c` back on the free list. -/
def dropTable (b : Buffer) (t : PageTable) (a i c : ℕ) : PageTable :=
  store (pgtPush t (b.page c)) (slot (b.page a) i) 0

theorem word_dropTable {d : ℕ} (hi : i < 512) (hj : j < 512) (hd : d ≠ c) :
    word b (dropTable b t a i c) d j = if d = a ∧ j = i then 0 else word b t d j := by
  rw [dropTable, word_store hi hj]
  have h : word b (pgtPush t (b.page c)) d j = word b t d j :=
    word_store_ne (i := 0) (by decide) hj hd
  rw [h]

theorem Tree.ne_of_used (T : Tree b t used fr) {q : List ℕ} (ha : used p = some a) (hc : used q = some c)
    (hne : p ≠ q) : a ≠ c := by
  rintro rfl
  exact hne (T.inj ha hc)

section
variable (T : Tree b t used fr) (ha : used p = some a) (hu : used (i :: p) = some c)
include T ha hu

/-- The other tables keep their words, that of the entry to the dropped one apart. -/
theorem Tree.word_dropTable_old {q : List ℕ} {d k : ℕ} (hd : used q = some d) (hq : q ≠ i :: p) (hk : k < 512)
    (hne : k :: q ≠ i :: p) : word b (Pgt.dropTable b t a i c) d k = word b t d k := by
  rw [word_dropTable (T.up hu).1 hk (T.ne_of_used hd hu hq), if_neg]
  rintro ⟨rfl, rfl⟩
  exact hne (by rw [T.inj hd ha])

theorem Tree.dropTable (hp : p.length = 2) :
    Tree b (dropTable b t a i c) (update used (i :: p) none) (c :: fr) := by
  have hi := (T.up hu).1
  have hc1 : 1 ≤ c := by
    rcases Nat.eq_zero_or_pos c with rfl | h
    · cases T.inj hu T.root
    · exact h
  have hca : a ≠ c := T.ne_of_used ha hu (by simp)
  have hcfr : c ∉ fr := fun h => (T.free_ok h).2.2 _ hu
  have old : ∀ {q d}, update used (i :: p) none q = some d → used q = some d ∧ q ≠ i :: p := by
    intro q d h
    by_cases hq : q = i :: p
    · subst hq
      cases (update_self ..).symm.trans h
    · exact ⟨used_of_update h hq, hq⟩
  refine ⟨T.cr3, T.p2v, ?_, fun h => T.lt (old h).1, fun h h' => T.inj (old h).1 (old h').1, ?_, ?_, ?_,
    ?_, ?_⟩
  · rw [update_of_ne (by simp), T.root]
  · intro q k d h
    obtain ⟨hk, e, he⟩ := T.up (old h).1
    refine ⟨hk, e, ?_⟩
    rw [update_of_ne, he]
    -- a PT has no tables behind it
    rintro rfl
    have hlen := T.length_le (old h).1
    simp only [length_cons, hp] at hlen
    omega
  · intro q d k h hk
    obtain ⟨hd, hq⟩ := old h
    by_cases hslot : k :: q = i :: p
    · cases hslot
      cases ha.symm.trans hd
      rw [word_dropTable hi hi hca, if_pos ⟨rfl, rfl⟩]
      exact .empty rfl (update_self ..)
    · rw [T.word_dropTable_old ha hu hd hq hk hslot]
      exact (T.slots hd hk).update hslot
  · have hnot : b.page c ∉ fr.map b.page := by
      intro h
      obtain ⟨d, hd, heq⟩ := mem_map.mp h
      exact hcfr (Buffer.page_inj heq ▸ hd)
    refine (chain_push T.chain hnot (Buffer.page_ne_zero hc1)).congr fun x hx => ?_
    obtain ⟨d, hd, rfl⟩ := mem_map.mp hx
    have hda : d ≠ a := by
      rcases mem_cons.mp hd with rfl | hd
      · exact hca.symm
      · exact (T.ne_free ha hd).symm
    have hword : word b (Pgt.dropTable b t a i c) d 0 = word b (pgtPush t (b.page c)) d 0 :=
      word_store_ne hi (by decide) hda
    rw [word_link, word_link] at hword
    simp only [hword]
  · intro d hd
    rcases mem_cons.mp hd with rfl | hd
    · exact ⟨hc1, T.lt hu, fun q hq => (old hq).2 (T.inj (old hq).1 hu)⟩
    · obtain ⟨h1, h2, h3⟩ := T.free_ok hd
      exact ⟨h1, h2, fun q hq => h3 q (old hq).1⟩
  · intro d hd
    rcases T.all hd with hmem | ⟨q, hq⟩
    · exact .inl (mem_cons_of_mem _ hmem)
    · by_cases hqi : q = i :: p
      · subst hqi
        rw [hu] at hq
        cases hq
        exact .inl mem_cons_self
      · exact .inr ⟨q, by rw [update_of_ne hqi, hq]⟩

/-- A table without present entries translates nothing, nor does the empty entry after it. -/
theorem Tree.view_dropTable (hp : p.length = 2) (hempty : ∀ j < 512, present (word b t c j) = false) (v : ℕ) :
    view b (Pgt.dropTable b t a i c) (update used (i :: p) none) v = view b t used v := by
  by_cases hpt : [index v 21, index v 30, index v 39] = i :: p
  · obtain ⟨h21, rfl⟩ := List.cons.inj hpt
    have hac : a ≠ c := T.ne_of_used ha hu (by simp)
    have hold : view b t used v = none := by
      rw [view_pt (a := c) (by rw [hpt, hu]), leafOf, hempty _ (index_lt v 12)]
      rfl
    rw [hold, view_pd (a := a), word_dropTable (T.up hu).1 (index_lt v 21) hac, if_pos ⟨rfl, h21⟩]
    · rfl
    · rw [hpt, update_self]
    · rw [update_of_ne (by simp), ha]
  have hpd : [index v 30, index v 39] ≠ i :: p := by
    intro h
    have := congrArg List.length h
    simp only [length_cons, hp] at this
    cases this
  exact view_update (by omega) (fun hd hq => T.word_dropTable_old ha hu hd hq) hpt hpd

end

end Advos.Pgt
