import Advos.Pgt.Moves

/-! A page table is a finite map.

    In every run from `pgt_init`, a call either returns 0 and changes the translation of the addresses
    of its page as it should, and no other, or returns -1 and changes none. Tables may be added and
    released on the way. -/

namespace Advos.Pgt
open Linked Function List

variable {b : Buffer} {t : PageTable} {used : Used} {fr : List ℕ} {p : List ℕ} {a c i w : ℕ}

/-! ### The way down -/

/-- `t'` has the tables of `t`, and maybe more, and translates the same. -/
structure Extends (b : Buffer) (t : PageTable) (used : Used) (fr : List ℕ) (t' : PageTable) (used' : Used)
    (fr' : List ℕ) : Prop where
  moves : Moves b ⟨t, used, fr⟩ ⟨t', used', fr'⟩
  tree : Tree b t' used' fr'
  view : ∀ v, view b t' used' v = view b t used v

theorem Tree.extends_refl (T : Tree b t used fr) : Extends b t used fr t used fr :=
  ⟨.refl, T, fun _ => rfl⟩

theorem Extends.trans {t1 t2 : PageTable} {used₁ used₂ : Used} {fr1 fr2 : List ℕ}
    (h1 : Extends b t used fr t1 used₁ fr1) (h2 : Extends b t1 used₁ fr1 t2 used₂ fr2) :
    Extends b t used fr t2 used₂ fr2 :=
  ⟨h1.moves.trans h2.moves, h2.tree, fun v => (h2.view v).trans (h1.view v)⟩

/-- The tables of `used'` are those of `used`, and maybe some on the way. -/
def Along (way : List ℕ → Prop) (used used' : Used) : Prop := ∀ p a, used' p = some a → used p = some a ∨ way p

section Along
variable {way way' : List ℕ → Prop} {used₁ used₂ : Used}

theorem Along.refl : Along way used used := fun _ _ => .inl

theorem Along.trans (h1 : Along way used used₁) (h2 : Along way used₁ used₂) : Along way used used₂ := by
  intro p a ha
  rcases h2 p a ha with ha | hw
  · exact h1 p a ha
  · exact .inr hw

theorem Along.mono (h : Along way used used₁) (hway : ∀ p, way p → way' p) : Along way' used used₁ := fun p a ha =>
  (h p a ha).imp_right (hway p)

theorem Along.link {q : List ℕ} : Along (· = q) used (update used q (some c)) := by
  intro p a ha
  by_cases hp : p = q
  · exact .inr hp
  · rw [update_of_ne hp] at ha
    exact .inl ha

theorem Along.drop {q : List ℕ} : Along way used (update used q none) := by
  intro p a ha
  by_cases hp : p = q
  · rw [hp, update_self] at ha
    cases ha
  · rw [update_of_ne hp] at ha
    exact .inl ha

end Along

theorem lookup_zero (hw : word b t a i = 0) : lookup t (b.page a) i = none := by
  have hmem : t.mem (slot (b.page a) i) = 0 := hw
  rw [lookup, hmem]
  rfl

section
variable (T : Tree b t used fr) (ha : used p = some a) (hi : i < 512)
include T ha hi

/-- One level down, through an entry that is not a leaf: the table there, or a new one while pages
    last. -/
theorem nextTable_cases (hleaf : used (i :: p) = none → word b t a i = 0) :
    (∃ c, used (i :: p) = some c ∧ nextTable t (b.page a) i = (some (b.page c), t)) ∨
      used (i :: p) = none ∧ fr = [] ∧ nextTable t (b.page a) i = (none, t) ∨
      ∃ c fr', fr = c :: fr' ∧ used (i :: p) = none ∧ word b t a i = 0 ∧
        nextTable t (b.page a) i = (some (b.page c), linkTable b t a i c) := by
  cases hu : used (i :: p) with
  | some c =>
    refine .inl ⟨c, rfl, ?_⟩
    rw [nextTable, (T.lookup_table hu ha).2]
  | none =>
    have hw := hleaf hu
    have hnext : nextTable t (b.page a) i = addTable t (slot (b.page a) i) := by
      rw [nextTable, lookup_zero hw]
    rw [hnext]
    cases fr with
    | nil => exact .inr (.inl ⟨rfl, rfl, addTable_nil T _⟩)
    | cons c fr => exact .inr (.inr ⟨c, fr, rfl, rfl, hw, addTable_cons T ha hi hw⟩)

theorem nextTable_spec (hp : p.length < 2) (hleaf : used (i :: p) = none → word b t a i = 0) :
    ∃ t' used' fr', Extends b t used fr t' used' fr' ∧ Along (· = i :: p) used used' ∧
      (nextTable t (b.page a) i = (none, t') ∨
        ∃ c, nextTable t (b.page a) i = (some (b.page c), t') ∧ used' (i :: p) = some c) := by
  rcases nextTable_cases T ha hi hleaf with ⟨c, hu, h⟩ | ⟨-, -, h⟩ | ⟨c, fr, rfl, hu, hw, h⟩
  · exact ⟨t, used, fr, T.extends_refl, .refl, .inr ⟨c, h, hu⟩⟩
  · exact ⟨t, used, fr, T.extends_refl, .refl, .inl h⟩
  · refine ⟨_, _, fr, ⟨.single (.link ha hi hp hu), T.linkTable ha hi (by omega) hu, ?_⟩, .link,
      .inr ⟨c, h, update_self ..⟩⟩
    exact T.view_linkTable ha hi (by omega) hu hw

theorem Tree.no_leaf (hp : p.length < 2) (hu : used (i :: p) = none) : word b t a i = 0 := by
  cases T.slots ha hi with
  | empty hw _ => exact hw
  | table c _ hu' _ => rw [hu] at hu'; cases hu'
  | leaf _ _ hp' => omega

end

/-- The paths of the PDPT and the PD of an address. -/
def OnWay (v : ℕ) (p : List ℕ) : Prop := p = [index v 39] ∨ p = [index v 30, index v 39]

theorem directory_spec (T : Tree b t used fr) (v : ℕ) :
    ∃ t' used' fr', Extends b t used fr t' used' fr' ∧ Along (OnWay v) used used' ∧
      (directory t v = (none, t') ∨
        ∃ d, directory t v = (some (b.page d), t') ∧ used' [index v 30, index v 39] = some d) := by
  obtain ⟨t1, used₁, fr1, E1, A1, h1⟩ :=
    nextTable_spec T T.root (index_lt v 39) (by decide) (T.no_leaf T.root (index_lt v 39) (by decide))
  replace A1 : Along (OnWay v) used used₁ := A1.mono fun _ => .inl
  rcases h1 with h1 | ⟨c, h1, hc⟩
  · refine ⟨t1, used₁, fr1, E1, A1, .inl ?_⟩
    rw [directory, T.pml4_eq, h1]
  · obtain ⟨t2, used₂, fr2, E2, A2, h2⟩ :=
      nextTable_spec E1.tree hc (index_lt v 30) (by simp)
        (E1.tree.no_leaf hc (index_lt v 30) (by simp))
    have hdir : directory t v = nextTable t1 (b.page c) (index v 30) := by
      rw [directory, T.pml4_eq, h1]
    refine ⟨t2, used₂, fr2, E1.trans E2, A1.trans (A2.mono fun _ => .inr), ?_⟩
    rw [hdir]
    exact h2

/-! ### The effect of a call -/

/-- The outcome `r` of a call on `t`: done, with the translation `T'` and the page unmapped before
    where `fresh` asks for it, or refused without an effect. -/
def Outcome (b : Buffer) (t : PageTable) (used : Used) (fr : List ℕ) (r : ℤ × PageTable)
    (T' : ℕ → Option Xlat) (fresh : ℕ → Prop) : Prop :=
  ∃ used' fr', Moves b ⟨t, used, fr⟩ ⟨r.2, used', fr'⟩ ∧
    (r.1 = 0 ∧ (∀ v, view b r.2 used' v = T' v) ∧ (∀ v, fresh v → view b t used v = none) ∨
      r.1 = -1 ∧ ∀ v, view b r.2 used' v = view b t used v)

/-- The outcome of a call that adds tables on the way `way` only; it is a sequence of moves if what it
    writes `fits`. -/
def Traced (way : List ℕ → Prop) (fits : Prop) (b : Buffer) (t : PageTable) (used : Used) (fr : List ℕ)
    (r : ℤ × PageTable) (T' : ℕ → Option Xlat) (fresh : ℕ → Prop) : Prop :=
  ∃ used' fr', Tree b r.2 used' fr' ∧ (fits → Moves b ⟨t, used, fr⟩ ⟨r.2, used', fr'⟩) ∧ Along way used used' ∧
    (r.1 = 0 ∧ (∀ v, view b r.2 used' v = T' v) ∧ (∀ v, fresh v → view b t used v = none) ∨
      r.1 = -1 ∧ ∀ v, view b r.2 used' v = view b t used v)

section Effect
variable {T' : ℕ → Option Xlat} {way : List ℕ → Prop} {fits : Prop} {fresh : ℕ → Prop}

theorem Traced.outcome {r : ℤ × PageTable} (h : Traced way fits b t used fr r T' fresh) (hf : fits) :
    Outcome b t used fr r T' fresh := by
  obtain ⟨used', fr', -, hmoves, -, h⟩ := h
  exact ⟨used', fr', hmoves hf, h⟩

theorem Traced.of_move {t' : PageTable} {used' : Used} {fr' : List ℕ} (T : Tree b t used fr)
    (h : Move b ⟨t, used, fr⟩ ⟨t', used', fr'⟩) (A : Along way used used') (hview : ∀ v, view b t' used' v = T' v) :
    Traced way fits b t used fr (0, t') T' fun _ => False :=
  ⟨used', fr', h.tree T, fun _ => .single h, A, .inl ⟨rfl, hview, fun _ h => h.elim⟩⟩

theorem Extends.refused {t' : PageTable} {used' : Used} {fr' : List ℕ} (E : Extends b t used fr t' used' fr')
    (A : Along way used used') : Traced way fits b t used fr (-1, t') T' fresh :=
  ⟨used', fr', E.tree, fun _ => E.moves, A, .inr ⟨rfl, E.view⟩⟩

theorem Tree.refused (T : Tree b t used fr) : Traced way fits b t used fr (-1, t) T' fresh :=
  T.extends_refl.refused .refl

theorem SlotOk.eq_zero (h : SlotOk b used p i w) (hw : present w = false) :
    w = 0 ∧ used (i :: p) = none := by
  cases h with
  | empty hw hu => exact ⟨hw, hu⟩
  | table c hw' _ _ => rw [hw', Buffer.tableEntry_present] at hw; cases hw
  | leaf hw' _ _ => rw [hw'] at hw; cases hw

theorem leafOf_word {pa k : ℕ} (hk : 12 ≤ k) (hk' : k ≤ 52) (ha : pa % 2 ^ k = 0) (large global rw user : Bool) :
    leafOf k (pa + leafFlags large global rw user) = some ⟨pa % 2 ^ 52, 2 ^ k, rw, user⟩ := by
  have h12 : pa % 4096 = 0 :=
    Nat.mod_eq_zero_of_dvd ((Nat.pow_dvd_pow 2 hk).trans (Nat.dvd_of_mod_eq_zero ha))
  obtain ⟨h0, h1, h2, -⟩ := leafFlags_bits large global rw user
  have hpres : present (pa + leafFlags large global rw user) = true := (testBit_flags h12 (by decide)).trans h0
  have hrw : rwBit (pa + leafFlags large global rw user) = rw := (testBit_flags h12 (by decide)).trans h1
  have hus : usBit (pa + leafFlags large global rw user) = user := (testBit_flags h12 (by decide)).trans h2
  rw [leafOf, if_pos hpres, leaf, hrw, hus, frameOf_word hk hk' ha (leafFlags_lt ..)]
  rfl

theorem align_mod (a : ℕ) {k : ℕ} (hk : k ≤ 64) : align a k % 2 ^ k = 0 := by
  have hpos := Nat.two_pow_pos k
  have hmask : Word.not64 (2 ^ k - 1) = 2 ^ 64 - 2 ^ k := by
    rw [Word.not64]
    omega
  have hzero : (2 ^ 64 - 2 ^ k) % 2 ^ k = 0 :=
    Nat.mod_eq_zero_of_dvd (Nat.dvd_sub (Nat.pow_dvd_pow 2 hk) (dvd_refl _))
  rw [align, hmask, Nat.and_mod_two_pow, hzero, Nat.and_zero]

theorem align_lt {physical k : ℕ} (hphys : physical < 2 ^ 52) : align physical k < 2 ^ 52 :=
  lt_of_le_of_lt Nat.and_le_left hphys

theorem mapEntry_cases (T : Tree b t used fr) (ha : used p = some a) (hi : i < 512) (entry : ℕ → ℕ) :
    mapEntry t (slot (b.page a) i) entry = (-1, t) ∨
      word b t a i = 0 ∧ used (i :: p) = none ∧
        mapEntry t (slot (b.page a) i) entry = (0, store t (slot (b.page a) i) (entry 0)) := by
  rw [mapEntry]
  cases hpres : present (t.mem (slot (b.page a) i)) with
  | true => exact .inl rfl
  | false =>
    obtain ⟨hw, hu⟩ := (T.slots ha hi).eq_zero hpres
    have hmem : t.mem (slot (b.page a) i) = 0 := hw
    rw [hmem]
    exact .inr ⟨hw, hu, rfl⟩

variable {virtual physical : ℕ}

/-- A page is laid over the translation `W`; an entry keeps 52 bits of its frame. -/
def laid (virtual physical : ℕ) (superpage rw user : ℤ) (W : ℕ → Option Xlat) (v : ℕ) : Option Xlat :=
  if Covers superpage virtual v then
    some ⟨align physical (pageShift superpage) % 2 ^ 52, 2 ^ pageShift superpage, bitOf rw, bitOf user⟩
  else W v

theorem laid_congr {superpage rw user : ℤ} {W W' : ℕ → Option Xlat} (h : ∀ v, W v = W' v) (v : ℕ) :
    laid virtual physical superpage rw user W v = laid virtual physical superpage rw user W' v := by
  rw [laid, laid, h]

theorem mapEntry_large (T : Tree b t used fr) {superpage global rw user : ℤ} (hs : superpage ≠ 0)
    (ha : used [index virtual 30, index virtual 39] = some a) :
    Traced (fun _ => False) (physical < 2 ^ 52) b t used fr
      (mapEntry t (slot (b.page a) (index virtual 21)) fun e => mapLarge e (align physical 21) global rw user)
      (laid virtual physical superpage rw user (view b t used)) (Covers superpage virtual) := by
  have hal := align_mod physical (k := 21) (by decide)
  have h12 : align physical 21 % 4096 = 0 := by omega
  rcases mapEntry_cases T ha (index_lt virtual 21) fun e => mapLarge e (align physical 21) global rw user with
    h | ⟨hw, hu, h⟩
  · rw [h]
    exact T.refused
  rw [h, mapLarge_zero h12]
  obtain ⟨h0, -, -, h7⟩ := leafFlags_bits true (bitOf global) (bitOf rw) (bitOf user)
  refine ⟨used, fr, T.rewrite ha (index_lt virtual 21) (.leaf ((testBit_flags h12 (by decide)).trans h0) hu
    (.inr ⟨rfl, (testBit_flags h12 (by decide)).trans h7⟩)),
    fun hphys => .single (.write ha (index_lt virtual 21) hu (.large hal (align_lt hphys) ..)), .refl,
    .inl ⟨rfl, fun v => ?_, fun v hv => ?_⟩⟩
  · rw [T.view_rewrite_pd hs ha hu, leafOf_word (by decide) (by decide) hal, laid, pageShift, if_pos hs]
  · obtain ⟨h39, h30, h21⟩ := (covers_large hs).mp hv
    rw [view_pd (by rw [h39, h30, h21, hu]) (by rw [h39, h30, ha]), h21, hw]
    rfl

theorem Tree.rewrite_small (T : Tree b t used fr)
    (ha : used [index virtual 21, index virtual 30, index virtual 39] = some a) (physical : ℕ) (global rw user : ℤ) :
    Tree b (store t (slot (b.page a) (index virtual 12))
        (align physical 12 + leafFlags false (bitOf global) (bitOf rw) (bitOf user))) used fr ∧
      ∀ v, view b (store t (slot (b.page a) (index virtual 12))
        (align physical 12 + leafFlags false (bitOf global) (bitOf rw) (bitOf user))) used v =
          laid virtual physical 0 rw user (view b t used) v := by
  have hal := align_mod physical (k := 12) (by decide)
  obtain ⟨h0, -⟩ := leafFlags_bits false (bitOf global) (bitOf rw) (bitOf user)
  refine ⟨T.rewrite ha (index_lt virtual 12) (.leaf ((testBit_flags hal (by decide)).trans h0) (T.used_pt rfl)
    (.inl rfl)), fun v => ?_⟩
  rw [T.view_rewrite_pt ha, leafOf_word (by decide) (by decide) hal]
  rfl

theorem mapEntry_small (T : Tree b t used fr) {global rw user : ℤ}
    (ha : used [index virtual 21, index virtual 30, index virtual 39] = some a) :
    Traced (fun _ => False) (physical < 2 ^ 52) b t used fr
      (mapEntry t (slot (b.page a) (index virtual 12)) fun e => mapSmall e (align physical 12) global rw user)
      (laid virtual physical 0 rw user (view b t used)) (Covers 0 virtual) := by
  have hal := align_mod physical (k := 12) (by decide)
  rcases mapEntry_cases T ha (index_lt virtual 12) fun e => mapSmall e (align physical 12) global rw user with
    h | ⟨hw, hu, h⟩
  · rw [h]
    exact T.refused
  rw [h, mapSmall_zero hal]
  obtain ⟨T', hview⟩ := T.rewrite_small ha physical global rw user
  refine ⟨used, fr, T', fun hphys => .single (.write ha (index_lt virtual 12) hu (.small hal (align_lt hphys) ..)),
    .refl, .inl ⟨rfl, hview, fun v hv => ?_⟩⟩
  obtain ⟨h39, h30, h21, h12⟩ := covers_small.mp hv
  rw [view_pt (by rw [h39, h30, h21, ha]), h12, hw]
  rfl

theorem mapEntry_plant (T : Tree b t used (c :: fr)) {global rw user : ℤ}
    (ha : used [index virtual 30, index virtual 39] = some a)
    (hu : used [index virtual 21, index virtual 30, index virtual 39] = none)
    (hw : word b t a (index virtual 21) = 0) :
    Traced (· = [index virtual 21, index virtual 30, index virtual 39]) (physical < 2 ^ 52) b t used (c :: fr)
      (mapEntry (linkTable b t a (index virtual 21) c) (slot (b.page c) (index virtual 12)) fun e =>
        mapSmall e (align physical 12) global rw user)
      (laid virtual physical 0 rw user (view b t used)) (Covers 0 virtual) := by
  have hi := index_lt virtual 21
  have hal := align_mod physical (k := 12) (by decide)
  have hnew : (linkTable b t a (index virtual 21) c).mem (slot (b.page c) (index virtual 12)) = 0 :=
    word_linkTable_new hi (index_lt virtual 12) (T.ne_free ha mem_cons_self)
  rw [mapEntry, hnew, mapSmall_zero hal]
  obtain ⟨T', hview⟩ := (T.linkTable ha hi (by simp) hu).rewrite_small (update_self ..) physical global rw user
  refine ⟨_, fr, T', fun hphys => .single (.plant ha hi rfl hu (index_lt virtual 12) (.small hal (align_lt hphys) ..)),
    .link, .inl ⟨rfl, fun v => ?_, fun v hv => ?_⟩⟩
  · exact (hview v).trans (laid_congr (T.view_linkTable ha hi (by simp) hu hw) v)
  · obtain ⟨h39, h30, h21, h12⟩ := covers_small.mp hv
    rw [view_pd (by rw [h39, h30, h21, hu]) (by rw [h39, h30, ha]), h21, hw]
    rfl

/-- The outcome counts from the state before the tables were added. -/
theorem Traced.of_extends {way' : List ℕ → Prop} {t' : PageTable} {used' : Used} {fr' : List ℕ} {r : ℤ × PageTable}
    {T'' : ℕ → Option Xlat} (E : Extends b t used fr t' used' fr') (A : Along way used used')
    (h : Traced way' fits b t' used' fr' r T' fresh) (hway : ∀ p, way' p → way p) (heq : ∀ v, T' v = T'' v) :
    Traced way fits b t used fr r T'' fresh := by
  obtain ⟨used₁, fr1, T1, hmoves, A1, h⟩ := h
  refine ⟨used₁, fr1, T1, fun hf => E.moves.trans (hmoves hf), A.trans (A1.mono hway), ?_⟩
  rcases h with ⟨h0, hview, hfresh⟩ | ⟨h1, hview⟩
  · exact .inl ⟨h0, fun v => (hview v).trans (heq v), fun v hv => by rw [← E.view, hfresh v hv]⟩
  · exact .inr ⟨h1, fun v => (hview v).trans (E.view v)⟩

theorem Tree.no_large (T : Tree b t used fr) {v : ℕ} (hv : ¬∃ x, view b t used v = some x ∧ x.size = 2 ^ 21)
    (ha : used [index v 30, index v 39] = some a)
    (hu : used [index v 21, index v 30, index v 39] = none) : word b t a (index v 21) = 0 := by
  cases T.slots ha (index_lt v 21) with
  | empty hw _ => exact hw
  | table c _ hu' _ => rw [hu] at hu'; cases hu'
  | leaf hw _ _ =>
    refine absurd ⟨leaf (word b t a (index v 21)) 21 true true, ?_, rfl⟩ hv
    rw [view_pd hu ha, leafOf, if_pos hw]

/-- The paths of the tables that a page needs. -/
def MapWay (virtual : ℕ) (superpage : ℤ) (p : List ℕ) : Prop :=
  OnWay virtual p ∨ superpage = 0 ∧ p = [index virtual 21, index virtual 30, index virtual 39]

theorem pgtMap_spec (T : Tree b t used fr) {superpage global rw user : ℤ} (hv : virtual < 2 ^ 64)
    (hlarge : superpage = 0 → ¬∃ x, view b t used virtual = some x ∧ x.size = 2 ^ 21) :
    Traced (MapWay virtual superpage) (physical < 2 ^ 52) b t used fr
      (pgtMap t virtual physical superpage global rw user)
      (laid virtual physical superpage rw user (view b t used)) (Covers superpage virtual) := by
  obtain ⟨h39, h30, h21⟩ := index_align_page superpage hv
  obtain ⟨t1, used₁, fr1, E1, A1, h1⟩ := directory_spec T (align virtual (pageShift superpage))
  rw [h39, h30] at h1
  replace A1 : Along (MapWay virtual superpage) used used₁ := by
    refine A1.mono fun p hp => .inl ?_
    rwa [OnWay, h39, h30] at hp
  rcases h1 with h1 | ⟨d, h1, hd⟩
  · simp only [pgtMap, h1]
    exact E1.refused A1
  simp only [pgtMap, h1, h21]
  by_cases hs : superpage = 0
  · subst hs
    have hk0 : pageShift 0 = 12 := rfl
    have h12 : index (align virtual 12) 12 = index virtual 12 := index_align hv le_rfl
    have hno : used₁ [index virtual 21, index virtual 30, index virtual 39] = none →
        word b t1 d (index virtual 21) = 0 := by
      refine E1.tree.no_large ?_ hd
      rw [E1.view]
      exact hlarge rfl
    simp only [ne_eq, not_true_eq_false, if_false, hk0]
    rcases nextTable_cases E1.tree hd (index_lt virtual 21) hno with
      ⟨c, hc, h2⟩ | ⟨-, -, h2⟩ | ⟨c, fr2, rfl, hu, hw, h2⟩
    · simp only [h2, h12]
      exact .of_extends E1 A1 (mapEntry_small E1.tree hc) (fun _ => False.elim) (laid_congr E1.view)
    · simp only [h2]
      exact E1.refused A1
    · simp only [h2, h12]
      exact .of_extends E1 A1 (mapEntry_plant E1.tree hd hu hw) (fun p hp => .inr ⟨rfl, hp⟩) (laid_congr E1.view)
  · have hk1 : pageShift superpage = 21 := if_pos hs
    simp only [ne_eq, hs, not_false_eq_true, if_true, hk1]
    exact .of_extends E1 A1 (mapEntry_large E1.tree hs hd) (fun _ => False.elim) (laid_congr E1.view)

theorem pgtPrepare_spec (T : Tree b t used fr) (virtual : ℕ) :
    Traced (OnWay (align virtual 30)) fits b t used fr (pgtPrepare t virtual) (view b t used) fun _ => False := by
  obtain ⟨t1, used₁, fr1, E1, A1, h1⟩ := directory_spec T (align virtual 30)
  rcases h1 with h1 | ⟨d, h1, hd⟩
  · simp only [pgtPrepare, h1]
    exact E1.refused A1
  · simp only [pgtPrepare, h1]
    exact ⟨used₁, fr1, E1.tree, fun _ => E1.moves, A1, .inl ⟨rfl, E1.view, fun _ h => h.elim⟩⟩

/-! ### Unmapping -/

theorem isEmpty_iff : isEmpty t (b.page c) = true ↔ ∀ j < 512, present (word b t c j) = false := by
  simp only [isEmpty, all_eq_true, mem_range, Bool.not_eq_true', word]

/-- The entry of a 4 KiB page is cleared; the table goes when it was the last one. -/
theorem unmapEntry_spec (T : Tree b t used fr) {virtual : ℕ}
    (ha : used [index virtual 30, index virtual 39] = some a)
    (hc : used [index virtual 21, index virtual 30, index virtual 39] = some c) :
    Traced (fun _ => False) fits b t used fr
      (0, unmapEntry t (b.page a) (index virtual 21) (b.page c) (index virtual 12))
      (fun v => if Covers 0 virtual v then none else view b t used v) fun _ => False := by
  have hnone : used [index virtual 12, index virtual 21, index virtual 30, index virtual 39] = none := T.used_pt rfl
  have T' := T.rewrite hc (index_lt virtual 12) (.empty rfl hnone)
  have hview := T.view_rewrite_pt (w := 0) hc
  rw [unmapEntry]
  by_cases hempty : isEmpty (store t (slot (b.page c) (index virtual 12)) 0) (b.page c) = true
  · rw [if_pos hempty]
    refine .of_move T (.drop ha rfl hc (index_lt virtual 12)) .drop fun v => ?_
    exact (T'.view_dropTable ha hc rfl (isEmpty_iff.mp hempty) v).trans (hview v)
  · rw [if_neg hempty]
    refine .of_move T (.clear hc (index_lt virtual 12) hnone fun _ => ?_) .refl hview
    -- the scan found another entry
    rw [isEmpty_iff] at hempty
    push Not at hempty
    obtain ⟨j, hj, hpres⟩ := hempty
    rw [word_store (index_lt virtual 12) hj] at hpres
    by_cases hji : j = index virtual 12
    · rw [if_pos ⟨rfl, hji⟩] at hpres
      exact absurd rfl hpres
    · rw [if_neg fun h => hji h.2] at hpres
      exact ⟨j, hj, hji, Bool.eq_true_of_not_eq_false hpres⟩

/-- No page of this size is mapped at the address, or it is cleared. -/
theorem pgtUnmap_cases (T : Tree b t used fr) {virtual : ℕ} {superpage : ℤ} (hv : virtual < 2 ^ 64)
    (hlarge : superpage = 0 → ¬∃ x, view b t used virtual = some x ∧ x.size = 2 ^ 21) :
    (pgtUnmap t virtual superpage = (-1, t) ∧
        ∀ x, view b t used virtual = some x → x.size ≠ 2 ^ pageShift superpage) ∨
      ∃ a, used [index virtual 30, index virtual 39] = some a ∧
        (superpage = 0 ∧ (∃ c, used [index virtual 21, index virtual 30, index virtual 39] = some c ∧
            pgtUnmap t virtual superpage =
              (0, unmapEntry t (b.page a) (index virtual 21) (b.page c) (index virtual 12))) ∨
          superpage ≠ 0 ∧ used [index virtual 21, index virtual 30, index virtual 39] = none ∧
            pgtUnmap t virtual superpage = (0, store t (slot (b.page a) (index virtual 21)) 0)) := by
  obtain ⟨h39, h30, h21⟩ := index_align_page superpage hv
  have hnone : view b t used virtual = none → ∀ x, view b t used virtual = some x → x.size ≠ 2 ^ pageShift superpage := by
    intro h0 x hx
    rw [h0] at hx
    cases hx
  simp only [pgtUnmap, h39, h30, h21, T.pml4_eq]
  cases h4 : used [index virtual 39] with
  | none =>
    rw [lookup_zero (T.no_leaf T.root (index_lt virtual 39) (by decide) h4)]
    exact .inl ⟨rfl, hnone (T.view_none (T.used_none h4))⟩
  | some c4 =>
  rw [(T.lookup_table h4 T.root).2]
  cases h3 : used [index virtual 30, index virtual 39] with
  | none =>
    simp only [lookup_zero (T.no_leaf h4 (index_lt virtual 30) (by simp) h3)]
    exact .inl ⟨trivial, hnone (T.view_none h3)⟩
  | some c3 =>
  simp only [(T.lookup_table h3 h4).2]
  cases T.slots h3 (index_lt virtual 21) with
  | empty hw hu =>
    rw [lookup_zero hw]
    refine .inl ⟨rfl, hnone ?_⟩
    rw [view_pd hu h3, hw]
    rfl
  | table c hw hu _ =>
    have hpage : pageBit (t.mem (slot (b.page c3) (index virtual 21))) = false := by
      rw [show t.mem (slot (b.page c3) (index virtual 21)) = b.tableEntry c from hw,
        Buffer.tableEntry_page]
    simp only [(T.lookup_table hu h3).2, hpage, Bool.false_eq_true, if_false]
    by_cases hs : superpage = 0
    · subst hs
      have h12 : index (align virtual (pageShift 0)) 12 = index virtual 12 := index_align hv le_rfl
      simp only [ne_eq, not_true_eq_false, if_false, h12]
      split
      · exact .inr ⟨c3, rfl, .inl ⟨trivial, c, hu, rfl⟩⟩
      · next hpres => exact .inl ⟨rfl, hnone (by rw [view_pt hu]; exact if_neg hpres)⟩
    · simp only [ne_eq, hs, not_false_eq_true, if_true]
      refine .inl ⟨trivial, fun x hx => ?_⟩
      rw [view_pt hu, leafOf] at hx
      split at hx
      · cases hx
        simp [leaf, pageShift, hs]
      · cases hx
  | leaf hw hu hp =>
    have hs : superpage ≠ 0 := by
      intro hs
      refine hlarge hs ⟨leaf (word b t c3 (index virtual 21)) 21 true true, ?_, rfl⟩
      rw [view_pd hu h3, leafOf, if_pos hw]
    have hpage : pageBit (t.mem (slot (b.page c3) (index virtual 21))) = true := by
      rcases hp with hp | ⟨-, hpage⟩
      · cases hp
      · exact hpage
    have hpres : present (t.mem (slot (b.page c3) (index virtual 21))) = true := hw
    simp only [lookup, hpres, hpage, if_true, if_pos hs]
    exact .inr ⟨c3, rfl, .inr ⟨hs, hu, rfl⟩⟩

theorem pgtUnmap_spec (T : Tree b t used fr) {virtual : ℕ} {superpage : ℤ} (hv : virtual < 2 ^ 64)
    (hlarge : superpage = 0 → ¬∃ x, view b t used virtual = some x ∧ x.size = 2 ^ 21) :
    Traced (fun _ => False) fits b t used fr (pgtUnmap t virtual superpage)
      ((Call.unmap virtual superpage).effect (view b t used)) fun _ => False := by
  rcases pgtUnmap_cases T hv hlarge with ⟨h, -⟩ | ⟨a, ha, ⟨rfl, c, hc, h⟩ | ⟨hs, hu, h⟩⟩
  · rw [h]
    exact T.refused
  · rw [h]
    exact unmapEntry_spec T ha hc
  · rw [h]
    exact .of_move T (.clear ha (index_lt virtual 21) hu fun h => by cases h) .refl (T.view_rewrite_pd hs ha hu)

end Effect

/-! ### Runs -/

/-- After the PML4 is cleared and `n` pages are pushed. -/
structure Pushed (b : Buffer) (t : PageTable) (n : ℕ) : Prop where
  cr3 : t.cr3 = b.physPage 0
  p2v : t.p2v = b.p2v
  zero : ∀ i < 512, word b t 0 i = 0
  chain : Chain (fun x => ptr (t.mem x)) (ptr t.free) ((List.range' 1 n).reverse.map b.page)

theorem Pushed.push {n : ℕ} (h : Pushed b t n) : Pushed b (pgtPush t (b.base + (1 + n) * 4096)) (n + 1) := by
  have hpage : b.base + (1 + n) * 4096 = b.page (1 + n) := by rw [Buffer.page, Nat.mul_comm]
  rw [hpage]
  refine ⟨h.cr3, h.p2v, fun i hi => ?_, ?_⟩
  · have hkeep : word b (pgtPush t (b.page (1 + n))) 0 i = word b t 0 i :=
      word_store_ne (i := 0) (by decide) hi (by omega)
    rw [hkeep, h.zero i hi]
  · rw [List.range'_concat, reverse_append, Nat.one_mul, reverse_singleton,
      singleton_append, map_cons]
    refine chain_push h.chain (fun hmem => ?_) (Buffer.page_ne_zero (by omega))
    obtain ⟨d, hd, heq⟩ := mem_map.mp hmem
    rw [mem_reverse, mem_range'_1] at hd
    have := Buffer.page_inj heq
    omega

theorem Pushed.foldl (h : Pushed b t 0) : ∀ n,
    Pushed b ((List.range' 1 n).foldl (fun t i => pgtPush t (b.base + i * 4096)) t) n
  | 0 => h
  | n + 1 => by
      rw [List.range'_concat, foldl_append, Nat.one_mul]
      exact (Pushed.foldl h n).push

theorem pgtInit_tree {mem : ℕ → ℕ} {t0 : PageTable} (h : pgtInit mem b.base b.nr b.p2v = some t0) :
    Tree b t0 (fun p => if p = [] then some 0 else none) (List.range' 1 (b.nr - 1)).reverse := by
  simp only [pgtInit, ge_iff_le, if_pos b.nr_pos, Option.some.injEq] at h
  have hbase : b.base = b.page 0 := by rw [Buffer.page, Nat.mul_zero, Nat.add_zero]
  have h0 : Pushed b { zeroPage ⟨0, b.p2v, 0, mem⟩ b.base with
      cr3 := v2p (zeroPage ⟨0, b.p2v, 0, mem⟩ b.base) b.base } 0 := by
    refine ⟨?_, rfl, fun i hi => ?_, rfl⟩
    · exact (congrArg (fun x => Word.sub64 x b.p2v) hbase).trans (Buffer.sub64_page b.nr_pos)
    · rw [hbase]
      exact (word_zeroPage hi).trans (if_pos rfl)
  have P := h0.foldl (b.nr - 1)
  rw [h] at P
  have hroot : ∀ {p a}, (if p = [] then some 0 else none) = some a → p = ([] : List ℕ) ∧ a = 0 := by
    intro p a hp
    split at hp
    · next hnil => exact ⟨hnil, (Option.some.inj hp).symm⟩
    · cases hp
  refine ⟨P.cr3, P.p2v, rfl, ?_, ?_, ?_, ?_, P.chain, ?_, ?_⟩
  · intro p a hp
    rw [(hroot hp).2]
    exact b.nr_pos
  · intro p q a hp hq
    rw [(hroot hp).1, (hroot hq).1]
  · intro p i c hp
    cases (hroot hp).1
  · intro p a i hp hi
    obtain ⟨rfl, rfl⟩ := hroot hp
    exact .empty (P.zero i hi) rfl
  · intro a ha
    rw [mem_reverse, mem_range'_1] at ha
    refine ⟨ha.1, by omega, fun p hp => ?_⟩
    have := (hroot hp).2
    omega
  · intro a ha
    rcases Nat.eq_zero_or_pos a with rfl | hpos
    · exact .inr ⟨[], rfl⟩
    · refine .inl ?_
      rw [mem_reverse, mem_range'_1]
      omega

theorem Kept.init {mem : ℕ → ℕ} {t0 : PageTable} (h : pgtInit mem b.base b.nr b.p2v = some t0) :
    Kept b ⟨t0, fun p => if p = [] then some 0 else none, (List.range' 1 (b.nr - 1)).reverse⟩ := by
  have hroot : ∀ {p : List ℕ} {a}, (if p = [] then some 0 else none : Option ℕ) = some a → p = [] := by
    intro p a ha
    by_contra hp
    rw [if_neg hp] at ha
    cases ha
  refine ⟨⟨fun {p a i} ha hi hnone => ?_⟩, fun {p c} hc hp => ?_⟩
  · obtain rfl := hroot ha
    exact .inl ((pgtInit_tree h).no_leaf (p := []) ha hi (by decide) hnone)
  · cases hroot hc
    cases hp

/-- The page a call must find unmapped to succeed. -/
def Call.fresh : Call → ℕ → Prop
  | .map virtual _ superpage _ _ _ => Covers superpage virtual
  | _ => fun _ => False

/-- The tables that a call may add. -/
def Call.way : Call → List ℕ → Prop
  | .map virtual _ superpage _ _ _ => MapWay virtual superpage
  | .unmap .. => fun _ => False
  | .prepare virtual => OnWay (align virtual 30)

theorem Call.traced (T : Tree b t used fr) (c : Call) (hok : c.Allowed t) :
    Traced c.way True b t used fr (c.run t) (c.effect (view b t used)) c.fresh := by
  have hin : ∀ v, InLarge t v ↔ ∃ x, view b t used v = some x ∧ x.size = 2 ^ 21 := by
    intro v
    rw [InLarge, T.walk_eq]
  cases c with
  | map virtual physical superpage global rw user =>
    obtain ⟨hv, hphys, hlarge⟩ := hok
    have heffect : laid virtual physical superpage rw user (view b t used) =
        (Call.map virtual physical superpage global rw user).effect (view b t used) := by
      funext v
      rw [laid, Nat.mod_eq_of_lt (align_lt hphys)]
      rfl
    have htraced : Traced (MapWay virtual superpage) (physical < 2 ^ 52) b t used fr
        (pgtMap t virtual physical superpage global rw user) _ _ :=
      pgtMap_spec T hv fun hs h => hlarge hs ((hin virtual).mpr h)
    obtain ⟨used', fr', T', hmoves, h⟩ := htraced
    exact ⟨used', fr', T', fun _ => hmoves hphys, heffect ▸ h⟩
  | unmap virtual superpage =>
    obtain ⟨hv, hlarge⟩ := hok
    exact pgtUnmap_spec T hv fun hs h => hlarge hs ((hin virtual).mpr h)
  | prepare virtual => exact pgtPrepare_spec T virtual

/-- CONSERVED: every allowed call keeps the tree, and has its effect or none. -/
theorem Call.outcome (T : Tree b t used fr) (c : Call) (hok : c.Allowed t) :
    Outcome b t used fr (c.run t) (c.effect (view b t used)) c.fresh :=
  (c.traced T hok).outcome trivial

/-- RUN: a page table has its tree, its leaves as they were written and no empty PT. -/
theorem Reach.shape (h : Reach b t) : ∃ used fr, Tree b t used fr ∧ Kept b ⟨t, used, fr⟩ := by
  obtain ⟨mem, t0, hinit, hrun⟩ := h
  refine Run.invariant (P := fun t => ∃ used fr, Tree b t used fr ∧ Kept b ⟨t, used, fr⟩) hrun ?_ ?_
  · exact ⟨_, _, pgtInit_tree hinit, .init hinit⟩
  · rintro t t' ⟨used, fr, T, K⟩ ⟨c, hok, rfl⟩
    obtain ⟨used', fr', hmoves, -⟩ := c.outcome T hok
    exact ⟨used', fr', hmoves.tree T, hmoves.kept T K⟩

/-- The page table refines the map: each call in a run changes the translation exactly as its effect
    says, or returns -1 and changes nothing, as it does for a page that is mapped already. -/
theorem walk_refines_map (h : Reach b t) (c : Call) (hok : c.Allowed t) :
    ((c.run t).1 = 0 ∧ (∀ v, walk (c.run t).2 v = c.effect (walk t) v) ∨
      (c.run t).1 = -1 ∧ ∀ v, walk (c.run t).2 v = walk t v) ∧
    ∀ virtual physical superpage global rw user,
      c = .map virtual physical superpage global rw user →
      (∃ v, Covers superpage virtual v ∧ walk t v ≠ none) → (c.run t).1 = -1 := by
  obtain ⟨used, fr, T, -⟩ := h.shape
  obtain ⟨used', fr', hmoves, hout⟩ := c.outcome T hok
  have T' := hmoves.tree T
  have hwalk : walk t = view b t used := funext T.walk_eq
  rw [hwalk]
  refine ⟨?_, ?_⟩
  · rcases hout with ⟨h0, hview, -⟩ | ⟨h1, hview⟩
    · exact .inl ⟨h0, fun v => (T'.walk_eq v).trans (hview v)⟩
    · exact .inr ⟨h1, fun v => (T'.walk_eq v).trans (hview v)⟩
  · rintro virtual physical superpage global rw user rfl ⟨v, hv, hne⟩
    rcases hout with ⟨-, -, hfresh⟩ | ⟨h1, -⟩
    · exact absurd (hfresh v hv) hne
    · exact h1

/-- Four pages at 1 MiB. -/
def fourPages : Buffer where
  base := 0x100000
  nr := 4
  p2v := 0
  nr_pos := by decide
  fits := by decide
  offset := Nat.two_pow_pos 64
  aligned := by decide
  below := by decide

/-- The first page mapped in a new table. -/
theorem walk_refines_map_first_page :
    ∃ t0, pgtInit (fun _ => 0) 0x100000 4 0 = some t0 ∧
      ((Call.map 0x1234 0x5678 0 0 1 0).run t0).1 = 0 ∧
      walk ((Call.map 0x1234 0x5678 0 0 1 0).run t0).2 0x1fff = some ⟨0x5000, 4096, true, false⟩ := by
  obtain ⟨t0, h0⟩ : ∃ t0, pgtInit (fun _ => 0) 0x100000 4 0 = some t0 := ⟨_, rfl⟩
  have hr : Reach fourPages t0 := ⟨_, t0, h0, .refl⟩
  have hok : (Call.map 0x1234 0x5678 0 0 1 0).Allowed t0 := by
    refine ⟨by decide, by decide, fun _ => ?_⟩
    rintro ⟨x, hx, -⟩
    cases h0
    cases hx
  have hrun := (walk_refines_map hr _ hok).1
  have hret : ((Call.map 0x1234 0x5678 0 0 1 0).run t0).1 = 0 := by
    cases h0
    decide +kernel
  have heffect : (Call.map 0x1234 0x5678 0 0 1 0).effect (walk t0) 0x1fff =
      some ⟨0x5000, 4096, true, false⟩ := by
    simp only [Call.effect]
    exact if_pos (by decide)
  rcases hrun with ⟨-, hwalk⟩ | ⟨h1, -⟩
  · exact ⟨t0, h0, hret, (hwalk 0x1fff).trans heffect⟩
  · rw [hret] at h1
    cases h1

end Advos.Pgt
