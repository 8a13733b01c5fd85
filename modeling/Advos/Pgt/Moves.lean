import Advos.Pgt.Tree
import Advos.Schemes.Run

/-! What a call can do to the tree.

    Every call of `pgt_map`, `pgt_unmap` and `pgt_prepare` is a sequence of five kinds of moves:

        link     a free page becomes a PDPT or a PD
        plant    a free page becomes a PT, with its first entry
        write    a leaf in an empty entry
        clear    a leaf is emptied; in a PT another one is left
        drop     the last leaf of a PT is emptied and the PT is free

    What holds of a page table over a run is shown for the moves. -/

namespace Advos.Pgt
open Linked Function List

/-- A page table with its tables and its free pages. -/
structure Shape where
  t : PageTable
  used : Used
  fr : List ℕ

/-- A leaf as `pgt_map` writes it, at the depth of a PD or of a PT. -/
inductive LeafWord : ℕ → ℕ → Prop
  | large {pa : ℕ} (ha : pa % 2 ^ 21 = 0) (hpa : pa < 2 ^ 52) (global rw user : Bool) :
      LeafWord 2 (pa + leafFlags true global rw user)
  | small {pa : ℕ} (ha : pa % 2 ^ 12 = 0) (hpa : pa < 2 ^ 52) (global rw user : Bool) :
      LeafWord 3 (pa + leafFlags false global rw user)

inductive Move (b : Buffer) : Shape → Shape → Prop
  | link {t used c fr p a i} (ha : used p = some a) (hi : i < 512) (hp : p.length < 2)
      (hu : used (i :: p) = none) :
      Move b ⟨t, used, c :: fr⟩ ⟨linkTable b t a i c, Function.update used (i :: p) (some c), fr⟩
  | plant {t used c fr p a i j w} (ha : used p = some a) (hi : i < 512) (hp : p.length = 2)
      (hu : used (i :: p) = none) (hj : j < 512) (hw : LeafWord 3 w) :
      Move b ⟨t, used, c :: fr⟩
        ⟨store (linkTable b t a i c) (slot (b.page c) j) w, Function.update used (i :: p) (some c), fr⟩
  | write {t used fr p a i w} (ha : used p = some a) (hi : i < 512) (hu : used (i :: p) = none)
      (hw : LeafWord p.length w) : Move b ⟨t, used, fr⟩ ⟨store t (slot (b.page a) i) w, used, fr⟩
  | clear {t used fr p a i} (ha : used p = some a) (hi : i < 512) (hu : used (i :: p) = none)
      (hother : p.length = 3 → ∃ j < 512, j ≠ i ∧ present (word b t a j) = true) :
      Move b ⟨t, used, fr⟩ ⟨store t (slot (b.page a) i) 0, used, fr⟩
  | drop {t used fr p a i c j} (ha : used p = some a) (hp : p.length = 2) (hu : used (i :: p) = some c)
      (hj : j < 512) :
      Move b ⟨t, used, fr⟩
        ⟨dropTable b (store t (slot (b.page c) j) 0) a i c, Function.update used (i :: p) none, c :: fr⟩

abbrev Moves (b : Buffer) : Shape → Shape → Prop := Relation.ReflTransGen (Move b)

variable {b : Buffer} {t : PageTable} {used : Used} {fr : List ℕ} {p : List ℕ} {a c i j w : ℕ} {S S' : Shape}

/-! ### Leaves -/

theorem LeafWord.present_eq {d : ℕ} (h : LeafWord d w) : present w = true := by
  cases h with
  | large ha hpa global rw user =>
    exact (testBit_flags (by omega) (by decide)).trans (leafFlags_bits true global rw user).1
  | small ha hpa global rw user =>
    exact (testBit_flags ha (by decide)).trans (leafFlags_bits false global rw user).1

theorem LeafWord.slotOk (h : LeafWord p.length w) (hu : used (i :: p) = none) : SlotOk b used p i w := by
  refine .leaf h.present_eq hu ?_
  generalize p.length = d at h
  cases h with
  | large ha hpa global rw user =>
    exact .inr ⟨rfl, (testBit_flags (by omega) (by decide)).trans (leafFlags_bits true global rw user).2.2.2⟩
  | small ha hpa global rw user => exact .inl rfl

theorem Tree.used_pt (T : Tree b t used fr) (hp : p.length = 3) : used (i :: p) = none := by
  cases hu : used (i :: p) with
  | none => rfl
  | some d =>
    have := T.length_le hu
    simp [hp] at this

/-! ### The tree -/

/-- KEPT: the tree. -/
theorem Move.tree (h : Move b S S') (T : Tree b S.t S.used S.fr) : Tree b S'.t S'.used S'.fr := by
  cases h with
  | link ha hi hp hu => exact T.linkTable ha hi (by omega) hu
  | plant ha hi hp hu hj hw =>
    have T' := T.linkTable ha hi (by omega) hu
    refine T'.rewrite (update_self ..) hj (LeafWord.slotOk ?_ (T'.used_pt (by simp [hp])))
    rwa [length_cons, hp]
  | write ha hi hu hw => exact T.rewrite ha hi (hw.slotOk hu)
  | clear ha hi hu _ => exact T.rewrite ha hi (.empty rfl hu)
  | @drop t used fr p a i c j ha hp hu hj =>
    exact (T.rewrite hu hj (.empty rfl (T.used_pt (by simp [hp])))).dropTable ha hu hp

theorem Moves.tree (h : Moves b S S') (T : Tree b S.t S.used S.fr) : Tree b S'.t S'.used S'.fr :=
  Run.invariant (P := fun S => Tree b S.t S.used S.fr) h T fun _ _ T h => h.tree T

/-- RUN: what every move of a tree keeps. -/
theorem Moves.rule {P : Shape → Prop} (h : Moves b S S') (T : Tree b S.t S.used S.fr)
    (hmove : ∀ {S S'}, Move b S S' → Tree b S.t S.used S.fr → P S → P S') (h0 : P S) : P S' := by
  have hrun := Run.invariant (P := fun S => Tree b S.t S.used S.fr ∧ P S) h ⟨T, h0⟩ ?_
  · exact hrun.2
  · rintro S1 S2 ⟨T1, h1⟩ hm
    exact ⟨hm.tree T1, hmove hm T1 h1⟩

/-! ### Directories stay -/

/-- KEPT: the page of each table above the last level. -/
theorem Move.dirs (h : Move b S S') (hp : p.length ≤ 2) (ha : S.used p = some a) : S'.used p = some a := by
  have hupdate : ∀ {used : Used} {q : List ℕ} {i : ℕ} {x : Option ℕ}, used p = some a →
      (used (i :: q) = none ∨ q.length = 2) → update used (i :: q) x p = some a := by
    intro used q i x ha hq
    rw [update_of_ne, ha]
    rintro rfl
    rcases hq with hq | hq
    · rw [ha] at hq
      cases hq
    · rw [length_cons, hq] at hp
      omega
  cases h with
  | link _ _ _ hu => exact hupdate ha (.inl hu)
  | plant _ _ _ hu _ _ => exact hupdate ha (.inl hu)
  | write => exact ha
  | clear => exact ha
  | drop _ hq _ _ => exact hupdate ha (.inr hq)

theorem Moves.dirs (h : Moves b S S') (hp : p.length ≤ 2) (ha : S.used p = some a) : S'.used p = some a :=
  Run.invariant (P := fun S => S.used p = some a) h ha fun _ _ ha h => h.dirs hp ha

/-! ### Only the buffer is written -/

/-- The address is in a page of the buffer. -/
def Buffer.Has (b : Buffer) (x : ℕ) : Prop := b.base ≤ x ∧ x < b.base + 4096 * b.nr

theorem Buffer.has_slot (ha : a < b.nr) (hi : i < 512) : b.Has (slot (b.page a) i) := by
  simp only [Buffer.Has, slot, Buffer.page]
  omega

theorem store_outside {x y : ℕ} (hx : ¬b.Has x) (hy : b.Has y) : (store t y w).mem x = t.mem x :=
  update_of_ne (by rintro rfl; exact hx hy) ..

variable {x : ℕ}

theorem linkTable_outside (hx : ¬b.Has x) (ha : a < b.nr) (hc : c < b.nr) (hi : i < 512) :
    (linkTable b t a i c).mem x = t.mem x := by
  rw [linkTable, store_outside hx (Buffer.has_slot ha hi)]
  refine if_neg fun h => hx ?_
  simp only [Buffer.Has, Buffer.page] at h ⊢
  omega

theorem dropTable_outside (hx : ¬b.Has x) (ha : a < b.nr) (hc : c < b.nr) (hi : i < 512) :
    (dropTable b t a i c).mem x = t.mem x := by
  rw [dropTable, store_outside hx (Buffer.has_slot ha hi)]
  exact store_outside hx (Buffer.has_slot (i := 0) hc (by decide))

/-- KEPT: the memory outside the buffer. -/
theorem Move.outside (h : Move b S S') (T : Tree b S.t S.used S.fr) (hx : ¬b.Has x) :
    S'.t.mem x = S.t.mem x := by
  cases h with
  | link ha hi _ _ => exact linkTable_outside hx (T.lt ha) (T.free_lt mem_cons_self) hi
  | plant ha hi _ _ hj _ =>
    have hc := T.free_lt mem_cons_self
    exact (store_outside hx (Buffer.has_slot hc hj)).trans (linkTable_outside hx (T.lt ha) hc hi)
  | write ha hi _ _ => exact store_outside hx (Buffer.has_slot (T.lt ha) hi)
  | clear ha hi _ _ => exact store_outside hx (Buffer.has_slot (T.lt ha) hi)
  | drop ha _ hu hj =>
    exact (dropTable_outside hx (T.lt ha) (T.lt hu) (T.up hu).1).trans
      (store_outside hx (Buffer.has_slot (T.lt hu) hj))

theorem Moves.outside (h : Moves b S S') (T : Tree b S.t S.used S.fr) (hx : ¬b.Has x) :
    S'.t.mem x = S.t.mem x :=
  h.rule (P := fun S' => S'.t.mem x = S.t.mem x) T (fun hm T1 h1 => (hm.outside T1 hx).trans h1) rfl

/-! ### Leaves as they were written -/

/-- What is neither empty nor a pointer is as `pgt_map` wrote it. -/
structure Written (b : Buffer) (S : Shape) : Prop where
  leaf : ∀ {p a i}, S.used p = some a → i < 512 → S.used (i :: p) = none →
    word b S.t a i = 0 ∨ LeafWord p.length (word b S.t a i)

theorem Written.link (hw : Written b ⟨t, used, c :: fr⟩) (T : Tree b t used (c :: fr)) (ha : used p = some a)
    (hi : i < 512) : Written b ⟨linkTable b t a i c, update used (i :: p) (some c), fr⟩ := by
  refine ⟨fun {q d k} hd hk hnone => ?_⟩
  have hne : k :: q ≠ i :: p := by
    intro heq
    rw [heq] at hnone
    cases (update_self ..).symm.trans hnone
  by_cases hnew : q = i :: p
  · rw [hnew] at hd
    cases (update_self ..).symm.trans hd
    exact .inl (word_linkTable_new hi hk (T.ne_free ha mem_cons_self))
  · have hold := used_of_update hd hnew
    have hword := T.word_linkTable_old ha hi hold hk hne
    rw [hword]
    exact hw.leaf hold hk (used_of_update hnone hne)

theorem Written.store (hw : Written b ⟨t, used, fr⟩) (T : Tree b t used fr) (ha : used p = some a) (hi : i < 512)
    (hleaf : w = 0 ∨ LeafWord p.length w) : Written b ⟨store t (slot (b.page a) i) w, used, fr⟩ := by
  refine ⟨fun {q d k} hd hk hnone => ?_⟩
  have hword := word_store (b := b) (t := t) (a := a) (c := d) (w := w) hi hk
  rw [hword]
  split
  · next h =>
    obtain ⟨rfl, rfl⟩ := h
    obtain rfl := T.inj ha hd
    exact hleaf
  · exact hw.leaf hd hk hnone

theorem Written.drop (hw : Written b ⟨t, used, fr⟩) (T : Tree b t used fr) (ha : used p = some a)
    (hu : used (i :: p) = some c) : Written b ⟨dropTable b t a i c, update used (i :: p) none, c :: fr⟩ := by
  refine ⟨fun {q d k} hd hk hnone => ?_⟩
  have hnew : q ≠ i :: p := by
    rintro rfl
    cases (update_self ..).symm.trans hd
  have hold := used_of_update hd hnew
  by_cases hslot : k :: q = i :: p
  · cases hslot
    cases ha.symm.trans hold
    have hi := (T.up hu).1
    have hword := word_dropTable (b := b) (t := t) (a := a) hi hi (T.ne_of_used hold hu hnew)
    exact .inl (hword.trans (if_pos ⟨rfl, rfl⟩))
  · have hword := T.word_dropTable_old ha hu hold hnew hk hslot
    rw [hword]
    exact hw.leaf hold hk (used_of_update hnone hslot)

/-- KEPT: every move writes leaves only where none or another was. -/
theorem Move.written (h : Move b S S') (T : Tree b S.t S.used S.fr) (hw : Written b S) : Written b S' := by
  cases h with
  | link ha hi hp hu => exact hw.link T ha hi
  | plant ha hi hp hu hj hleaf =>
    have T' := T.linkTable ha hi (by omega) hu
    refine (hw.link T ha hi).store T' (update_self ..) hj (.inr ?_)
    rwa [length_cons, hp]
  | write ha hi hu hleaf => exact hw.store T ha hi (.inr hleaf)
  | clear ha hi hu hother => exact hw.store T ha hi (.inl rfl)
  | @drop t used fr p a i c j ha hp hu hj =>
    have T' := T.rewrite hu hj (.empty rfl (T.used_pt (by simp [hp])))
    exact (hw.store T hu hj (.inl rfl)).drop T' ha hu

/-- No PT is empty, either. -/
structure Kept (b : Buffer) (S : Shape) : Prop extends Written b S where
  full : ∀ {p c}, S.used p = some c → p.length = 3 → ∃ j < 512, present (word b S.t c j) = true

theorem Kept.full_of_word {t' : PageTable} (hk : Kept b ⟨t, used, fr⟩) (ha : used p = some a) (hp : p.length = 3)
    (hw : ∀ j < 512, word b t' a j = word b t a j) : ∃ j < 512, present (word b t' a j) = true := by
  obtain ⟨j, hj, hpres⟩ := hk.full ha hp
  exact ⟨j, hj, (congrArg present (hw j hj)).trans hpres⟩

theorem cons_ne_of_length {q : List ℕ} {k : ℕ} (hq : q.length ≠ p.length) : k :: q ≠ i :: p := by
  rintro heq
  cases heq
  exact hq rfl

/-- KEPT: a PT is planted with an entry, and goes with the last one. -/
theorem Move.full (h : Move b S S') (T : Tree b S.t S.used S.fr) (hk : Kept b S) (hc : S'.used p = some c)
    (hp : p.length = 3) : ∃ j < 512, present (word b S'.t c j) = true := by
  cases h with
  | @link t used e fr q a i ha hi hq hu =>
    have hold := used_of_update hc (by rintro rfl; simp at hp; omega)
    exact hk.full_of_word hold hp fun j hj => T.word_linkTable_old ha hi hold hj (cons_ne_of_length (by omega))
  | @plant t used e fr q a i j w ha hi hq hu hj hw =>
    by_cases hnew : p = i :: q
    · rw [hnew] at hc
      cases (update_self ..).symm.trans hc
      refine ⟨j, hj, (congrArg present (word_store hj hj)).trans ?_⟩
      rw [if_pos ⟨rfl, rfl⟩]
      exact hw.present_eq
    · have hold := used_of_update hc hnew
      exact hk.full_of_word hold hp fun k hk' => (word_store_ne hj hk' (T.ne_free hold mem_cons_self)).trans
        (T.word_linkTable_old ha hi hold hk' (cons_ne_of_length (by omega)))
  | @write t used fr q a i w ha hi hu hw =>
    by_cases hca : c = a
    · subst hca
      refine ⟨i, hi, (congrArg present (word_store hi hi)).trans ?_⟩
      rw [if_pos ⟨rfl, rfl⟩]
      exact hw.present_eq
    · exact hk.full_of_word hc hp fun k hk' => word_store_ne hi hk' hca
  | @clear t used fr q a i ha hi hu hother =>
    by_cases hca : c = a
    · subst hca
      obtain rfl := T.inj ha hc
      obtain ⟨j, hj, hji, hpres⟩ := hother hp
      refine ⟨j, hj, (congrArg present (word_store hi hj)).trans ?_⟩
      rwa [if_neg fun h => hji h.2]
    · exact hk.full_of_word hc hp fun k hk' => word_store_ne hi hk' hca
  | @drop t used fr q a i e j ha hq hu hj =>
    have hnew : p ≠ i :: q := by
      rintro rfl
      cases (update_self ..).symm.trans hc
    have hold := used_of_update hc hnew
    have T' := T.rewrite hu hj (.empty rfl (T.used_pt (by simp [hq])))
    exact hk.full_of_word hold hp fun k hk' =>
      (T'.word_dropTable_old ha hu hold hnew hk' (cons_ne_of_length (by omega))).trans
        (word_store_ne hj hk' (T.ne_of_used hold hu hnew))

theorem Moves.kept (h : Moves b S S') (T : Tree b S.t S.used S.fr) (hk : Kept b S) : Kept b S' :=
  h.rule T (fun hm T1 hk1 => ⟨hm.written T1 hk1.toWritten, hm.full T1 hk1⟩) hk

end Advos.Pgt
